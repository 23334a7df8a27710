import TableDelta.Json.Lexeme
import TableDelta.Json.Magnitude
/-!
# Reading JSON

A value is read from its lexemes in one pass, with the arrays and objects that are
still open on a stack. Nothing limits how deep a text may nest, but what is nested
deeper than `maxDepth` is unusable, and so are numbers out of range and strings with
half a surrogate pair.
-/
namespace TableDelta.Json

/-- How deep arrays and objects may nest before they become unusable. -/
def maxDepth : Nat := 127

/-- An array or object that is still open, with what it holds so far in reverse. -/
inductive Frame where
  | array (items : List Json)
  /-- The name is that of the member whose value comes next. -/
  | object (members : List (Option String × Json)) (name : Option String)

/-- A container that closes below some open ones, if it is not nested too deep. -/
def within (stack : List Frame) (json : Json) : Json :=
  if Nat.blt stack.length maxDepth then json else .unusable

def ofNumber (number : Number) : Json :=
  if number.isInRange then .number number else .unusable

def ofLiteral : Option String → Json
  | some value => .string value
  | none => .unusable

/-- The members of an object, if each has a name. -/
def namedMembers? (members : List (Option String × Json)) : Option (List (String × Json)) :=
  members.mapM fun (name, value) => name.map fun name => (name, value)

def ofMembers (members : List (Option String × Json)) : Json :=
  match namedMembers? members with
  | some members => .object members
  | none => .unusable

mutual

/-- Reads on where a value has to come. -/
def readValue (stack : List Frame) : List Lexeme → Option Json
  | .null :: rest => readAfter .null stack rest
  | .bool value :: rest => readAfter (.bool value) stack rest
  | .number value :: rest => readAfter (ofNumber value) stack rest
  | .string value :: rest => readAfter (ofLiteral value) stack rest
  | .openBracket :: .closeBracket :: rest => readAfter (within stack (.array [])) stack rest
  | .openBracket :: rest => readValue (.array [] :: stack) rest
  | .openBrace :: .closeBrace :: rest => readAfter (within stack (.object [])) stack rest
  | .openBrace :: .string name :: .colon :: rest => readValue (.object [] name :: stack) rest
  | _ => none

/-- Reads on behind a value. -/
def readAfter (value : Json) : List Frame → List Lexeme → Option Json
  | [], [] => some value
  | .array items :: stack, .comma :: rest => readValue (.array (value :: items) :: stack) rest
  | .array items :: stack, .closeBracket :: rest =>
    readAfter (within stack (.array (value :: items).reverse)) stack rest
  | .object members name :: stack, .comma :: .string next :: .colon :: rest =>
    readValue (.object ((name, value) :: members) next :: stack) rest
  | .object members name :: stack, .closeBrace :: rest =>
    readAfter (within stack (ofMembers ((name, value) :: members).reverse)) stack rest
  | _, _ => none

end

/-- Reads a JSON text, which holds one value and white space around it. -/
def ofText? (text : String) : Option Json := do
  readValue [] (← lexemes? text.toList)

end TableDelta.Json
