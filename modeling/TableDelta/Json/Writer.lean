import TableDelta.Json.Lexeme
/-!
# Writing JSON

`compact` writes the lexemes of a value one after the other. `indented` gives every
item and every member a line of its own, two spaces further in than its container;
empty containers stay on their line.
-/
namespace TableDelta.Json

mutual

/-- The lexemes of a value. -/
def lexemes : Json → List Lexeme
  | .null => [.null]
  | .bool value => [.bool value]
  | .number value => [.number value]
  | .string value => [.string (some value)]
  | .array [] => [.openBracket, .closeBracket]
  | .array (item :: items) => .openBracket :: (item.lexemes ++ itemLexemes items)
  | .object [] => [.openBrace, .closeBrace]
  | .object ((name, value) :: members) =>
    .openBrace :: .string (some name) :: .colon :: (value.lexemes ++ memberLexemes members)
  | .unusable => [.null]

/-- The lexemes of further items and the end of their array. -/
def itemLexemes : List Json → List Lexeme
  | [] => [.closeBracket]
  | item :: items => .comma :: (item.lexemes ++ itemLexemes items)

/-- The lexemes of further members and the end of their object. -/
def memberLexemes : List (String × Json) → List Lexeme
  | [] => [.closeBrace]
  | (name, value) :: members =>
    .comma :: .string (some name) :: .colon :: (value.lexemes ++ memberLexemes members)

end

/-- The text of a value without white space. -/
def compact (json : Json) : String :=
  String.ofList (json.lexemes.flatMap Lexeme.write)

/-- The start of a line at some depth. -/
def newLine (depth : Nat) : List Char :=
  '\n' :: List.replicate (2 * depth) ' '

mutual

/-- Writes a value that stands at some depth. -/
def indentedAt (depth : Nat) : Json → List Char
  | .array (item :: items) =>
    '[' :: newLine (depth + 1) ++ indentedAt (depth + 1) item ++ indentedItems depth items
  | .object ((name, value) :: members) =>
    '\x7b' :: newLine (depth + 1) ++ writeLiteral name ++ ':' :: ' ' ::
      indentedAt (depth + 1) value ++ indentedMembers depth members
  | json => json.lexemes.flatMap Lexeme.write

/-- Writes further items and the end of their array. -/
def indentedItems (depth : Nat) : List Json → List Char
  | [] => newLine depth ++ [']']
  | item :: items =>
    ',' :: newLine (depth + 1) ++ indentedAt (depth + 1) item ++ indentedItems depth items

/-- Writes further members and the end of their object. -/
def indentedMembers (depth : Nat) : List (String × Json) → List Char
  | [] => newLine depth ++ ['\x7d']
  | (name, value) :: members =>
    ',' :: newLine (depth + 1) ++ writeLiteral name ++ ':' :: ' ' ::
      indentedAt (depth + 1) value ++ indentedMembers depth members

end

/-- The text of a value over several lines. -/
def indented (json : Json) : String :=
  String.ofList (indentedAt 0 json)

end TableDelta.Json
