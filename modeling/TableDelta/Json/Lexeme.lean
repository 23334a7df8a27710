import TableDelta.Json.NumberLiteral
import TableDelta.Json.StringLiteral
/-!
# Lexemes of JSON texts

A JSON text is a row of lexemes with white space between them. `Lexeme.read` takes
the first lexeme off a text and `lexemes?` takes all of them; `Lexeme.write` is the
one way in which a lexeme is written.
-/
namespace TableDelta.Json

inductive Lexeme where
  | openBrace
  | closeBrace
  | openBracket
  | closeBracket
  | colon
  | comma
  | null
  | bool (value : Bool)
  | number (value : Number)
  /-- A string literal; none if its escapes leave half of a surrogate pair alone. -/
  | string (value : Option String)
  deriving DecidableEq, Repr

def isSpace (c : Char) : Bool := c == ' ' || c == '\t' || c == '\n' || c == '\r'

/-- Reads the lexeme at the very start of a text. -/
def Lexeme.read : List Char → Option (Lexeme × List Char)
  | '\x7b' :: rest => some (openBrace, rest)
  | '\x7d' :: rest => some (closeBrace, rest)
  | '[' :: rest => some (openBracket, rest)
  | ']' :: rest => some (closeBracket, rest)
  | ':' :: rest => some (colon, rest)
  | ',' :: rest => some (comma, rest)
  | 'n' :: 'u' :: 'l' :: 'l' :: rest => some (null, rest)
  | 't' :: 'r' :: 'u' :: 'e' :: rest => some (bool true, rest)
  | 'f' :: 'a' :: 'l' :: 's' :: 'e' :: rest => some (bool false, rest)
  | '"' :: rest => (readLiteral rest).map fun (parts, rest) =>
    (string ((assemble none parts).map String.ofList), rest)
  | cs => (readNumber cs).map fun (value, rest) => (number value, rest)

def Lexeme.write : Lexeme → List Char
  | openBrace => ['\x7b']
  | closeBrace => ['\x7d']
  | openBracket => ['[']
  | closeBracket => [']']
  | colon => [':']
  | comma => [',']
  | null => ['n', 'u', 'l', 'l']
  | bool true => ['t', 'r', 'u', 'e']
  | bool false => ['f', 'a', 'l', 's', 'e']
  | number value => value.write
  | string value => writeLiteral (value.getD "")

private theorem Lexeme.length_read {cs rest : List Char} {lexeme : Lexeme}
    (h : read cs = some (lexeme, rest)) : rest.length < cs.length := by
  unfold read at h
  split at h
  case h_10 tail =>
    simp only [Option.map_eq_some_iff, Prod.mk.injEq] at h
    obtain ⟨r, hr, _, rfl⟩ := h
    have := length_readLiteral hr
    simp only [List.length_cons]
    omega
  case h_11 =>
    simp only [Option.map_eq_some_iff, Prod.mk.injEq] at h
    obtain ⟨r, hr, _, rfl⟩ := h
    exact length_readNumber hr
  all_goals
    simp only [Option.some.injEq, Prod.mk.injEq] at h
    simp only [← h.2, List.length_cons]
    omega

/-- The lexemes of a text, if it consists of lexemes and white space. -/
def lexemes? (cs : List Char) : Option (List Lexeme) :=
  match cs with
  | [] => some []
  | c :: rest =>
    if isSpace c then lexemes? rest
    else match _h : Lexeme.read (c :: rest) with
      | none => none
      | some (lexeme, rest) => (lexemes? rest).map (lexeme :: ·)
termination_by cs.length
decreasing_by
  · simp
  · exact Lexeme.length_read _h

end TableDelta.Json
