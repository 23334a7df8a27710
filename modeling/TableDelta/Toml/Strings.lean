import TableDelta.Text.Numeral
import TableDelta.Toml.Layout
/-!
# Strings and keys of TOML texts

Basic strings stand in quotes and know escapes, literal strings stand in apostrophes
and know none; with the delimiter written thrice either may run over several lines.
-/
namespace TableDelta.Toml

/-- The characters that stand for themselves in a basic string. -/
def isBasicChar (c : Char) : Bool := isCommentChar c && c != '"' && c != '\\'

/-- The characters that stand for themselves in a literal string. -/
def isLiteralChar (c : Char) : Bool := isCommentChar c && c != '\''

def shortEscape? : Char → Option Char
  | 'b' => some '\x08'
  | 't' => some '\t'
  | 'n' => some '\n'
  | 'f' => some '\x0c'
  | 'r' => some '\r'
  | '"' => some '"'
  | '\\' => some '\\'
  | _ => none

/-- The character that an escape with its number stands for; surrogates are none. -/
def hexEscape? (digits : List Char) : Option Char := do
  let n ← Text.hexValue? digits
  if Nat.blt n 0xD800 || Nat.blt 0xDFFF n && Nat.blt n 0x110000 then some (Char.ofNat n) else none

/-- Puts a character, if it is one, in front of a text that has been read. -/
def prepend (c : Option Char) (read : Option (List Char × List Char)) :
    Option (List Char × List Char) := do
  let c ← c
  let (text, rest) ← read
  return (c :: text, rest)

/-- Reads a basic string from behind its opening quote. -/
def readBasic : Reader (List Char)
  | [] => none
  | '"' :: rest => some ([], rest)
  | '\\' :: 'u' :: a :: b :: c :: d :: rest =>
    prepend (hexEscape? [a, b, c, d]) (readBasic rest)
  | '\\' :: 'U' :: a :: b :: c :: d :: e :: f :: g :: h :: rest =>
    prepend (hexEscape? [a, b, c, d, e, f, g, h]) (readBasic rest)
  | '\\' :: letter :: rest => prepend (shortEscape? letter) (readBasic rest)
  | c :: rest => if isBasicChar c then prepend (some c) (readBasic rest) else none

/-- Whether only blanks are left of a line. -/
def endsLine (cs : List Char) : Bool := (readNewLine? (skipSpaces cs)).isSome

/-- Reads a basic string over several lines from behind its opening quotes. A backslash at
the end of a line takes the blanks and line ends behind it along; `trimming` tells that
these are being skipped. Up to two quotes may stand before the closing ones. -/
def readBasicLines (trimming : Bool) : Reader (List Char)
  | [] => none
  | '"' :: '"' :: '"' :: '"' :: '"' :: rest => some (['"', '"'], rest)
  | '"' :: '"' :: '"' :: '"' :: rest => some (['"'], rest)
  | '"' :: '"' :: '"' :: rest => some ([], rest)
  | '"' :: rest => prepend (some '"') (readBasicLines false rest)
  | '\\' :: 'u' :: a :: b :: c :: d :: rest =>
    prepend (hexEscape? [a, b, c, d]) (readBasicLines false rest)
  | '\\' :: 'U' :: a :: b :: c :: d :: e :: f :: g :: h :: rest =>
    prepend (hexEscape? [a, b, c, d, e, f, g, h]) (readBasicLines false rest)
  | '\\' :: letter :: rest =>
    if endsLine (letter :: rest) then readBasicLines true rest
    else prepend (shortEscape? letter) (readBasicLines false rest)
  | '\r' :: '\n' :: rest =>
    if trimming then readBasicLines true rest
    else prepend (some '\n') (readBasicLines false rest)
  | c :: rest =>
    if trimming && (isSpace c || c == '\n') then readBasicLines true rest
    else if isBasicChar c || c == '\n' then prepend (some c) (readBasicLines false rest)
    else none

/-- Reads a literal string from behind its opening apostrophe. -/
def readLiteral : Reader (List Char)
  | [] => none
  | '\'' :: rest => some ([], rest)
  | c :: rest => if isLiteralChar c then prepend (some c) (readLiteral rest) else none

/-- Reads a literal string over several lines from behind its opening apostrophes. Up to two
apostrophes may stand before the closing ones. -/
def readLiteralLines : Reader (List Char)
  | [] => none
  | '\'' :: '\'' :: '\'' :: '\'' :: '\'' :: rest => some (['\'', '\''], rest)
  | '\'' :: '\'' :: '\'' :: '\'' :: rest => some (['\''], rest)
  | '\'' :: '\'' :: '\'' :: rest => some ([], rest)
  | '\'' :: rest => prepend (some '\'') (readLiteralLines rest)
  | '\r' :: '\n' :: rest => prepend (some '\n') (readLiteralLines rest)
  | c :: rest =>
    if isLiteralChar c || c == '\n' then prepend (some c) (readLiteralLines rest) else none

/-- Reads a string; a line end right behind a triple delimiter does not count. -/
def readString : Reader String := fun cs =>
  (match cs with
    | '"' :: '"' :: '"' :: rest => readBasicLines false (skipNewLine rest)
    | '"' :: rest => readBasic rest
    | '\'' :: '\'' :: '\'' :: rest => readLiteralLines (skipNewLine rest)
    | '\'' :: rest => readLiteral rest
    | _ => none).map fun (text, rest) => (String.ofList text, rest)

/-- The characters of keys that need no quotes. -/
def isBareChar (c : Char) : Bool := c.isAlphanum || c == '-' || c == '_'

/-- Reads one key, bare or in quotes, and the blanks around it. -/
def readKey : Reader String := fun cs => do
  let (key, rest) ← match skipSpaces cs with
    | '"' :: rest => readBasic rest
    | '\'' :: rest => readLiteral rest
    | cs => match cs.takeWhile isBareChar with
      | [] => none
      | key => some (key, cs.dropWhile isBareChar)
  return (String.ofList key, skipSpaces rest)

/-- The least number of keys that a path must not have. -/
def pathLimit : Nat := 80

/-- Reads a path of keys with points between them. -/
def readPath : Reader (List String) := fun cs => do
  let (key, rest) ← readKey cs
  let (keys, rest) := many (fun
    | '.' :: rest => readKey rest
    | _ => none) rest
  if Nat.blt (keys.length + 1) pathLimit then some (key :: keys, rest) else none

end TableDelta.Toml
