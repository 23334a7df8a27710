/-!
# Blanks, comments and line ends of TOML texts

A line ends with a line feed, which a carriage return may precede, or with the text.
Comments run up to the end of their line and hold no control characters but tabs.
-/
namespace TableDelta.Toml

/-- Reads something at the start of a text and tells what is left. -/
abbrev Reader (α : Type) := List Char → Option (α × List Char)

/-- Reads on as long as something can be read and the text gets shorter. -/
def many {α : Type} (read : Reader α) (cs : List Char) : List α × List Char :=
  match read cs with
  | none => ([], cs)
  | some (a, rest) =>
    if _h : rest.length < cs.length then
      let (more, rest) := many read rest
      (a :: more, rest)
    else ([], cs)
termination_by cs.length

/-- The text up to where another reading of it has come. -/
def consumed (cs rest : List Char) : List Char := cs.take (cs.length - rest.length)

def isSpace (c : Char) : Bool := c == ' ' || c == '\t'

def skipSpaces (cs : List Char) : List Char := cs.dropWhile isSpace

/-- The characters of comments: all but control characters, and tabs. -/
def isCommentChar (c : Char) : Bool :=
  c == '\t' || Nat.ble 0x20 c.toNat && c.toNat != 0x7F

def readNewLine? : List Char → Option (List Char)
  | '\n' :: rest => some rest
  | '\r' :: '\n' :: rest => some rest
  | _ => none

def skipNewLine (cs : List Char) : List Char := (readNewLine? cs).getD cs

def skipComment : List Char → List Char
  | '#' :: rest => rest.dropWhile isCommentChar
  | cs => cs

/-- Reads what may stand at the end of a line, and the line end. -/
def endLine? (cs : List Char) : Option (List Char) :=
  match skipComment (skipSpaces cs) with
  | [] => some []
  | cs => readNewLine? cs

/-- Skips blanks, comments and line ends; a comment may have begun already. -/
def skipLayout (inComment : Bool) : List Char → List Char
  | [] => []
  | '\n' :: rest => skipLayout false rest
  | '\r' :: '\n' :: rest => skipLayout false rest
  | c :: rest =>
    if inComment then
      if isCommentChar c then skipLayout true rest else c :: rest
    else if isSpace c then skipLayout false rest
    else if c == '#' then skipLayout true rest
    else c :: rest

end TableDelta.Toml
