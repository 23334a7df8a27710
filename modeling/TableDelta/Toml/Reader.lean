import TableDelta.Toml.DateTime
import TableDelta.Toml.Numeral
import TableDelta.Toml.Strings
import TableDelta.Toml.Table
/-!
# Reading TOML

A document is a row of lines: blank ones, headings and entries. The lines are read
first, then the entries are gathered under their headings and built into one table.
Arrays and inline tables nest at most `maxDepth` deep.
-/
namespace TableDelta.Toml

/-- How deep arrays and inline tables may nest. -/
def maxDepth : Nat := 79

/-- Reads an item of an array and the layout around it. -/
def readItem (read : Reader Toml) : Reader Toml := fun cs => do
  let (item, rest) ← read (skipLayout false cs)
  return (item, skipLayout false rest)

/-- Reads an array from behind its opening bracket; a comma may stand behind the last item. -/
def readArray (read : Reader Toml) : Reader Toml := fun cs =>
  let (items, rest) := match readItem read cs with
    | none => ([], skipLayout false cs)
    | some (item, rest) =>
      let (items, rest) := many (fun
        | ',' :: rest => readItem read rest
        | _ => none) rest
      (item :: items, match rest with
        | ',' :: rest => skipLayout false rest
        | rest => rest)
  match rest with
  | ']' :: rest => some (.array items, rest)
  | _ => none

/-- Reads a key path, the sign of equality and a value. -/
def readEntry (read : Reader Toml) : Reader (List String × Toml) := fun cs => do
  let (path, rest) ← readPath cs
  match rest with
  | '=' :: rest =>
    let (value, rest) ← read (skipSpaces rest)
    return ((path, value), skipSpaces rest)
  | _ => none

/-- Reads an inline table from behind its opening brace. -/
def readInlineTable (read : Reader Toml) : Reader Toml := fun cs =>
  let (entries, rest) := match readEntry read cs with
    | none => ([], skipSpaces cs)
    | some (entry, rest) =>
      let (entries, rest) := many (fun
        | ',' :: rest => readEntry read rest
        | _ => none) rest
      (entry :: entries, rest)
  match rest with
  | '\x7d' :: rest => (ofEntries? entries).map fun table => (table, rest)
  | _ => none

/-- Reads a value in which arrays and inline tables nest at most so deep. -/
def readValue (depth : Nat) : Reader Toml
  | '[' :: rest => match depth with
    | 0 => none
    | depth + 1 => readArray (readValue depth) rest
  | '\x7b' :: rest => match depth with
    | 0 => none
    | depth + 1 => readInlineTable (readValue depth) rest
  | 't' :: 'r' :: 'u' :: 'e' :: rest => some (.bool true, rest)
  | 'f' :: 'a' :: 'l' :: 's' :: 'e' :: rest => some (.bool false, rest)
  | '"' :: rest => (readString ('"' :: rest)).map fun (text, rest) => (.string text, rest)
  | '\'' :: rest => (readString ('\'' :: rest)).map fun (text, rest) => (.string text, rest)
  | cs => readDateTime cs <|> readNumber cs

/-! ## Lines -/

/-- What a line of a document says. -/
inductive Line where
  | blank
  | entry (path : List String) (value : Toml)
  /-- A heading in single brackets. -/
  | table (path : List String)
  /-- A heading in double brackets. -/
  | row (path : List String)

/-- Reads a line, its end included. -/
def readLine : Reader Line := fun cs =>
  match skipSpaces cs with
  | [] => none
  | '[' :: '[' :: rest => do
    let (path, rest) ← readPath rest
    match rest with
    | ']' :: ']' :: rest => return (.row path, ← endLine? rest)
    | _ => none
  | '[' :: rest => do
    let (path, rest) ← readPath rest
    match rest with
    | ']' :: rest => return (.table path, ← endLine? rest)
    | _ => none
  | cs => match endLine? cs with
    | some rest => some (.blank, rest)
    | none => do
      let ((path, value), rest) ← readEntry (readValue maxDepth) cs
      return (.entry path value, ← endLine? rest)

/-- Reads all lines of a text. -/
def lines? (cs : List Char) : Option (List Line) :=
  let (lines, rest) := many readLine cs
  if (skipSpaces rest).isEmpty then some lines else none

/-! ## Documents -/

/-- The entries before the first heading. -/
def leadingEntries : List Line → List (List String × Toml)
  | .blank :: lines => leadingEntries lines
  | .entry path value :: lines => (path, value) :: leadingEntries lines
  | _ => []

/-- Adds the tables of all headings in their order. -/
def addHeadings : List Line → List (String × Node) → Option (List (String × Node))
  | [], members => some members
  | .table path :: lines, members => do
    addHeadings lines (← Node.openTable path (leadingEntries lines) members)
  | .row path :: lines, members => do
    addHeadings lines (← Node.appendRow path (leadingEntries lines) members)
  | _ :: lines, members => addHeadings lines members

/-- The table of a document. -/
def ofLines? (lines : List Line) : Option Toml := do
  let members ← addHeadings lines (← Node.insertAll (leadingEntries lines) [])
  return .table (Node.finishedMembers members)

/-- The text without the byte order mark at its start. -/
def skipMark : List Char → List Char
  | '\ufeff' :: rest => rest
  | cs => cs

def ofText? (text : String) : Option Toml := do
  ofLines? (← lines? (skipMark text.toList))

end TableDelta.Toml
