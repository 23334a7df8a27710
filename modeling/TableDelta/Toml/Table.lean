import TableDelta.Toml.Value
/-!
# Building TOML tables

Tables grow from entries with dotted keys and from headings. Each table remembers how
it came about, because that decides what may still be added to it: a heading opens a
table once, and only after it was merely passed on the way to another one; dotted keys
extend only what dotted keys have made.
-/
namespace TableDelta.Toml

/-- How a table came about. -/
inductive Origin where
  /-- A heading opened it. -/
  | opened
  /-- A heading passed through it. -/
  | passed
  /-- A dotted key passed through it. -/
  | dotted
  deriving DecidableEq, Repr

/-- What stands at a key while a document is being read. -/
inductive Node where
  | value (value : Toml)
  | table (origin : Origin) (members : List (String × Node))
  /-- The tables under a heading in double brackets, the last one first. -/
  | rows (rows : List (List (String × Node)))

namespace Node

/-- Replaces what stands at a key, or puts something there. -/
def alter (key : String) (change : Option Node → Option Node) :
    List (String × Node) → Option (List (String × Node))
  | [] => (change none).map fun node => [(key, node)]
  | (name, node) :: members =>
    if name == key then (change (some node)).map fun node => (name, node) :: members
    else (alter key change members).map ((name, node) :: ·)

/-- Adds a value under a path of dotted keys, where nothing may stand yet. -/
def insert (value : Toml) : List String → List (String × Node) → Option (List (String × Node))
  | [], _ => none
  | [key], members => alter key (fun
    | none => some (.value value)
    | some _ => none) members
  | key :: next :: path, members => alter key (fun
    | none => (insert value (next :: path) []).map (table .dotted)
    | some (table .dotted inner) => (insert value (next :: path) inner).map (table .dotted)
    | some (table .passed inner) =>
      if path.isEmpty then none else (insert value (next :: path) inner).map (table .passed)
    | some (rows (row :: others)) =>
      if path.isEmpty then none
      else (insert value (next :: path) row).map fun row => rows (row :: others)
    | some _ => none) members

/-- Adds entries one after the other. -/
def insertAll (entries : List (List String × Toml)) (members : List (String × Node)) :
    Option (List (String × Node)) :=
  entries.foldlM (fun members entry => insert entry.2 entry.1 members) members

/-- Changes the table under the path of a heading. -/
def descend (change : List (String × Node) → Option (List (String × Node))) :
    List String → List (String × Node) → Option (List (String × Node))
  | [], members => change members
  | key :: path, members => alter key (fun
    | none => (descend change path []).map (table .passed)
    | some (table origin inner) => (descend change path inner).map (table origin)
    | some (rows (row :: others)) =>
      (descend change path row).map fun row => rows (row :: others)
    | some _ => none) members

/-- Opens the table of a heading and adds the entries below it. -/
def openTable (path : List String) (entries : List (List String × Toml))
    (members : List (String × Node)) : Option (List (String × Node)) :=
  descend (alter (path.getLastD "") fun
    | none => (insertAll entries []).map (table .opened)
    | some (table .passed inner) => (insertAll entries inner).map (table .opened)
    | some _ => none) path.dropLast members

/-- Appends a table under a heading in double brackets and adds the entries below it. -/
def appendRow (path : List String) (entries : List (List String × Toml))
    (members : List (String × Node)) : Option (List (String × Node)) :=
  descend (alter (path.getLastD "") fun
    | none => (insertAll entries []).map fun row => rows [row]
    | some (rows others) => (insertAll entries []).map fun row => rows (row :: others)
    | some _ => none) path.dropLast members

mutual

/-- The finished value of what stands at a key. -/
def finished : Node → Toml
  | value toml => toml
  | table _ members => .table (finishedMembers members)
  | rows tables => .array (finishedRows tables).reverse

def finishedMembers : List (String × Node) → List (String × Toml)
  | [] => []
  | (key, node) :: members => (key, node.finished) :: finishedMembers members

/-- The finished tables of an array, in the order in which they are kept. -/
def finishedRows : List (List (String × Node)) → List Toml
  | [] => []
  | row :: others => .table (finishedMembers row) :: finishedRows others

end

end Node

/-- The table of some entries, if no two of them collide. -/
def ofEntries? (entries : List (List String × Toml)) : Option Toml :=
  (Node.insertAll entries []).map fun members => .table (Node.finishedMembers members)

end TableDelta.Toml
