import TableDelta.Change.Set
import TableDelta.Wire.Definition
/-!
# JSON form of changes

A change is an object that names its kind and holds the payload beside it, or an array
of the kind and the payload. Which members matter is known only once the kind is, and
it may come last, so all of a change must be usable and an empty object may then stand
for the missing payload of a token.
-/
namespace TableDelta

/-- The least number that is too large for a count or an index. -/
def countLimit : Nat := 0x10000000000000000

namespace ChangeKind

def toJson (kind : ChangeKind) : Json := .string kind.code

def ofJson? (json : Json) : Option ChangeKind := do
  ofCode? (← json.variant? Json.isNull)

end ChangeKind

namespace Rename

def members (rename : Rename) : List (String × Json) :=
  [("from", .string rename.previous), ("to", .string rename.current)]

def toJson (rename : Rename) : Json := .object rename.members

def ofJson? (json : Json) : Option Rename := do
  match ← json.slots? ["from", "to"] with
  | [some previous, some current] => return ⟨← previous.string?, ← current.string?⟩
  | _ => none

end Rename

namespace Redefinition

def members (r : Redefinition) : List (String × Json) :=
  [("index", .natural r.index), ("previous_column", .string r.previousColumn),
    ("column", .string r.column), ("previous", r.previous.toJson), ("current", r.current.toJson)]

def toJson (r : Redefinition) : Json := .object r.members

/-- Reads a redefinition; the given values count as the missing payload of a token. -/
def decode? (isVacant : Json → Bool) (json : Json) : Option Redefinition := do
  match ← json.slots? ["index", "previous_column", "column", "previous", "current"] with
  | [some index, some previousColumn, some column, some previous, some current] =>
    return ⟨← index.natBelow? countLimit, ← previousColumn.string?, ← column.string?,
      ← Definition.decode? isVacant previous, ← Definition.decode? isVacant current⟩
  | _ => none

/-- Reads a redefinition, for the payload of whose tokens only null may stand. -/
def ofJson? (json : Json) : Option Redefinition := decode? Json.isNull json

end Redefinition

namespace Change

/-- Whether a value may stand for a missing payload within a change. -/
def isVacant : Json → Bool
  | .null => true
  | .object [] => true
  | _ => false

def payload : Change → List (String × Json)
  | tableRenamed rename => rename.members
  | columnRenamed rename => rename.members
  | columnsDropped columns => [("columns", .strings columns)]
  | columnsAdded columns => [("columns", .strings columns)]
  | definitionChanged r => r.members
  | foreignKeyDropped column => [("column", .string column)]
  | foreignKeyAdded column => [("column", .string column)]
  | primaryKeyDropped column => [("column", .string column)]
  | uniqueKeyDropped column => [("column", .string column)]
  | indexKeyDropped column => [("column", .string column)]
  | morphDropped column => [("column", .string column)]

def toJson (change : Change) : Json :=
  .object (("kind", change.kind.toJson) :: change.payload)

/-- Reads the columns that a payload lists. -/
def columns? (payload : Json) : Option (List String) := do
  match ← payload.slots? ["columns"] with
  | [some columns] => columns.strings?
  | _ => none

/-- Reads the column that a payload names. -/
def column? (payload : Json) : Option String := do
  match ← payload.slots? ["column"] with
  | [some column] => column.string?
  | _ => none

/-- Reads the payload of a change of known kind. -/
def ofPayload? (kind : ChangeKind) (payload : Json) : Option Change :=
  match kind with
  | .tableRenamed => (Rename.ofJson? payload).map tableRenamed
  | .columnRenamed => (Rename.ofJson? payload).map columnRenamed
  | .columnsDropped => (columns? payload).map columnsDropped
  | .columnsAdded => (columns? payload).map columnsAdded
  | .definitionChanged => (Redefinition.decode? isVacant payload).map definitionChanged
  | .foreignKeyDropped => (column? payload).map foreignKeyDropped
  | .foreignKeyAdded => (column? payload).map foreignKeyAdded
  | .primaryKeyDropped => (column? payload).map primaryKeyDropped
  | .uniqueKeyDropped => (column? payload).map uniqueKeyDropped
  | .indexKeyDropped => (column? payload).map indexKeyDropped
  | .morphDropped => (column? payload).map morphDropped

/-- Reads a change, from an object with its kind or from an array that begins with it. -/
def ofJson? (json : Json) : Option Change := do
  if json.isUsable then
    match json with
    | .object members =>
      let kind ← ChangeKind.ofCode? (← (← (← Json.member? "kind" members)).string?)
      ofPayload? kind json
    | .array (kind :: payload) =>
      ofPayload? (← ChangeKind.ofCode? (← kind.string?)) (.array payload)
    | _ => none
  else none

end Change

def ChangeSet.toJson (set : ChangeSet) : Json :=
  .object [("changelog", .strings set.changelog),
    ("records", .array (set.changes.map Change.toJson)),
    ("table_renames", .array (set.tableRenames.map Rename.toJson)),
    ("column_renames", .array (set.columnRenames.map Rename.toJson)),
    ("column_drops", .strings set.columnDrops),
    ("column_adds", .strings set.columnAdds),
    ("definition_changes", .array (set.redefinitions.map Redefinition.toJson)),
    ("foreign_drops", .strings set.foreignDrops),
    ("foreign_adds", .strings set.foreignAdds),
    ("primary_drops", .strings set.primaryDrops),
    ("unique_drops", .strings set.uniqueDrops),
    ("index_drops", .strings set.indexDrops),
    ("morph_drops", .strings set.morphDrops)]

end TableDelta
