import TableDelta.Json.Members
import TableDelta.Snapshot
/-!
# JSON form of snapshots

The columns of a snapshot are declared in the order in which they are read, so a
repeated name keeps its first place and its last definition.
-/
namespace TableDelta

namespace Column

def toJson (column : Column) : Json :=
  .object [("name", .string column.name), ("schema", .string column.definition)]

def ofJson? (json : Json) : Option Column := do
  match ← json.slots? ["name", "schema"] with
  | [some name, some definition] => return ⟨← name.string?, ← definition.string?⟩
  | _ => none

end Column

namespace Snapshot

def toJson (snapshot : Snapshot) : Json :=
  .object [("table", .string snapshot.table),
    ("columns", .array (snapshot.columns.map Column.toJson))]

/-- Reads a snapshot; without columns it has none. -/
def ofJson? (json : Json) : Option Snapshot := do
  match ← json.slots? ["table", "columns"] with
  | [some table, none] => return empty (← table.string?)
  | [some table, some columns] =>
    return ofColumns (← table.string?) (← (← columns.items?).mapM Column.ofJson?)
  | _ => none

end Snapshot

end TableDelta
