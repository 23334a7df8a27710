import TableDelta.Proofs.Json.Members
import TableDelta.Proofs.Json.Stable
import TableDelta.Proofs.Snapshot.Declarations
import TableDelta.Wire.Snapshot
/-!
# Reading back snapshots

The columns of a snapshot have distinct names, so declaring them one after the other when
they are read gives back the same columns in the same order.
-/
namespace TableDelta

namespace Column

/-- The members of a column, as they stand in an object. -/
def members (column : Column) : List (String × Json) :=
  [("name", .string column.name), ("schema", .string column.definition)]

theorem nodup_members (column : Column) : (column.members.map Prod.fst).Nodup :=
  (by decide : ["name", "schema"].Nodup)

theorem ofJson?_of_provides {json : Json} {column : Column} (h : json.Provides column.members) :
    ofJson? json = some column := by
  have hslots : Json.slots? ["name", "schema"] json = _ := h
  rw [ofJson?, hslots]
  rfl

theorem ofJson?_toJson (column : Column) : ofJson? column.toJson = some column :=
  ofJson?_of_provides (Json.provides_object column.nodup_members)

theorem isStableAt_toJson {depth : Nat} (hd : depth < Json.maxDepth) (column : Column) :
    column.toJson.isStableAt depth = true := by
  apply Json.isStableAt_object hd
  intro member hmember
  simp only [List.mem_cons, List.not_mem_nil, or_false] at hmember
  rcases hmember with rfl | rfl
  · rfl
  · rfl

end Column

namespace Snapshot

/-- The members of a snapshot, as they stand in an object, over any JSON of its columns. -/
def membersOver (snapshot : Snapshot) (columns : List Json) : List (String × Json) :=
  [("table", .string snapshot.table), ("columns", .array columns)]

theorem nodup_membersOver (snapshot : Snapshot) (columns : List Json) :
    ((snapshot.membersOver columns).map Prod.fst).Nodup :=
  (by decide : ["table", "columns"].Nodup)

theorem ofJson?_of_provides {json : Json} {columns : List Json} {snapshot : Snapshot}
    (hcolumns : columns.mapM Column.ofJson? = some snapshot.columns)
    (hjson : json.Provides (snapshot.membersOver columns)) : ofJson? json = some snapshot := by
  have hslots : json.slots? ["table", "columns"] = _ := hjson
  rw [ofJson?, hslots]
  simp [membersOver, Json.string?, Json.items?, hcolumns, ofColumns_columns]

theorem ofJson?_toJson (snapshot : Snapshot) : ofJson? snapshot.toJson = some snapshot := by
  have hcolumns : (snapshot.columns.map Column.toJson).mapM Column.ofJson? =
      some snapshot.columns := Json.mapM_map fun column _ => column.ofJson?_toJson
  exact ofJson?_of_provides hcolumns (Json.provides_object (snapshot.nodup_membersOver _))

theorem isStableAt_toJson {depth : Nat} (hd : depth + 2 < Json.maxDepth) (snapshot : Snapshot) :
    snapshot.toJson.isStableAt depth = true := by
  have hcolumns : depth + 1 < Json.maxDepth := Nat.lt_of_succ_lt hd
  apply Json.isStableAt_object (Nat.lt_of_succ_lt hcolumns)
  intro member hmember
  simp only [List.mem_cons, List.not_mem_nil, or_false] at hmember
  rcases hmember with rfl | rfl
  · rfl
  · exact Json.isStableAt_array_map hcolumns fun column _ => column.isStableAt_toJson hd

end Snapshot

end TableDelta
