import TableDelta.Text.Blank
/-!
# Snapshots of a table

A snapshot is a table name and its columns in declaration order. Column names are
distinct by construction: declaring a name again replaces its definition in place.
Main statement: `names_declare`, the names after a declaration.
-/
namespace TableDelta

/-- A column with the text of its definition. -/
structure Column where
  name : String
  definition : String
  deriving DecidableEq, Repr

/-- Replaces the column of the same name, or appends the column. -/
def Column.declare (column : Column) : List Column → List Column
  | [] => [column]
  | first :: rest =>
    if first.name = column.name then column :: rest else first :: column.declare rest

theorem Column.names_declare (column : Column) (columns : List Column) :
    (column.declare columns).map Column.name =
      if column.name ∈ columns.map Column.name then columns.map Column.name
      else columns.map Column.name ++ [column.name] := by
  induction columns with
  | nil => rfl
  | cons first rest ih =>
    by_cases h : first.name = column.name
    · simp [declare, h]
    · have h' : ¬ column.name = first.name := fun e => h e.symm
      simp only [declare, h, if_false, List.map_cons, ih, List.mem_cons, h', false_or]
      split <;> rfl

private theorem Column.nodup_declare (column : Column) (columns : List Column)
    (h : (columns.map Column.name).Nodup) :
    ((column.declare columns).map Column.name).Nodup := by
  rw [names_declare]
  split
  · exact h
  · next hn =>
    rw [List.nodup_append]
    exact ⟨h, by simp, fun a ha b hb => by
      rw [List.mem_singleton.mp hb]
      exact fun e => hn (e ▸ ha)⟩

/-- A table and its columns at one point in time. -/
structure Snapshot where
  table : String
  columns : List Column
  distinct : (columns.map Column.name).Nodup
  deriving DecidableEq

namespace Snapshot

/-- The snapshot of a table without columns. -/
def empty (table : String) : Snapshot := ⟨table, [], .nil⟩

/-- Declares a column: a new name is appended, a known one gets the new definition. -/
def declare (snapshot : Snapshot) (column : Column) : Snapshot where
  table := snapshot.table
  columns := column.declare snapshot.columns
  distinct := column.nodup_declare snapshot.columns snapshot.distinct

/-- The snapshot that declares the columns one after the other. -/
def ofColumns (table : String) (columns : List Column) : Snapshot :=
  columns.foldl declare (empty table)

/-- The same columns under another table name. -/
def withTable (snapshot : Snapshot) (table : String) : Snapshot :=
  { snapshot with table }

/-- Declares the columns of another snapshot after the own ones. -/
def merge (snapshot other : Snapshot) : Snapshot :=
  ofColumns snapshot.table (snapshot.columns ++ other.columns)

/-- The column names in declaration order. -/
def names (snapshot : Snapshot) : List String := snapshot.columns.map Column.name

/-- The definition of the column with a given name. -/
def definition? (snapshot : Snapshot) (name : String) : Option String :=
  (snapshot.columns.find? fun column => column.name == name).map Column.definition

/-- The place of the column with a given name in declaration order. -/
def position? (snapshot : Snapshot) (name : String) : Option Nat :=
  snapshot.columns.findIdx? fun column => column.name == name

/-- The number of columns. -/
def size (snapshot : Snapshot) : Nat := snapshot.columns.length

/-- Whether there are no columns. -/
def isEmpty (snapshot : Snapshot) : Bool := snapshot.columns.isEmpty

theorem names_declare (snapshot : Snapshot) (column : Column) :
    (snapshot.declare column).names =
      if column.name ∈ snapshot.names then snapshot.names
      else snapshot.names ++ [column.name] :=
  column.names_declare snapshot.columns

end Snapshot

end TableDelta
