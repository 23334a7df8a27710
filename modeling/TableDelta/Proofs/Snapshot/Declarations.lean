import TableDelta.Proofs.Snapshot.Lookup
/-!
# Declaring columns

A snapshot tells two things of the columns that were declared for it: their names in the
order of their first declarations, and the definition that each name was given last. One
more declaration keeps it so, and hence any number of them. Its table apart, it is determined
by these two.
-/
namespace TableDelta

namespace Column

/-- The definition that was declared last for a name. -/
def latest (name : String) (declared : List Column) : Option String :=
  (declared.filter fun column => column.name == name).getLast?.map definition

private theorem latest_append_singleton (name : String) (declared : List Column) (column : Column) :
    latest name (declared ++ [column]) =
      if column.name = name then some column.definition else latest name declared := by
  by_cases h : column.name = name
  · simp [latest, h]
  · simp [latest, h]

theorem latest_append (name : String) (before after : List Column) :
    latest name (before ++ after) = (latest name after).or (latest name before) := by
  rw [latest, List.filter_append, List.getLast?_append, Option.map_or]
  rfl

private theorem declare_of_not_mem {column : Column} {columns : List Column}
    (h : column.name ∉ columns.map name) : column.declare columns = columns ++ [column] := by
  induction columns with
  | nil => rfl
  | cons first rest ih =>
    simp only [List.map_cons, List.mem_cons, not_or] at h
    rw [declare, if_neg (Ne.symm h.1), ih h.2, List.cons_append]

private theorem find?_declare (column : Column) (columns : List Column) (name : String) :
    (column.declare columns).find? (fun other => other.name == name) =
      if column.name = name then some column
      else columns.find? fun other => other.name == name := by
  induction columns with
  | nil =>
    by_cases h : column.name = name
    · simp [declare, h]
    · simp [declare, h]
  | cons first rest ih =>
    by_cases hfirst : first.name = column.name
    · rw [declare, if_pos hfirst]
      by_cases h : column.name = name
      · simp [h]
      · simp [h, hfirst]
    · rw [declare, if_neg hfirst, List.find?_cons, ih, List.find?_cons]
      by_cases h : column.name = name
      · have hne : (first.name == name) = false := by simp [← h, hfirst]
        simp [h, hne]
      · simp [h]

end Column

namespace Snapshot

variable {declared : List Column} {snapshot other : Snapshot}

private theorem eq_of_columns_eq (ht : snapshot.table = other.table)
    (hc : snapshot.columns = other.columns) : snapshot = other := by
  cases snapshot
  cases other
  cases ht
  cases hc
  rfl

/-- A snapshot is its table, its names in their order and what is found under them. -/
theorem eq_of_definition?_eq (ht : snapshot.table = other.table)
    (hn : snapshot.names = other.names)
    (hd : ∀ name, snapshot.definition? name = other.definition? name) : snapshot = other := by
  have hcolumn : snapshot.column? = other.column? := by
    funext name
    rw [column?_eq_map_definition?, hd, ← column?_eq_map_definition?]
  apply eq_of_columns_eq ht
  rw [← filterMap_column?_names, hn, hcolumn, filterMap_column?_names]

/-- What a snapshot tells of the columns that were declared for it, in their order. -/
structure Reflects (declared : List Column) (snapshot : Snapshot) : Prop where
  names : snapshot.names = (declared.map Column.name).eraseDups
  definitions : ∀ name, snapshot.definition? name = Column.latest name declared

theorem reflects_empty (table : String) : (empty table).Reflects [] where
  names := rfl
  definitions _ := rfl

theorem Reflects.mem_names (h : snapshot.Reflects declared) (name : String) :
    name ∈ snapshot.names ↔ name ∈ declared.map Column.name := by
  rw [h.names, List.mem_eraseDups]

theorem Reflects.declare (h : snapshot.Reflects declared) (column : Column) :
    (snapshot.declare column).Reflects (declared ++ [column]) where
  names := by
    rw [names_declare, List.map_append, List.map_singleton, Keyed.eraseDups_append_singleton,
      ← h.names]
    by_cases hm : column.name ∈ snapshot.names
    · rw [if_pos hm, if_pos ((h.mem_names _).mp hm)]
    · rw [if_neg hm, if_neg (fun hd => hm ((h.mem_names _).mpr hd))]
  definitions name := by
    rw [Column.latest_append_singleton, ← h.definitions, definition?, Snapshot.declare,
      Column.find?_declare]
    by_cases hn : column.name = name
    · rw [if_pos hn, if_pos hn]
      rfl
    · rw [if_neg hn, if_neg hn]
      rfl

theorem Reflects.foldl_declare (h : snapshot.Reflects declared) (columns : List Column) :
    (columns.foldl Snapshot.declare snapshot).Reflects (declared ++ columns) := by
  induction columns generalizing declared snapshot with
  | nil =>
    rw [List.append_nil]
    exact h
  | cons column columns ih =>
    have hnext := ih (h.declare column)
    rw [List.append_assoc] at hnext
    exact hnext

theorem reflects_ofColumns (table : String) (columns : List Column) :
    (ofColumns table columns).Reflects columns :=
  (reflects_empty table).foldl_declare columns

theorem table_foldl_declare (snapshot : Snapshot) (columns : List Column) :
    (columns.foldl declare snapshot).table = snapshot.table := by
  induction columns generalizing snapshot with
  | nil => rfl
  | cons column columns ih => exact ih (snapshot.declare column)

theorem table_ofColumns (table : String) (columns : List Column) :
    (ofColumns table columns).table = table := table_foldl_declare (empty table) columns

private theorem columns_foldl_declare (snapshot : Snapshot) {columns : List Column}
    (h : ((snapshot.columns ++ columns).map Column.name).Nodup) :
    (columns.foldl declare snapshot).columns = snapshot.columns ++ columns := by
  induction columns generalizing snapshot with
  | nil => rw [List.append_nil, List.foldl_nil]
  | cons column columns ih =>
    have hnew : column.name ∉ snapshot.columns.map Column.name := by
      rw [List.map_append, List.nodup_append] at h
      intro hm
      exact h.2.2 _ hm column.name List.mem_cons_self rfl
    have hdeclare : (snapshot.declare column).columns = snapshot.columns ++ [column] :=
      Column.declare_of_not_mem hnew
    rw [List.foldl_cons, ih (snapshot.declare column), hdeclare, List.append_assoc,
      List.singleton_append]
    rw [hdeclare, List.append_assoc]
    exact h

theorem ofColumns_columns (snapshot : Snapshot) :
    ofColumns snapshot.table snapshot.columns = snapshot := by
  apply eq_of_columns_eq
  · exact table_ofColumns snapshot.table snapshot.columns
  · exact columns_foldl_declare (empty snapshot.table) snapshot.distinct

theorem reflects_columns (snapshot : Snapshot) : snapshot.Reflects snapshot.columns := by
  have hreflects := reflects_ofColumns snapshot.table snapshot.columns
  rw [ofColumns_columns] at hreflects
  exact hreflects

theorem eraseDups_names (snapshot : Snapshot) : snapshot.names.eraseDups = snapshot.names :=
  snapshot.reflects_columns.names.symm

theorem latest_columns (snapshot : Snapshot) (name : String) :
    Column.latest name snapshot.columns = snapshot.definition? name :=
  (snapshot.reflects_columns.definitions name).symm

theorem merge_eq_foldl (snapshot other : Snapshot) :
    snapshot.merge other = other.columns.foldl declare snapshot := by
  rw [merge, ofColumns, List.foldl_append]
  exact congrArg (fun start => other.columns.foldl declare start) snapshot.ofColumns_columns

end Snapshot

end TableDelta
