import Mathlib.Data.List.Nodup
import TableDelta.Proofs.List.Keyed
import TableDelta.Snapshot
/-!
# Look-up in a snapshot

A name selects at most one column, so the searches for the column, for its definition and
for its place agree with each other: they all find the one column of that name.
-/
namespace TableDelta.Snapshot

/-- The column with a given name. -/
def column? (snapshot : Snapshot) (name : String) : Option Column :=
  snapshot.columns.find? fun column => column.name == name

variable {snapshot : Snapshot} {column : Column} {name : String}

theorem length_names (snapshot : Snapshot) : snapshot.names.length = snapshot.size :=
  List.length_map Column.name

theorem size_eq_of_names_eq {other : Snapshot} (h : snapshot.names = other.names) :
    snapshot.size = other.size := by
  rw [← length_names, h, length_names]

theorem nodup_columns (snapshot : Snapshot) : snapshot.columns.Nodup :=
  List.Nodup.of_map Column.name snapshot.distinct

theorem name_mem_names (h : column ∈ snapshot.columns) : column.name ∈ snapshot.names :=
  List.mem_map_of_mem h

theorem column?_name (h : column ∈ snapshot.columns) :
    snapshot.column? column.name = some column := Keyed.find?_key snapshot.distinct h

theorem column?_eq_some_iff :
    snapshot.column? name = some column ↔ column ∈ snapshot.columns ∧ column.name = name := by
  constructor
  · intro hfind
    exact ⟨List.mem_of_find?_eq_some hfind, by simpa using List.find?_some hfind⟩
  · rintro ⟨hm, rfl⟩
    exact column?_name hm

theorem definition?_of_column? (h : snapshot.column? name = some column) :
    snapshot.definition? name = some column.definition := congrArg (Option.map _) h

theorem definition?_of_column?_eq_none (h : snapshot.column? name = none) :
    snapshot.definition? name = none := congrArg (Option.map _) h

theorem column?_eq_map_definition? (snapshot : Snapshot) (name : String) :
    snapshot.column? name = (snapshot.definition? name).map (Column.mk name) := by
  cases h : snapshot.column? name with
  | none => rw [definition?_of_column?_eq_none h, Option.map_none]
  | some column =>
    obtain ⟨-, rfl⟩ := column?_eq_some_iff.mp h
    rw [definition?_of_column? h, Option.map_some]

theorem column?_of_definition? {definition : String}
    (h : snapshot.definition? name = some definition) :
    snapshot.column? name = some ⟨name, definition⟩ := by
  rw [column?_eq_map_definition?, h, Option.map_some]

theorem filterMap_column?_names (snapshot : Snapshot) :
    snapshot.names.filterMap snapshot.column? = snapshot.columns := by
  have hfound : ∀ column ∈ snapshot.columns,
      (snapshot.column? ∘ Column.name) column = some column := fun _ => column?_name
  rw [names, List.filterMap_map, List.filterMap_congr hfound, List.filterMap_some]

theorem idxOf_name {i : Nat} (h : snapshot.columns[i]? = some column) :
    snapshot.names.idxOf column.name = i := by
  have hname : snapshot.names[i]? = some column.name := by
    rw [names, List.getElem?_map, h]
    rfl
  obtain ⟨hi, heq⟩ := List.getElem?_eq_some_iff.mp hname
  rw [← heq]
  exact snapshot.distinct.idxOf_getElem i hi

theorem getElem?_idxOf_name (h : column ∈ snapshot.columns) :
    snapshot.columns[snapshot.names.idxOf column.name]? = some column := by
  obtain ⟨i, hi⟩ := List.mem_iff_getElem?.mp h
  rw [idxOf_name hi, hi]

theorem position?_name (h : column ∈ snapshot.columns) :
    snapshot.position? column.name = some (snapshot.names.idxOf column.name) := by
  have hexists : ∃ other, other ∈ snapshot.columns ∧ (other.name == column.name) = true :=
    ⟨column, h, beq_self_eq_true column.name⟩
  rw [position?, List.findIdx?_eq_some_of_exists hexists, names, List.idxOf, List.findIdx_map]
  rfl

theorem definition?_eq_some_iff {definition : String} :
    snapshot.definition? name = some definition ↔ ⟨name, definition⟩ ∈ snapshot.columns := by
  constructor
  · intro h
    obtain ⟨column, hfind, rfl⟩ := Option.map_eq_some_iff.mp h
    obtain ⟨hm, rfl⟩ := column?_eq_some_iff.mp hfind
    exact hm
  · intro h
    exact definition?_of_column? (column?_name h)

theorem position?_eq_idxOf? (snapshot : Snapshot) (name : String) :
    snapshot.position? name = snapshot.names.idxOf? name := by
  rw [names, List.idxOf?, List.findIdx?_map]
  rfl

theorem position?_eq_some_iff {i : Nat} :
    snapshot.position? name = some i ↔ snapshot.names[i]? = some name := by
  constructor
  · intro h
    obtain ⟨hi, hname, -⟩ := List.findIdx?_eq_some_iff_getElem.mp h
    rw [names, List.getElem?_map, List.getElem?_eq_getElem hi]
    exact congrArg some (beq_iff_eq.mp hname)
  · intro h
    rw [names, List.getElem?_map, Option.map_eq_some_iff] at h
    obtain ⟨column, hcolumn, rfl⟩ := h
    rw [position?_name (List.mem_of_getElem? hcolumn), idxOf_name hcolumn]

theorem isSome_position? (snapshot : Snapshot) (name : String) :
    (snapshot.position? name).isSome = (snapshot.definition? name).isSome := by
  rw [position?, List.findIdx?_isSome, definition?, Option.isSome_map, List.isSome_find?]

end TableDelta.Snapshot
