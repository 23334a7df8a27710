import TableDelta.Proofs.Diff.Passes
import TableDelta.Proofs.Snapshot.Lookup
/-!
# Compared columns

Which columns are compared with each other depends on the sizes of the snapshots: columns
at one place if the sizes agree, else columns of one name. `changes_eq_append` shows that
the two ways lead to one form of report: what is said about the table and about names comes
first, then one block for each two compared columns, in the order of the previous ones.
-/
namespace TableDelta

open ChangeSet

namespace Snapshot

/-- Whether two columns are compared with each other. -/
def Compares (previous current : Snapshot) (p c : Column) : Prop :=
  if previous.size = current.size then
    ∃ i : Nat, previous.columns[i]? = some p ∧ current.columns[i]? = some c
  else p ∈ previous.columns ∧ c ∈ current.columns ∧ p.name = c.name

/-- The compared columns, in the order of the previous ones. -/
def comparedPairs (previous current : Snapshot) : List (Column × Column) :=
  if previous.size = current.size then previous.columns.zip current.columns
  else previous.columns.filterMap fun p => (current.column? p.name).map fun c => (p, c)

variable {previous current : Snapshot} {p c : Column}

theorem mem_comparedPairs : (p, c) ∈ comparedPairs previous current ↔
    Compares previous current p c := by
  unfold comparedPairs Compares
  split
  · rw [List.mem_iff_getElem?]
    simp only [List.getElem?_zip_eq_some]
  · simp only [List.mem_filterMap, Option.map_eq_some_iff, column?_eq_some_iff, Prod.mk.injEq]
    constructor
    · rintro ⟨p, hp, c, ⟨hc, hname⟩, rfl, rfl⟩
      exact ⟨hp, hc, hname.symm⟩
    · rintro ⟨hp, hc, hname⟩
      exact ⟨p, hp, c, ⟨hc, hname.symm⟩, rfl, rfl⟩

theorem map_fst_comparedPairs_sublist (previous current : Snapshot) :
    ((comparedPairs previous current).map Prod.fst).Sublist previous.columns := by
  unfold comparedPairs
  split
  · next h => rw [List.map_fst_zip (Nat.le_of_eq h)]
  · rw [List.map_filterMap]
    -- a column without a namesake is left out, the others stay as they are
    generalize previous.columns = columns
    induction columns with
    | nil => exact .slnil
    | cons p rest ih =>
      rw [List.filterMap_cons]
      cases current.column? p.name with
      | none => exact ih.cons p
      | some c => exact ih.cons_cons p

theorem nodup_comparedPairs (previous current : Snapshot) :
    (comparedPairs previous current).Nodup :=
  List.Nodup.of_map Prod.fst
    ((map_fst_comparedPairs_sublist previous current).nodup previous.nodup_columns)

theorem mem_of_mem_comparedPairs (h : (p, c) ∈ comparedPairs previous current) :
    p ∈ previous.columns ∧ c ∈ current.columns := by
  have hcompares := mem_comparedPairs.mp h
  unfold Compares at hcompares
  split at hcompares
  · obtain ⟨i, hp, hc⟩ := hcompares
    exact ⟨List.mem_of_getElem? hp, List.mem_of_getElem? hc⟩
  · exact ⟨hcompares.1, hcompares.2.1⟩

end Snapshot

/-- The kinds of change that are reported about names. -/
def ChangeKind.nameKinds : List ChangeKind :=
  [columnRenamed, columnsDropped, morphDropped, columnsAdded, foreignKeyAdded]

namespace Grammar

open Snapshot

variable {α : Type} {payload : Change → List α} {kind : ChangeKind}

/-- What is reported about names: renames at one place, else the drops or the additions. -/
def nameChanges (grammar : Grammar) (previous current : Snapshot) : List Change :=
  if previous.size = current.size then
    (pairs previous current).flatMap fun pair => renameChanges pair.1 pair.2
  else if current.size < previous.size then grammar.dropChanges previous current
  else grammar.addChanges previous current

/-- What is reported about two compared columns. -/
def pairChanges (grammar : Grammar) (current : Snapshot) (pair : Column × Column) : List Change :=
  grammar.columnChanges (current.names.idxOf pair.2.name) pair.1 pair.2

theorem sharedChanges_of_column?_eq_none {grammar : Grammar} {current : Snapshot} {p : Column}
    (h : current.column? p.name = none) : grammar.sharedChanges current p = [] := by
  rw [sharedChanges, definition?_of_column?_eq_none h]
  cases current.position? p.name <;> rfl

/-- The searches for the place and for the definition of a name find the same column. -/
theorem sharedChanges_of_column? {grammar : Grammar} {current : Snapshot} {p c : Column}
    (h : current.column? p.name = some c) :
    grammar.sharedChanges current p = grammar.pairChanges current (p, c) := by
  obtain ⟨hc, hname⟩ := column?_eq_some_iff.mp h
  have hposition : current.position? p.name = some (current.names.idxOf c.name) := by
    rw [← hname, position?_name hc]
  have hcolumn : (⟨p.name, c.definition⟩ : Column) = c := by rw [← hname]
  simp only [sharedChanges, definition?_of_column? h, hposition, hcolumn, pairChanges]

theorem flatMap_sharedChanges (grammar : Grammar) (current : Snapshot) (columns : List Column) :
    columns.flatMap (grammar.sharedChanges current) =
      (columns.filterMap fun p => (current.column? p.name).map fun c => (p, c)).flatMap
        (grammar.pairChanges current) := by
  induction columns with
  | nil => rfl
  | cons p rest ih =>
    rw [List.flatMap_cons, ih, List.filterMap_cons]
    cases hcolumn : current.column? p.name with
    | none => rw [sharedChanges_of_column?_eq_none hcolumn, List.nil_append, Option.map_none]
    | some c => rw [sharedChanges_of_column? hcolumn, Option.map_some, List.flatMap_cons]

/-- The place that the comparison by position counts is where the current column stands. -/
theorem flatMap_zipIdx_pairs (grammar : Grammar) (previous current : Snapshot) :
    ((pairs previous current).zipIdx.flatMap fun place =>
        grammar.columnChanges place.2 place.1.1 place.1.2) =
      (pairs previous current).flatMap (grammar.pairChanges current) := by
  have hplaces : (pairs previous current).flatMap (grammar.pairChanges current) =
      (pairs previous current).zipIdx.flatMap fun place =>
        grammar.pairChanges current place.1 := by
    rw [← List.flatMap_map Prod.fst, List.zipIdx_map_fst]
  rw [hplaces]
  apply List.flatMap_congr
  rintro ⟨⟨p, c⟩, i⟩ hplace
  obtain ⟨-, hc⟩ := mem_zipIdx_pairs.mp hplace
  rw [pairChanges, idxOf_name hc]

/-- Every comparison reports on the table, then on names, then on the compared columns. -/
theorem changes_eq_append (grammar : Grammar) (previous current : Snapshot) :
    grammar.changes previous current =
      tableChanges previous current ++ (grammar.nameChanges previous current ++
        (comparedPairs previous current).flatMap (grammar.pairChanges current)) := by
  have hplaces := flatMap_zipIdx_pairs grammar previous current
  unfold changes nameChanges comparedPairs
  split
  · exact congrArg (fun columns => _ ++ (_ ++ columns)) hplaces
  · rw [changesByName, flatMap_sharedChanges]

/-! ## Buckets -/

theorem gather_changes (grammar : Grammar) (previous current : Snapshot) :
    gather payload kind (grammar.changes previous current) =
      gather payload kind (tableChanges previous current) ++
        (gather payload kind (grammar.nameChanges previous current) ++
          (comparedPairs previous current).flatMap fun pair =>
            gather payload kind (grammar.pairChanges current pair)) := by
  rw [changes_eq_append, gather_append, gather_append, gather_flatMap]

theorem gather_nameChanges_of_ne (grammar : Grammar) (previous current : Snapshot)
    (hk : kind ≠ .columnRenamed) :
    gather payload kind (grammar.nameChanges previous current) =
      (if current.size < previous.size then
          gather payload kind (grammar.dropChanges previous current) else []) ++
        if previous.size < current.size then
          gather payload kind (grammar.addChanges previous current) else [] := by
  unfold nameChanges
  rcases Nat.lt_trichotomy previous.size current.size with h | h | h
  · rw [if_neg (Nat.ne_of_lt h), if_neg (Nat.lt_asymm h), if_neg (Nat.lt_asymm h), if_pos h]
    rfl
  · have hnil : gather payload kind
        ((pairs previous current).flatMap fun pair => renameChanges pair.1 pair.2) = [] := by
      rw [gather_flatMap, List.flatMap_eq_nil_iff]
      intro pair _
      exact gather_renameChanges_of_ne hk
    rw [if_pos h, if_neg (Nat.not_lt_of_ge (Nat.le_of_eq h)),
      if_neg (Nat.not_lt_of_ge (Nat.le_of_eq h.symm)), hnil]
    rfl
  · rw [if_neg (Nat.ne_of_gt h), if_pos h, if_pos h, if_neg (Nat.lt_asymm h), List.append_nil]

theorem gather_nameChanges_of_not_mem {grammar : Grammar} {previous current : Snapshot}
    (hk : kind ∉ ChangeKind.nameKinds) :
    gather payload kind (grammar.nameChanges previous current) = [] := by
  simp only [ChangeKind.nameKinds, List.mem_cons, List.not_mem_nil, or_false, not_or] at hk
  obtain ⟨hrenamed, hdropped, hmorph, hadded, hforeign⟩ := hk
  have hdrops : gather payload kind (grammar.dropChanges previous current) = [] :=
    gather_dropChanges_of_not_mem (by simp [hdropped, hmorph])
  have hadds : gather payload kind (grammar.addChanges previous current) = [] :=
    gather_addChanges_of_not_mem (by simp [hadded, hforeign])
  rw [gather_nameChanges_of_ne _ _ _ hrenamed, hdrops, hadds, ite_self, ite_self, List.append_nil]

theorem gather_pairChanges_of_not_mem {grammar : Grammar} {previous current : Snapshot}
    (hk : kind ∉ ChangeKind.columnKinds) :
    ((comparedPairs previous current).flatMap fun pair =>
      gather payload kind (grammar.pairChanges current pair)) = [] := by
  rw [List.flatMap_eq_nil_iff]
  intro pair _
  exact gather_columnChanges_of_not_mem hk

/-- The buckets of what is reported about names hold nothing else. -/
theorem gather_changes_of_not_mem {grammar : Grammar} {previous current : Snapshot}
    (ht : kind ≠ .tableRenamed) (hk : kind ∉ ChangeKind.columnKinds) :
    gather payload kind (grammar.changes previous current) =
      gather payload kind (grammar.nameChanges previous current) := by
  rw [gather_changes, gather_tableChanges_of_ne ht, gather_pairChanges_of_not_mem hk,
    List.nil_append, List.append_nil]

theorem gather_changes_of_not_mem_nameKinds {grammar : Grammar} {previous current : Snapshot}
    (ht : kind ≠ .tableRenamed) (hk : kind ∉ ChangeKind.nameKinds) :
    gather payload kind (grammar.changes previous current) =
      (comparedPairs previous current).flatMap fun pair =>
        gather payload kind (grammar.pairChanges current pair) := by
  rw [gather_changes, gather_tableChanges_of_ne ht, gather_nameChanges_of_not_mem hk,
    List.nil_append, List.nil_append]

end Grammar

theorem Diff.changes_compare (grammar : Grammar) (previous current : Snapshot) :
    (compare grammar previous current).changes.changes = grammar.changes previous current := by
  simp only [compare, ofChanges_eq_gathered, gathered]

end TableDelta
