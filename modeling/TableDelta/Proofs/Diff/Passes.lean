import TableDelta.Diff
import TableDelta.Proofs.Change.Buckets
/-!
# The passes of a comparison

Each pass of a comparison reports changes of a few kinds only, and reports nothing
exactly when what it looks at agrees. The statements here say this pass by pass, so
that the buckets of a whole comparison follow without opening the passes again.
-/
namespace TableDelta

open ChangeSet

theorem flatMap_unless {α β : Type} (xs : List α) (p : α → Prop) [DecidablePred p]
    (f : α → β) :
    (xs.flatMap fun x => if p x then [] else [f x]) = (xs.filter fun x => !decide (p x)).map f := by
  induction xs with
  | nil => rfl
  | cons x xs ih =>
    by_cases h : p x
    · simp [h, ih]
    · simp [h, ih]

theorem flatMap_when {α β : Type} (xs : List α) (p : α → Prop) [DecidablePred p] (f : α → β) :
    (xs.flatMap fun x => if p x then [f x] else []) = (xs.filter fun x => decide (p x)).map f := by
  have hunless := flatMap_unless xs (fun x => ¬ p x) f
  simpa using hunless

/-- The kinds of change that the comparison of two definitions can report. -/
def ChangeKind.columnKinds : List ChangeKind :=
  [definitionChanged, foreignKeyDropped, primaryKeyDropped, uniqueKeyDropped, indexKeyDropped,
    foreignKeyAdded]

private theorem Redefinition.kind_of_mem_keyChanges {r : Redefinition} {change : Change}
    (h : change ∈ r.keyChanges) :
    change.kind ∈ ChangeKind.columnKinds ∧ change.kind ≠ .definitionChanged := by
  simp only [keyChanges, List.mem_append] at h
  rcases h with (((h | h) | h) | h) | h <;>
  · split at h
    · rw [List.mem_singleton.mp h]
      simp [Change.kind, ChangeKind.columnKinds]
    · simp at h

namespace Grammar

variable {α : Type} {payload : Change → List α} {kind : ChangeKind}

/-! ## One column -/

/-- The redefinition of a column under its two parses. -/
def redefinition (grammar : Grammar) (index : Nat) (previous current : Column) : Redefinition where
  index := index
  previousColumn := previous.name
  column := current.name
  previous := grammar.parse previous.definition
  current := grammar.parse current.definition

theorem columnChanges_of_eq {grammar : Grammar} {previous current : Column} (index : Nat)
    (h : grammar.parse previous.definition = grammar.parse current.definition) :
    grammar.columnChanges index previous current = [] := if_pos h

theorem columnChanges_of_ne {grammar : Grammar} {previous current : Column} (index : Nat)
    (h : grammar.parse previous.definition ≠ grammar.parse current.definition) :
    grammar.columnChanges index previous current =
      .definitionChanged (grammar.redefinition index previous current) ::
        (grammar.redefinition index previous current).keyChanges := if_neg h

theorem columnChanges_eq_nil_iff (grammar : Grammar) (index : Nat) (previous current : Column) :
    grammar.columnChanges index previous current = [] ↔
      grammar.parse previous.definition = grammar.parse current.definition := by
  refine ⟨fun h => ?_, columnChanges_of_eq index⟩
  by_cases he : grammar.parse previous.definition = grammar.parse current.definition
  · exact he
  · rw [columnChanges_of_ne index he] at h
    exact absurd h (List.cons_ne_nil _ _)

theorem gather_columnChanges (grammar : Grammar) (index : Nat) (previous current : Column) :
    gather Change.redefinitions .definitionChanged (grammar.columnChanges index previous current) =
      if grammar.parse previous.definition = grammar.parse current.definition then []
      else [grammar.redefinition index previous current] := by
  by_cases he : grammar.parse previous.definition = grammar.parse current.definition
  · rw [columnChanges_of_eq index he, if_pos he, gather_nil]
  · rw [columnChanges_of_ne index he, if_neg he]
    exact gather_head rfl fun change h => (Redefinition.kind_of_mem_keyChanges h).2

theorem gather_columnChanges_of_not_mem {grammar : Grammar} {index : Nat}
    {previous current : Column} (hk : kind ∉ ChangeKind.columnKinds) :
    gather payload kind (grammar.columnChanges index previous current) = [] := by
  by_cases he : grammar.parse previous.definition = grammar.parse current.definition
  · rw [columnChanges_of_eq index he, gather_nil]
  · rw [columnChanges_of_ne index he]
    apply gather_eq_nil
    intro change h heq
    apply hk
    rw [← heq]
    rcases List.mem_cons.mp h with rfl | h
    · simp [Change.kind, ChangeKind.columnKinds]
    · exact (Redefinition.kind_of_mem_keyChanges h).1

theorem renameChanges_eq_nil_iff (previous current : Column) :
    renameChanges previous current = [] ↔ previous.name = current.name := by
  unfold renameChanges
  split <;> simp_all

theorem gather_renameChanges (previous current : Column) :
    gather Change.renames .columnRenamed (renameChanges previous current) =
      if previous.name = current.name then [] else [⟨previous.name, current.name⟩] := by
  unfold renameChanges
  split <;> rfl

theorem gather_renameChanges_of_ne {previous current : Column} (hk : kind ≠ .columnRenamed) :
    gather payload kind (renameChanges previous current) = [] := by
  unfold renameChanges
  split
  · exact gather_nil
  · apply gather_eq_nil
    intro change h
    rw [List.mem_singleton.mp h]
    exact hk.symm

/-! ## The table -/

theorem tableChanges_eq_nil_iff (previous current : Snapshot) :
    tableChanges previous current = [] ↔ previous.table = current.table := by
  unfold tableChanges
  split <;> simp_all

theorem gather_tableChanges (previous current : Snapshot) :
    gather Change.renames .tableRenamed (tableChanges previous current) =
      if previous.table = current.table then [] else [⟨previous.table, current.table⟩] := by
  unfold tableChanges
  split <;> rfl

theorem gather_tableChanges_of_ne {previous current : Snapshot} (hk : kind ≠ .tableRenamed) :
    gather payload kind (tableChanges previous current) = [] := by
  unfold tableChanges
  split
  · exact gather_nil
  · apply gather_eq_nil
    intro change h
    rw [List.mem_singleton.mp h]
    exact hk.symm

/-! ## Names that only one snapshot declares -/

theorem missingNames_eq_filter (snapshot other : Snapshot) :
    missingNames snapshot other = snapshot.names.filter fun name => name ∉ other.names := by
  simp [missingNames]

theorem mem_missingNames {snapshot other : Snapshot} {name : String} :
    name ∈ missingNames snapshot other ↔ name ∈ snapshot.names ∧ name ∉ other.names := by
  rw [missingNames_eq_filter, List.mem_filter, decide_eq_true_iff]

theorem missingNames_ne_nil {snapshot other : Snapshot} (h : other.size < snapshot.size) :
    missingNames snapshot other ≠ [] := by
  intro hnil
  have hsub : snapshot.names ⊆ other.names := by
    intro name hm
    apply Decidable.byContradiction
    intro hn
    have hmem := mem_missingNames.mpr ⟨hm, hn⟩
    rw [hnil] at hmem
    exact List.not_mem_nil hmem
  -- names are distinct, so the longer list is no part of the shorter one
  have hle := List.Nodup.length_le_of_subset snapshot.distinct hsub
  simp only [Snapshot.names, List.length_map] at hle
  exact Nat.not_le_of_lt h hle

/-- One change that lists some names, then one for each name that is to be kept. -/
def listing (list : List String → Change) (single : String → Change) (keep : String → Bool) :
    List String → List Change
  | [] => []
  | name :: names => list (name :: names) :: ((name :: names).filter keep).map single

theorem listing_of_ne_nil (list : List String → Change) (single : String → Change)
    (keep : String → Bool) {names : List String} (h : names ≠ []) :
    listing list single keep names = list names :: (names.filter keep).map single := by
  cases names with
  | nil => exact absurd rfl h
  | cons name names => rfl

theorem dropChanges_eq_listing (grammar : Grammar) (previous current : Snapshot) :
    grammar.dropChanges previous current =
      listing .columnsDropped .morphDropped (grammar.declares previous Definition.hasMorphs)
        (missingNames previous current) := by
  unfold dropChanges
  cases missingNames previous current <;> rfl

theorem addChanges_eq_listing (grammar : Grammar) (previous current : Snapshot) :
    grammar.addChanges previous current =
      listing .columnsAdded .foreignKeyAdded (grammar.declares current Definition.hasForeignKey)
        (missingNames current previous) := by
  unfold addChanges
  cases missingNames current previous <;> rfl

private theorem gather_listing_of_ne {list : List String → Change} {single : String → Change}
    (hl : ∀ names, (list names).kind ≠ kind) (hs : ∀ name, (single name).kind ≠ kind)
    (keep : String → Bool) (names : List String) :
    gather payload kind (listing list single keep names) = [] := by
  cases names with
  | nil => rfl
  | cons name names =>
    apply gather_eq_nil
    intro change hm
    rcases List.mem_cons.mp hm with rfl | hm
    · exact hl (name :: names)
    · obtain ⟨other, -, rfl⟩ := List.mem_map.mp hm
      exact hs other

theorem gather_dropChanges_of_not_mem {grammar : Grammar} {previous current : Snapshot}
    (hk : kind ∉ [ChangeKind.columnsDropped, ChangeKind.morphDropped]) :
    gather payload kind (grammar.dropChanges previous current) = [] := by
  simp only [List.mem_cons, List.not_mem_nil, or_false, not_or] at hk
  rw [dropChanges_eq_listing]
  exact gather_listing_of_ne (fun _ => Ne.symm hk.1) (fun _ => Ne.symm hk.2) _ _

theorem gather_addChanges_of_not_mem {grammar : Grammar} {previous current : Snapshot}
    (hk : kind ∉ [ChangeKind.columnsAdded, ChangeKind.foreignKeyAdded]) :
    gather payload kind (grammar.addChanges previous current) = [] := by
  simp only [List.mem_cons, List.not_mem_nil, or_false, not_or] at hk
  rw [addChanges_eq_listing]
  exact gather_listing_of_ne (fun _ => Ne.symm hk.1) (fun _ => Ne.symm hk.2) _ _

/-! ## Columns at one place -/

/-- The columns that stand at the same place. -/
def pairs (previous current : Snapshot) : List (Column × Column) :=
  previous.columns.zip current.columns

theorem mem_zipIdx_pairs {previous current : Snapshot} {p c : Column} {i : Nat} :
    ((p, c), i) ∈ (pairs previous current).zipIdx ↔
      previous.columns[i]? = some p ∧ current.columns[i]? = some c := by
  rw [List.mem_zipIdx_iff_getElem?]
  exact List.getElem?_zip_eq_some

end Grammar

end TableDelta
