import TableDelta.Proofs.Diff.NameChanges
/-!
# Reported names

When the numbers of columns differ, the names that the longer snapshot declares alone
are reported, and no others. So dropping and adding the reported names leads from the
previous names to the current ones exactly when the longer snapshot declares all names
of the shorter one; a name that only the shorter declares is lost without a report.
-/
namespace TableDelta

open ChangeSet

/-- Whether taking the drops from some names and putting in the adds gives other names. -/
def ChangeSet.LeadsTo (set : ChangeSet) (before after : List String) : Prop :=
  ∀ name, (name ∈ before ∧ name ∉ set.columnDrops) ∨ name ∈ set.columnAdds ↔ name ∈ after

namespace Diff

theorem columnDrops_compare (grammar : Grammar) (previous current : Snapshot) :
    (compare grammar previous current).changes.columnDrops =
      if current.size < previous.size then Grammar.missingNames previous current else [] := by
  simp only [compare, ofChanges_eq_gathered, gathered]
  rw [grammar.gather_columnsDropped, Grammar.names_surplus]

theorem columnAdds_compare (grammar : Grammar) (previous current : Snapshot) :
    (compare grammar previous current).changes.columnAdds =
      if previous.size < current.size then Grammar.missingNames current previous else [] := by
  simp only [compare, ofChanges_eq_gathered, gathered]
  rw [grammar.gather_columnsAdded, Grammar.names_surplus]

private theorem leadsTo_of_lt (grammar : Grammar) {previous current : Snapshot}
    (h : previous.size < current.size) :
    (compare grammar previous current).changes.LeadsTo previous.names current.names ↔
      ∀ name ∈ previous.names, name ∈ current.names := by
  rw [LeadsTo, columnDrops_compare, columnAdds_compare, if_neg (Nat.lt_asymm h), if_pos h]
  simp only [Grammar.mem_missingNames, List.not_mem_nil, not_false_eq_true, and_true]
  constructor
  · intro hall name hm
    exact (hall name).mp (Or.inl hm)
  · intro hsub name
    constructor
    · rintro (hm | hm)
      · exact hsub name hm
      · exact hm.1
    · intro hm
      by_cases hp : name ∈ previous.names
      · exact Or.inl hp
      · exact Or.inr ⟨hm, hp⟩

private theorem leadsTo_of_gt (grammar : Grammar) {previous current : Snapshot}
    (h : current.size < previous.size) :
    (compare grammar previous current).changes.LeadsTo previous.names current.names ↔
      ∀ name ∈ current.names, name ∈ previous.names := by
  rw [LeadsTo, columnDrops_compare, columnAdds_compare, if_pos h, if_neg (Nat.lt_asymm h)]
  simp only [Grammar.mem_missingNames, List.not_mem_nil, or_false]
  constructor
  · intro hall name hm
    exact ((hall name).mpr hm).1
  · intro hsub name
    constructor
    · rintro ⟨hp, hn⟩
      apply Decidable.byContradiction
      intro hc
      exact hn ⟨hp, hc⟩
    · intro hm
      exact ⟨hsub name hm, fun hmissing => hmissing.2 hm⟩

/-- A column replaced by another one beside a drop: the new name is not reported. -/
theorem not_leadsTo_of_replaced :
    ¬ ∀ (grammar : Grammar) (previous current : Snapshot), previous.size ≠ current.size →
      (compare grammar previous current).changes.LeadsTo previous.names current.names := by
  intro hall
  have hsize : (Snapshot.ofColumns "t" [⟨"c", "text"⟩]).size <
      (Snapshot.ofColumns "t" [⟨"a", "string"⟩, ⟨"b", "integer"⟩]).size := by decide
  have hleads := hall .pipe _ _ (Nat.ne_of_gt hsize)
  have hmem := (leadsTo_of_gt .pipe hsize).mp hleads "c" (by decide)
  exact absurd hmem (by decide)

/-- When the numbers of columns differ, the names that only the longer snapshot declares are
reported in its order, as drops or as adds, and nothing is reported on the other side. The
reported names lead to the current ones exactly when the longer snapshot declares all names
of the shorter one. -/
theorem reported_names (grammar : Grammar) (previous current : Snapshot) :
    let set := (compare grammar previous current).changes
    (current.size < previous.size →
      set.columnDrops = previous.names.filter (· ∉ current.names) ∧ set.columnAdds = [] ∧
      (set.LeadsTo previous.names current.names ↔
        ∀ name ∈ current.names, name ∈ previous.names)) ∧
    (previous.size < current.size →
      set.columnDrops = [] ∧ set.columnAdds = current.names.filter (· ∉ previous.names) ∧
      (set.LeadsTo previous.names current.names ↔
        ∀ name ∈ previous.names, name ∈ current.names)) := by
  intro set
  have hdrops := columnDrops_compare grammar previous current
  have hadds := columnAdds_compare grammar previous current
  rw [Grammar.missingNames_eq_filter] at hdrops hadds
  constructor
  · intro hgt
    rw [if_pos hgt] at hdrops
    rw [if_neg (Nat.lt_asymm hgt)] at hadds
    exact ⟨hdrops, hadds, leadsTo_of_gt grammar hgt⟩
  · intro hlt
    rw [if_neg (Nat.lt_asymm hlt)] at hdrops
    rw [if_pos hlt] at hadds
    exact ⟨hdrops, hadds, leadsTo_of_lt grammar hlt⟩

end Diff

end TableDelta
