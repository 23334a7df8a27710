import TableDelta.Proofs.Diff.NameChanges
/-!
# When nothing has changed

A comparison reports nothing exactly when the table, the names and the parsed
definitions agree at every place. What could hide a difference is the comparison by
name, which reports only one side's missing names; but one of them is always there.
-/
namespace TableDelta

namespace Grammar

private theorem changesByPosition_eq_nil_iff (grammar : Grammar) (previous current : Snapshot) :
    grammar.changesByPosition previous current = [] ↔
      ∀ (i : Nat) (p c : Column), previous.columns[i]? = some p → current.columns[i]? = some c →
          p.name = c.name ∧ grammar.parse p.definition = grammar.parse c.definition := by
  simp only [changesByPosition, List.append_eq_nil_iff, List.flatMap_eq_nil_iff]
  constructor
  · rintro ⟨hr, hd⟩ i p c hp hc
    have hplace : ((p, c), i) ∈ (previous.columns.zip current.columns).zipIdx :=
      mem_zipIdx_pairs.mpr ⟨hp, hc⟩
    have hname : renameChanges p c = [] := hr (p, c) (List.fst_mem_of_mem_zipIdx hplace)
    have hparse : grammar.columnChanges i p c = [] := hd ((p, c), i) hplace
    exact ⟨(renameChanges_eq_nil_iff p c).mp hname,
      (columnChanges_eq_nil_iff grammar i p c).mp hparse⟩
  · intro h
    refine ⟨?_, ?_⟩
    · rintro ⟨p, c⟩ hpair
      obtain ⟨i, hi⟩ := List.mem_iff_getElem?.mp hpair
      obtain ⟨hp, hc⟩ := List.getElem?_zip_eq_some.mp hi
      exact (renameChanges_eq_nil_iff p c).mpr (h i p c hp hc).1
    · rintro ⟨⟨p, c⟩, i⟩ hplace
      obtain ⟨hp, hc⟩ := mem_zipIdx_pairs.mp hplace
      exact (columnChanges_eq_nil_iff grammar i p c).mpr (h i p c hp hc).2

private theorem exists_dropped_or_added (grammar : Grammar) {previous current : Snapshot}
    (h : previous.size ≠ current.size) :
    ∃ change ∈ grammar.changes previous current,
      change.kind = .columnsDropped ∨ change.kind = .columnsAdded := by
  rcases Nat.lt_or_gt_of_ne h with hlt | hgt
  · have hlisted := grammar.filter_columnsAdded previous current
    rw [if_pos hlt] at hlisted
    have hm := List.mem_of_mem_filter (hlisted ▸ List.mem_cons_self)
    exact ⟨_, hm, Or.inr rfl⟩
  · have hlisted := grammar.filter_columnsDropped previous current
    rw [if_pos hgt] at hlisted
    have hm := List.mem_of_mem_filter (hlisted ▸ List.mem_cons_self)
    exact ⟨_, hm, Or.inl rfl⟩

private theorem changes_eq_nil_iff (grammar : Grammar) (previous current : Snapshot) :
    grammar.changes previous current = [] ↔
      previous.table = current.table ∧ previous.size = current.size ∧
        grammar.changesByPosition previous current = [] := by
  by_cases h : previous.size = current.size
  · rw [changes, if_pos h, List.append_eq_nil_iff, tableChanges_eq_nil_iff]
    simp only [h, true_and]
  · obtain ⟨change, hm, -⟩ := exists_dropped_or_added grammar h
    constructor
    · intro hnil
      rw [hnil] at hm
      exact absurd hm List.not_mem_nil
    · intro hall
      exact absurd hall.2.1 h

end Grammar

/-- A diff has no change exactly when the tables have one name and equally many columns,
and the columns at each place have one name and one parse. Snapshots of different sizes
always yield a change that drops or adds columns. -/
theorem Diff.hasChanged_eq_false_iff (grammar : Grammar) (previous current : Snapshot) :
    ((compare grammar previous current).hasChanged = false ↔
      previous.table = current.table ∧ previous.size = current.size ∧
        ∀ (i : Nat) (p c : Column), previous.columns[i]? = some p → current.columns[i]? = some c →
            p.name = c.name ∧ grammar.parse p.definition = grammar.parse c.definition) ∧
    (previous.size ≠ current.size →
      ∃ change ∈ (compare grammar previous current).changes.changes,
        change.kind = .columnsDropped ∨ change.kind = .columnsAdded) := by
  constructor
  · rw [← grammar.changesByPosition_eq_nil_iff, ← grammar.changes_eq_nil_iff]
    exact ChangeSet.hasChanged_ofChanges _
  · intro h
    simp only [compare, ChangeSet.ofChanges_eq_gathered]
    exact grammar.exists_dropped_or_added h

end TableDelta
