import TableDelta.Report
/-!
# What a summary counts

The destructive changes among those that were counted. No number in the summary of some
changes is greater than the number of the changes.
-/
namespace TableDelta

private theorem Tally.getD_count?_le {tally : Tally} {n : Nat}
    (h : ∀ entry ∈ tally.entries, entry.2 ≤ n)
    (kind : ChangeKind) : (tally.count? kind).getD 0 ≤ n := by
  rw [count?]
  cases hf : tally.entries.find? fun entry => entry.1 == kind with
  | none => exact Nat.zero_le n
  | some entry => exact h entry (List.mem_of_find?_eq_some hf)

namespace Summary

private theorem total_foldl (summary : Summary) (changes : List Change) :
    (changes.foldl Summary.count summary).total = summary.total + changes.length := by
  induction changes generalizing summary with
  | nil => rfl
  | cons change changes ih =>
    rw [List.foldl_cons, ih, List.length_cons, Summary.count]
    exact Nat.succ_add_eq_add_succ _ _

theorem total_ofChanges (changes : List Change) : (ofChanges changes).total = changes.length := by
  rw [ofChanges, total_foldl]
  exact Nat.zero_add _

private theorem destructive_foldl (summary : Summary) (changes : List Change) :
    (changes.foldl Summary.count summary).destructive =
      summary.destructive + changes.countP Change.isDestructive := by
  induction changes generalizing summary with
  | nil => rfl
  | cons change changes ih =>
    rw [List.foldl_cons, ih, List.countP_cons, Summary.count]
    show (if change.isDestructive then _ else _) + _ = _
    split
    · omega
    · rfl

theorem destructive_ofChanges (changes : List Change) :
    (ofChanges changes).destructive = changes.countP Change.isDestructive := by
  rw [ofChanges, destructive_foldl]
  exact Nat.zero_add _

/-- No number in a summary is greater than a bound. -/
structure AtMost (n : Nat) (summary : Summary) : Prop where
  total : summary.total ≤ n
  destructive : summary.destructive ≤ n
  byKind : ∀ entry ∈ summary.byKind.entries, entry.2 ≤ n

theorem AtMost.count {n : Nat} {summary : Summary} (h : summary.AtMost n) (change : Change) :
    (summary.count change).AtMost (n + 1) where
  total := Nat.succ_le_succ h.total
  destructive := by
    have hdestructive := h.destructive
    rw [Summary.count]
    show (if change.isDestructive then _ else _) ≤ n + 1
    split
    · exact Nat.succ_le_succ hdestructive
    · exact Nat.le_succ_of_le hdestructive
  byKind := by
    intro entry hentry
    rcases Tally.mem_place hentry with rfl | hentry
    · exact Nat.succ_le_succ (Tally.getD_count?_le h.byKind change.kind)
    · exact Nat.le_succ_of_le (h.byKind entry hentry)

theorem AtMost.foldl {n : Nat} {summary : Summary} (h : summary.AtMost n) (changes : List Change) :
    (changes.foldl Summary.count summary).AtMost (n + changes.length) := by
  induction changes generalizing n summary with
  | nil => exact h
  | cons change changes ih =>
    have hnext := ih (h.count change)
    rw [List.foldl_cons, List.length_cons]
    rw [Nat.add_assoc, Nat.add_comm 1] at hnext
    exact hnext

theorem ofChanges_atMost (changes : List Change) :
    (ofChanges changes).AtMost changes.length := by
  have hempty : empty.AtMost 0 := by
    refine ⟨Nat.le_refl 0, Nat.le_refl 0, ?_⟩
    intro entry hentry
    exact absurd hentry List.not_mem_nil
  have hfold := hempty.foldl changes
  rw [Nat.zero_add] at hfold
  exact hfold

end Summary

end TableDelta
