import Mathlib.Algebra.BigOperators.Group.List.Basic
import Mathlib.Algebra.Ring.Nat
import Mathlib.Data.List.Count
import Mathlib.Data.List.Nodup
import TableDelta.Proofs.Change.Buckets
/-!
# Changes by kind

Every change is of exactly one kind, so changes can be counted kind by kind, and they are all
different as soon as those of each kind are. For most kinds a bucket tells both: it has one
entry for each change of its kind.
-/
namespace TableDelta

open ChangeSet

theorem sum_map_ite_eq_countP {α : Type} (p : α → Bool) (xs : List α) :
    (xs.map fun x => if p x then 1 else 0).sum = xs.countP p := by
  induction xs with
  | nil => rfl
  | cons x xs ih => rw [List.map_cons, List.sum_cons, ih, List.countP_cons, Nat.add_comm]

namespace ChangeKind

theorem count_all (kind : ChangeKind) : all.count kind = 1 := by
  cases kind <;> rfl

private theorem countP_filter_all (p : ChangeKind → Bool) (kind : ChangeKind) :
    ((all.filter p).countP fun other => kind == other) = if p kind then 1 else 0 := by
  have hcount : ((all.filter p).countP fun other => kind == other) = (all.filter p).count kind := by
    apply List.countP_congr
    intro other _
    rw [beq_iff_eq, beq_iff_eq, eq_comm]
  rw [hcount]
  by_cases hp : p kind = true
  · rw [List.count_filter hp, count_all, if_pos hp]
  · rw [if_neg hp, List.count_eq_zero]
    intro hm
    exact hp (List.mem_filter.mp hm).2

/-- The kinds whose changes name one column each. -/
def singleKinds : List ChangeKind :=
  [foreignKeyDropped, foreignKeyAdded, primaryKeyDropped, uniqueKeyDropped, indexKeyDropped,
    morphDropped]

end ChangeKind

theorem Change.length_columns {change : Change} (h : change.kind ∈ ChangeKind.singleKinds) :
    change.columns.length = 1 := by
  cases change <;> simp [kind, ChangeKind.singleKinds, columns] at h ⊢

theorem Change.length_renames {change : Change}
    (h : change.kind = .tableRenamed ∨ change.kind = .columnRenamed) :
    change.renames.length = 1 := by
  cases change <;> simp [kind, renames] at h ⊢

theorem Change.length_redefinitions {change : Change} (h : change.kind = .definitionChanged) :
    change.redefinitions.length = 1 := by
  cases change <;> simp [kind, redefinitions] at h ⊢

namespace ChangeSet

variable {α : Type} {payload : Change → List α} {kind : ChangeKind}

theorem countP_kind (p : ChangeKind → Bool) (changes : List Change) :
    changes.countP (fun change => p change.kind) =
      ((ChangeKind.all.filter p).map fun kind =>
        changes.countP fun change => change.kind == kind).sum := by
  induction changes with
  | nil => simp
  | cons change changes ih =>
    simp only [List.countP_cons, List.sum_map_add, ih, sum_map_ite_eq_countP,
      ChangeKind.countP_filter_all]

theorem hasDestructive_eq_decide (set : ChangeSet) :
    set.hasDestructive = decide (0 < set.changes.countP Change.isDestructive) := by
  rw [Bool.eq_iff_iff, decide_eq_true_iff, List.countP_pos_iff, hasDestructive, List.any_eq_true]

theorem length_gather (h : ∀ change : Change, change.kind = kind → (payload change).length = 1)
    (changes : List Change) :
    (gather payload kind changes).length = changes.countP fun change => change.kind == kind := by
  have hone : ∀ change ∈ changes.filter (fun change => change.kind == kind),
      (payload change).length = 1 := by
    intro change hm
    exact h change (beq_iff_eq.mp (List.mem_filter.mp hm).2)
  rw [gather, List.length_flatMap, List.map_congr_left hone, List.map_const',
    List.sum_replicate_nat, Nat.mul_one, List.countP_eq_length_filter]

theorem length_gather_columns (h : kind ∈ ChangeKind.singleKinds) (changes : List Change) :
    (gather Change.columns kind changes).length =
      changes.countP fun change => change.kind == kind := by
  apply length_gather
  rintro change rfl
  exact Change.length_columns h

private theorem map_gather_columns {single : String → Change}
    (h : ∀ change : Change, change.kind = kind → change.columns.map single = [change])
    (changes : List Change) :
    (gather Change.columns kind changes).map single =
      changes.filter fun change => change.kind == kind := by
  have hself : ∀ change ∈ changes.filter (fun change => change.kind == kind),
      change.columns.map single = [change] := by
    intro change hm
    exact h change (beq_iff_eq.mp (List.mem_filter.mp hm).2)
  rw [gather, List.map_flatMap, List.flatMap_congr hself, List.flatMap_singleton']

theorem count_gather_columns {single : String → Change} (hinj : Function.Injective single)
    (hkind : ∀ name, (single name).kind = kind)
    (h : ∀ change : Change, change.kind = kind → change.columns.map single = [change])
    (changes : List Change) (name : String) :
    (gather Change.columns kind changes).count name = changes.count (single name) := by
  have hfilter : (changes.filter fun change => change.kind == kind).count (single name) =
      changes.count (single name) := List.count_filter (beq_iff_eq.mpr (hkind name))
  rw [← hfilter, ← map_gather_columns h, List.count_map_of_injective _ _ hinj]

theorem gather_self (changes : List Change) :
    gather (fun change => [change]) kind changes =
      changes.filter fun change => change.kind == kind := List.flatMap_singleton' _

/-- A change that carries something cannot be repeated if nothing carried is. -/
theorem nodup_filter_of_gather {changes : List Change} (h : (gather payload kind changes).Nodup)
    (hp : ∀ change ∈ changes, change.kind = kind → payload change ≠ []) :
    (changes.filter fun change => change.kind == kind).Nodup := by
  obtain ⟨-, hdisjoint⟩ := List.nodup_flatMap.mp h
  refine hdisjoint.imp_of_mem ?_
  intro change other hm _ hd he
  obtain ⟨hchange, hkind⟩ := List.mem_filter.mp hm
  obtain ⟨x, hx⟩ := List.exists_mem_of_ne_nil _ (hp change hchange (beq_iff_eq.mp hkind))
  exact hd hx (he ▸ hx)

theorem nodup_filter_of_gather_columns (h : kind ∈ ChangeKind.singleKinds) {changes : List Change}
    (hn : (gather Change.columns kind changes).Nodup) :
    (changes.filter fun change => change.kind == kind).Nodup := by
  refine nodup_filter_of_gather hn fun change _ hk => ?_
  subst hk
  exact List.ne_nil_of_length_eq_add_one (Change.length_columns h)

theorem nodup_of_nodup_filter {changes : List Change}
    (h : ∀ kind, (changes.filter fun change => change.kind == kind).Nodup) : changes.Nodup := by
  rw [List.nodup_iff_count_le_one]
  intro change
  have hfilter : (changes.filter fun other => other.kind == change.kind).count change =
      changes.count change := List.count_filter (beq_self_eq_true change.kind)
  rw [← hfilter]
  exact List.nodup_iff_count_le_one.mp (h change.kind) change

end ChangeSet

end TableDelta
