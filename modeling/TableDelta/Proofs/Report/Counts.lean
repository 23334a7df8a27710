import Mathlib.Data.List.Sort
import TableDelta.Proofs.Change.Append
import TableDelta.Proofs.List.Keyed
import TableDelta.Proofs.Report.Summary
/-!
# Summaries and what they count

A summary counts changes one by one, in three places at once, and a change set counts its
changes by going through all of them. Both come to the same: the tally of a summary has one
entry for each kind that occurs, in the order of kinds and with the number of its changes,
and the other two numbers are sums over that tally. Summaries of two runs of changes add up.
-/
namespace TableDelta

private theorem sum_map_filter_pos {α : Type} (f : α → Nat) (xs : List α) :
    ((xs.filter fun x => 0 < f x).map f).sum = (xs.map f).sum := by
  induction xs with
  | nil => rfl
  | cons x xs ih =>
    by_cases hx : 0 < f x
    · simp [hx, ih]
    · simp [Nat.eq_zero_of_not_pos hx, ih]

private theorem ChangeKind.mem_all (kind : ChangeKind) : kind ∈ all := by
  cases kind <;> decide

private theorem ChangeKind.pairwise_all : all.Pairwise fun a b => Nat.blt a.rank b.rank = true := by
  decide

namespace Tally

/-- The count of a kind, which is zero without an entry. -/
def countOf (tally : Tally) (kind : ChangeKind) : Nat := (tally.count? kind).getD 0

/-- Whether a tally has one entry for each kind that occurs among some changes. -/
def Counts (tally : Tally) (changes : List Change) : Prop :=
  ∀ kind, tally.count? kind =
    if changes.countP (fun change => change.kind == kind) = 0 then none
    else some (changes.countP fun change => change.kind == kind)

private theorem find?_place (kind : ChangeKind) (count : Nat) (entries : List (ChangeKind × Nat))
    (other : ChangeKind) :
    (place kind count entries).find? (fun entry => entry.1 == other) =
      if kind = other then some (kind, count)
      else entries.find? fun entry => entry.1 == other := by
  induction entries with
  | nil =>
    by_cases h : kind = other
    · simp [place, h]
    · simp [place, h]
  | cons first rest ih =>
    unfold place
    split
    · by_cases h : kind = other
      · simp [h]
      · simp [h]
    · split
      · next heq =>
        by_cases h : kind = other
        · simp [h]
        · simp [h, ← heq]
      · next hne =>
        rw [List.find?_cons, ih, List.find?_cons]
        by_cases h : kind = other
        · have hskip : (first.1 == other) = false := by simp [← h, Ne.symm hne]
          simp [h, hskip]
        · simp [h]

theorem count?_set (tally : Tally) (kind : ChangeKind) (count : Nat) (other : ChangeKind) :
    (tally.set kind count).count? other =
      if kind = other then some count else tally.count? other := by
  rw [count?, set, find?_place]
  split
  · rfl
  · rfl

theorem mem_entries_iff {tally : Tally} {kind : ChangeKind} {count : Nat} :
    (kind, count) ∈ tally.entries ↔ tally.count? kind = some count := by
  have hkeys : (tally.entries.map Prod.fst).Nodup := by
    rw [List.Nodup, List.pairwise_map]
    refine tally.sorted.imp ?_
    intro a b hlt heq
    rw [heq, Nat.blt_eq] at hlt
    exact Nat.lt_irrefl _ hlt
  rw [count?, Option.map_eq_some_iff]
  constructor
  · intro hm
    exact ⟨(kind, count), Keyed.find?_key hkeys hm, rfl⟩
  · rintro ⟨entry, hfind, rfl⟩
    have hkind : entry.1 = kind := by simpa using List.find?_some hfind
    rw [← hkind]
    exact List.mem_of_find?_eq_some hfind

private theorem eq_of_mem_iff {xs ys : List (ChangeKind × Nat)}
    (hx : xs.Pairwise fun a b => Nat.blt a.1.rank b.1.rank = true)
    (hy : ys.Pairwise fun a b => Nat.blt a.1.rank b.1.rank = true)
    (h : ∀ entry, entry ∈ xs ↔ entry ∈ ys) : xs = ys := by
  have hirrefl : Std.Irrefl fun a b : ChangeKind × Nat => Nat.blt a.1.rank b.1.rank = true := by
    refine ⟨fun a hlt => ?_⟩
    rw [Nat.blt_eq] at hlt
    exact Nat.lt_irrefl _ hlt
  have hantisymm : Std.Antisymm fun a b : ChangeKind × Nat =>
      Nat.blt a.1.rank b.1.rank = true := by
    refine ⟨fun a b hlt hgt => ?_⟩
    rw [Nat.blt_eq] at hlt hgt
    exact absurd hgt (Nat.lt_asymm hlt)
  exact hx.eq_of_mem_iff hy h

namespace Counts

variable {tally : Tally} {changes : List Change}

theorem countOf_eq (h : tally.Counts changes) (kind : ChangeKind) :
    tally.countOf kind = changes.countP fun change => change.kind == kind := by
  rw [countOf, h kind]
  split
  · next hzero => exact hzero.symm
  · rfl

theorem increment (h : tally.Counts changes) (change : Change) :
    (tally.increment change.kind).Counts (changes ++ [change]) := by
  intro kind
  have hcount := h.countOf_eq change.kind
  rw [countOf] at hcount
  rw [Tally.increment, count?_set, List.countP_append, List.countP_singleton, hcount]
  by_cases hk : change.kind = kind
  · simp [hk]
  · simp [hk, h kind]

/-- What a tally counts determines its entries, since they stand in the order of kinds. -/
theorem entries_eq (h : tally.Counts changes) :
    tally.entries =
      (ChangeKind.all.filter fun kind =>
          0 < changes.countP fun change => change.kind == kind).map fun kind =>
        (kind, changes.countP fun change => change.kind == kind) := by
  apply eq_of_mem_iff tally.sorted
  · rw [List.pairwise_map]
    exact ChangeKind.pairwise_all.filter _
  · rintro ⟨kind, count⟩
    rw [mem_entries_iff, h kind]
    constructor
    · intro hcount
      split at hcount
      · exact absurd hcount (Option.some_ne_none count).symm
      · next hne =>
        have hpos := decide_eq_true (Nat.pos_of_ne_zero hne)
        rw [← Option.some.inj hcount]
        exact List.mem_map_of_mem (List.mem_filter.mpr ⟨kind.mem_all, hpos⟩)
    · intro hm
      obtain ⟨other, hother, he⟩ := List.mem_map.mp hm
      cases he
      exact if_neg (Nat.ne_of_gt (of_decide_eq_true (List.mem_filter.mp hother).2))

theorem sum_entries (h : tally.Counts changes) (p : ChangeKind → Bool) :
    ((tally.entries.filter fun entry => p entry.1).map Prod.snd).sum =
      changes.countP fun change => p change.kind := by
  rw [h.entries_eq, List.filter_map, List.map_map, List.filter_comm, ChangeSet.countP_kind]
  exact sum_map_filter_pos _ _

end Counts

end Tally

namespace Summary

/-- A summary that counts what two others count together. -/
structure IsSum (sum a b : Summary) : Prop where
  total : sum.total = a.total + b.total
  destructive : sum.destructive = a.destructive + b.destructive
  byKind : ∀ kind, sum.byKind.countOf kind = a.byKind.countOf kind + b.byKind.countOf kind

private theorem counts_foldl {summary : Summary} {before : List Change}
    (h : summary.byKind.Counts before) (changes : List Change) :
    (changes.foldl Summary.count summary).byKind.Counts (before ++ changes) := by
  induction changes generalizing summary before with
  | nil =>
    rw [List.append_nil]
    exact h
  | cons change changes ih =>
    have hnext : (summary.count change).byKind.Counts (before ++ [change]) := h.increment change
    have hrest := ih hnext
    rw [List.append_assoc] at hrest
    exact hrest

theorem counts_ofChanges (changes : List Change) : (ofChanges changes).byKind.Counts changes := by
  have hempty : Summary.empty.byKind.Counts [] := fun _ => rfl
  exact counts_foldl hempty changes

theorem isSum_ofChanges (before after : List Change) :
    (ofChanges (before ++ after)).IsSum (ofChanges before) (ofChanges after) where
  total := by rw [total_ofChanges, total_ofChanges, total_ofChanges, List.length_append]
  destructive := by
    rw [destructive_ofChanges, destructive_ofChanges, destructive_ofChanges, List.countP_append]
  byKind kind := by
    rw [(counts_ofChanges _).countOf_eq, (counts_ofChanges _).countOf_eq,
      (counts_ofChanges _).countOf_eq, List.countP_append]

end Summary

/-- The summary in the report on a change set counts what the set counts: its total is the
size of the set and the sum of its tally, its tally has the kinds that occur with the counts
of the set, and its destructive changes are those of the destructive kinds in the tally. What
the report says of there being changes, or destructive ones, is what the set says. Recording
more changes adds their summary, number by number. -/
theorem Report.summary_consistent (timestamp previousTable currentTable : String)
    (before after : List Change) :
    let set := ChangeSet.ofChanges before
    let report := ofChangeSet timestamp previousTable currentTable set
    let summary := report.summary
    summary.total = set.size ∧
    (summary.byKind.entries.map Prod.snd).sum = set.size ∧
    summary.byKind.entries =
      (ChangeKind.all.filter fun kind => 0 < set.count kind).map (fun kind =>
        (kind, set.count kind)) ∧
    summary.destructive =
      ((summary.byKind.entries.filter fun entry => entry.1.isDestructive).map Prod.snd).sum ∧
    (0 < summary.destructive ↔ set.hasDestructive = true) ∧
    report.hasChanged = set.hasChanged ∧
    (ofChangeSet timestamp previousTable currentTable (set.pushAll after)).summary.IsSum summary
      (ofChangeSet timestamp previousTable currentTable (.ofChanges after)).summary := by
  intro set report summary
  have hcounts : summary.byKind.Counts set.changes := Summary.counts_ofChanges set.changes
  have hdestructive : summary.destructive = set.changes.countP Change.isDestructive :=
    Summary.destructive_ofChanges set.changes
  have htotal : summary.total = set.size := Summary.total_ofChanges set.changes
  refine ⟨htotal, ?_, hcounts.entries_eq, ?_, ?_, ?_, ?_⟩
  · have hsum := hcounts.sum_entries fun _ => true
    rw [List.filter_true, List.countP_true] at hsum
    exact hsum
  · rw [hdestructive]
    exact (hcounts.sum_entries ChangeKind.isDestructive).symm
  · rw [hdestructive, ChangeSet.hasDestructive_eq_decide, decide_eq_true_iff]
  · have hempty := ChangeSet.hasChanged_ofChanges before
    rw [Bool.eq_iff_iff, Report.hasChanged, bne_iff_ne, htotal, ChangeSet.size_ofChanges, ne_eq,
      List.length_eq_zero_iff, ← hempty, Bool.not_eq_false]
  · show (Summary.ofChanges (set.pushAll after).changes).IsSum (.ofChanges set.changes)
      (.ofChanges (ChangeSet.ofChanges after).changes)
    rw [ChangeSet.changes_pushAll, ChangeSet.changes_ofChanges after]
    exact Summary.isSum_ofChanges set.changes after

end TableDelta
