import Mathlib.Data.List.Chain
import TableDelta.Proofs.Diff.Growth
/-!
# Foreign keys over a history

A table that grows step by step is compared at every step, and all changes are collected in
one set. What the set says about the foreign key of a column telescopes: every step adds it,
drops it or leaves it, so additions and drops alternate and their balance is what the last
snapshot has over the first.
-/
namespace TableDelta

open ChangeSet Snapshot

/-- Collects the changes of some diffs in one set. -/
def ChangeSet.ofDiffs (diffs : List Diff) : ChangeSet :=
  diffs.foldl (fun set diff => set.pushAll diff.changes.changes) .empty

theorem ChangeSet.ofDiffs_eq_gathered (diffs : List Diff) :
    ofDiffs diffs = gathered (diffs.flatMap fun diff => diff.changes.changes) := by
  rw [← ofChanges_eq_gathered]
  exact List.foldl_flatMap.symm

/-- The change that leads to having or to lacking the foreign key of a column. -/
def Change.foreignKeyTo (name : String) (has : Bool) : Change :=
  if has then .foreignKeyAdded name else .foreignKeyDropped name

private theorem Change.foreignKeyTo_ne {name : String} {a b : Bool} (h : a ≠ b) :
    foreignKeyTo name a ≠ foreignKeyTo name b := by
  cases a <;> cases b <;> simp [foreignKeyTo] at h ⊢

/-- The changes to the foreign key of a column. -/
def ChangeSet.foreignKeyChanges (name : String) (changes : List Change) : List Change :=
  changes.filter fun change => change = .foreignKeyAdded name ∨ change = .foreignKeyDropped name

private theorem filter_eq_of_nodup {α : Type} [DecidableEq α] {p : α → Bool} {xs : List α} {x : α}
    (hn : xs.Nodup) (h : ∀ y ∈ xs, p y = true ↔ y = x) :
    xs.filter p = if x ∈ xs then [x] else [] := by
  have hone : xs.filter p = xs.filter (· == x) := by
    apply List.filter_congr
    intro y hy
    rw [Bool.eq_iff_iff, h y hy, beq_iff_eq]
  rw [hone, List.filter_beq, hn.count]
  split
  · rfl
  · rfl

namespace Grammar

variable {previous current : Snapshot} {name : String}

/-! ## One step -/

private theorem count_foreignKeyAdded (changes : List Change) (name : String) :
    (gather Change.columns .foreignKeyAdded changes).count name =
      changes.count (.foreignKeyAdded name) := by
  apply count_gather_columns
  · intro a b he
    exact Change.foreignKeyAdded.inj he
  · exact fun name => rfl
  · intro change hk
    cases change <;> first | rfl | exact absurd hk ChangeKind.noConfusion

private theorem count_foreignKeyDropped (changes : List Change) (name : String) :
    (gather Change.columns .foreignKeyDropped changes).count name =
      changes.count (.foreignKeyDropped name) := by
  apply count_gather_columns
  · intro a b he
    exact Change.foreignKeyDropped.inj he
  · exact fun name => rfl
  · intro change hk
    cases change <;> first | rfl | exact absurd hk ChangeKind.noConfusion

private theorem foreignKeyAdded_mem_changes (grammar : Grammar) (h : previous.GrowsInto current)
    (name : String) :
    .foreignKeyAdded name ∈ grammar.changes previous current ↔
      ¬ grammar.HasForeignKey previous name ∧ grammar.HasForeignKey current name := by
  rw [← grammar.mem_foreignKeyAdded h, ← List.count_pos_iff, ← List.count_pos_iff,
    count_foreignKeyAdded]

private theorem foreignKeyDropped_mem_changes (grammar : Grammar) (h : previous.GrowsInto current)
    (name : String) :
    .foreignKeyDropped name ∈ grammar.changes previous current ↔
      grammar.HasForeignKey previous name ∧ ¬ grammar.HasForeignKey current name := by
  rw [← grammar.mem_foreignKeyDropped h, ← List.count_pos_iff, ← List.count_pos_iff,
    count_foreignKeyDropped]

private theorem foreignKeyChanges_changes (grammar : Grammar) (h : previous.GrowsInto current)
    (name : String) :
    foreignKeyChanges name (grammar.changes previous current) =
      if grammar.HasForeignKey previous name ↔ grammar.HasForeignKey current name then []
      else [.foreignKeyTo name (decide (grammar.HasForeignKey current name))] := by
  have hadded := grammar.foreignKeyAdded_mem_changes h name
  have hdropped := grammar.foreignKeyDropped_mem_changes h name
  have hnodup := grammar.nodup_changes previous current
  by_cases hcurrent : grammar.HasForeignKey current name
  · have hone : ∀ change ∈ grammar.changes previous current,
        decide (change = .foreignKeyAdded name ∨ change = .foreignKeyDropped name) = true ↔
          change = .foreignKeyAdded name := by
      intro change hm
      have hne : change ≠ .foreignKeyDropped name := fun he => (hdropped.mp (he ▸ hm)).2 hcurrent
      simp [hne]
    rw [foreignKeyChanges, filter_eq_of_nodup hnodup hone]
    by_cases hprevious : grammar.HasForeignKey previous name
    · simp [hadded, hprevious, hcurrent]
    · simp [hadded, hprevious, hcurrent, Change.foreignKeyTo]
  · have hone : ∀ change ∈ grammar.changes previous current,
        decide (change = .foreignKeyAdded name ∨ change = .foreignKeyDropped name) = true ↔
          change = .foreignKeyDropped name := by
      intro change hm
      have hne : change ≠ .foreignKeyAdded name := fun he => hcurrent (hadded.mp (he ▸ hm)).2
      simp [hne]
    rw [foreignKeyChanges, filter_eq_of_nodup hnodup hone]
    by_cases hprevious : grammar.HasForeignKey previous name
    · simp [hdropped, hprevious, hcurrent, Change.foreignKeyTo]
    · simp [hdropped, hprevious, hcurrent]

/-- A step adds to the balance of additions over drops what the column gains. -/
theorem balance_changes (grammar : Grammar) (h : previous.GrowsInto current) (name : String) :
    ((grammar.changes previous current).count (.foreignKeyAdded name) : Int) -
        (grammar.changes previous current).count (.foreignKeyDropped name) =
      (if grammar.HasForeignKey current name then 1 else 0) -
        if grammar.HasForeignKey previous name then 1 else 0 := by
  have hnodup := grammar.nodup_changes previous current
  have hadded := grammar.foreignKeyAdded_mem_changes h name
  have hdropped := grammar.foreignKeyDropped_mem_changes h name
  rw [hnodup.count, hnodup.count]
  by_cases hprevious : grammar.HasForeignKey previous name
  · by_cases hcurrent : grammar.HasForeignKey current name
    · simp [hadded, hdropped, hprevious, hcurrent]
    · simp [hadded, hdropped, hprevious, hcurrent]
  · by_cases hcurrent : grammar.HasForeignKey current name
    · simp [hadded, hdropped, hprevious, hcurrent]
    · simp [hadded, hdropped, hprevious, hcurrent]

/-! ## A whole history -/

/-- All changes along a history in which every step declares some columns. -/
def historyChanges (grammar : Grammar) (start : Snapshot) (steps : List (List Column)) :
    List Change :=
  (Diff.ofHistory grammar (steps.scanl declareAll start)).flatMap fun diff => diff.changes.changes

private theorem historyChanges_nil (grammar : Grammar) (start : Snapshot) :
    grammar.historyChanges start [] = [] := rfl

private theorem historyChanges_cons (grammar : Grammar) (start : Snapshot) (columns : List Column)
    (steps : List (List Column)) :
    grammar.historyChanges start (columns :: steps) =
      grammar.changes start (start.declareAll columns) ++
        grammar.historyChanges (start.declareAll columns) steps := by
  have hhistory : Diff.ofHistory grammar ((columns :: steps).scanl declareAll start) =
      Diff.compare grammar start (start.declareAll columns) ::
        Diff.ofHistory grammar (steps.scanl declareAll (start.declareAll columns)) := by
    rw [List.scanl_cons]
    cases steps with
    | nil => rfl
    | cons next steps => rw [List.scanl_cons, Diff.ofHistory]
  rw [historyChanges, hhistory, List.flatMap_cons, Diff.changes_compare]
  rfl

variable (grammar : Grammar) (start : Snapshot) (steps : List (List Column)) (name : String)

theorem balance_historyChanges :
    ((grammar.historyChanges start steps).count (.foreignKeyAdded name) : Int) -
        (grammar.historyChanges start steps).count (.foreignKeyDropped name) =
      (if grammar.HasForeignKey (steps.foldl declareAll start) name then 1 else 0) -
        if grammar.HasForeignKey start name then 1 else 0 := by
  induction steps generalizing start with
  | nil =>
    rw [historyChanges_nil, List.foldl_nil, Int.sub_self]
    rfl
  | cons columns steps ih =>
    have hstep := grammar.balance_changes (growsInto_declareAll start columns) name
    have hrest := ih (start.declareAll columns)
    rw [historyChanges_cons, List.count_append, List.count_append, List.foldl_cons]
    omega

/-- Put behind the change that leads to the first snapshot, the changes to the foreign key of
a column alternate: each leads away from what the one before led to. -/
theorem isChain_foreignKeyChanges :
    (Change.foreignKeyTo name (decide (grammar.HasForeignKey start name)) ::
      foreignKeyChanges name (grammar.historyChanges start steps)).IsChain (· ≠ ·) := by
  induction steps generalizing start with
  | nil => exact List.isChain_singleton _
  | cons columns steps ih =>
    have hrest := ih (start.declareAll columns)
    have hstep := grammar.foreignKeyChanges_changes (growsInto_declareAll start columns) name
    rw [historyChanges_cons, foreignKeyChanges, List.filter_append]
    rw [foreignKeyChanges] at hstep
    rw [hstep]
    split
    · next hsame =>
      rw [List.nil_append, decide_eq_decide.mpr hsame]
      exact hrest
    · next hdiffer =>
      rw [List.singleton_append, List.isChain_cons_cons]
      refine ⟨Change.foreignKeyTo_ne ?_, hrest⟩
      intro he
      exact hdiffer (decide_eq_decide.mp he)

private theorem gather_historyChanges {α : Type} {payload : Change → List α} {kind : ChangeKind}
    (hk : kind ∈ [ChangeKind.columnRenamed, .columnsDropped, .morphDropped]) :
    gather payload kind (grammar.historyChanges start steps) = [] := by
  induction steps generalizing start with
  | nil => rfl
  | cons columns steps ih =>
    rw [historyChanges_cons, gather_append,
      grammar.gather_of_growsInto (growsInto_declareAll start columns) hk, ih]
    rfl

end Grammar

/-- While a table grows, the additions and drops of the foreign key of a column alternate,
and there are as many more additions than drops as the last snapshot has the key over the
first. The collected changes rename no column and drop neither columns nor relationships. -/
theorem Diff.foreignKeys_history (grammar : Grammar) (start : Snapshot)
    (steps : List (List Column)) :
    let final := steps.foldl declareAll start
    let set := ChangeSet.ofDiffs (ofHistory grammar (steps.scanl declareAll start))
    (∀ name,
      (set.foreignAdds.count name : Int) - set.foreignDrops.count name =
        (if grammar.HasForeignKey final name then 1 else 0) -
          (if grammar.HasForeignKey start name then 1 else 0) ∧
      (set.changes.filter fun change =>
        change = .foreignKeyAdded name ∨ change = .foreignKeyDropped name).IsChain (· ≠ ·)) ∧
    set.columnRenames = [] ∧ set.columnDrops = [] ∧ set.morphDrops = [] ∧
    ∀ kind ∈ [ChangeKind.columnRenamed, .columnsDropped, .morphDropped], set.count kind = 0 := by
  intro final set
  have hset : set = gathered (grammar.historyChanges start steps) := ofDiffs_eq_gathered _
  rw [hset]
  refine ⟨?_, grammar.gather_historyChanges start steps (by decide),
    grammar.gather_historyChanges start steps (by decide),
    grammar.gather_historyChanges start steps (by decide), ?_⟩
  · intro name
    simp only [gathered]
    rw [Grammar.count_foreignKeyAdded, Grammar.count_foreignKeyDropped]
    exact ⟨grammar.balance_historyChanges start steps name,
      (grammar.isChain_foreignKeyChanges start steps name).tail⟩
  · intro kind hk
    rw [ChangeSet.count, List.countP_eq_length_filter, ← gather_self]
    exact congrArg List.length (grammar.gather_historyChanges start steps hk)

end TableDelta
