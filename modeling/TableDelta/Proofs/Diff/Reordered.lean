import TableDelta.Proofs.Diff.Destructive
import TableDelta.Proofs.Diff.Distinct
/-!
# Columns in another order

Between snapshots of different sizes columns are compared by name, so it does not matter in
which order either snapshot declares its columns. What a comparison reports then comes in
another order too, and the places of redefined columns are those of the reordered snapshot,
but nothing is reported more or less often.
-/
namespace TableDelta

open ChangeSet Snapshot

namespace Snapshot

/-- The same table with the same columns in some order. -/
structure Reorders (snapshot other : Snapshot) : Prop where
  table : snapshot.table = other.table
  columns : snapshot.columns.Perm other.columns

variable {snapshot snapshot' previous previous' current current' : Snapshot}

namespace Reorders

theorem size_eq (h : snapshot'.Reorders snapshot) : snapshot'.size = snapshot.size :=
  h.columns.length_eq

theorem names (h : snapshot'.Reorders snapshot) : snapshot'.names.Perm snapshot.names :=
  h.columns.map Column.name

end Reorders

theorem surplus_perm (hs : snapshot'.Reorders snapshot) (hp : previous'.Reorders previous) :
    (snapshot'.surplus previous').Perm (snapshot.surplus previous) := by
  by_cases h : previous.size < snapshot.size
  · have h' : previous'.size < snapshot'.size := by rwa [hs.size_eq, hp.size_eq]
    rw [surplus_of_lt h, surplus_of_lt h']
    simp only [hp.names.mem_iff]
    exact hs.columns.filter _
  · have h' : ¬ previous'.size < snapshot'.size := by rwa [hs.size_eq, hp.size_eq]
    rw [surplus_of_not_lt h, surplus_of_not_lt h']

private theorem compares_iff_of_reorders (h : previous.size ≠ current.size)
    (hp : previous'.Reorders previous) (hc : current'.Reorders current) {p c : Column} :
    Compares previous' current' p c ↔ Compares previous current p c := by
  have h' : previous'.size ≠ current'.size := by rwa [hp.size_eq, hc.size_eq]
  unfold Compares
  rw [if_neg h, if_neg h', hp.columns.mem_iff, hc.columns.mem_iff]

/-- Which columns are compared is a matter of their names alone. -/
theorem comparedPairs_perm (h : previous.size ≠ current.size) (hp : previous'.Reorders previous)
    (hc : current'.Reorders current) :
    (comparedPairs previous' current').Perm (comparedPairs previous current) := by
  rw [List.perm_ext_iff_of_nodup (nodup_comparedPairs previous' current')
    (nodup_comparedPairs previous current)]
  rintro ⟨p, c⟩
  rw [mem_comparedPairs, mem_comparedPairs, compares_iff_of_reorders h hp hc]

end Snapshot

namespace Grammar

variable {previous previous' current current' : Snapshot} {kind : ChangeKind}

private theorem namesLosing_perm (grammar : Grammar) (token : Token)
    {xs ys : List (Column × Column)} (h : xs.Perm ys) :
    (grammar.namesLosing token xs).Perm (grammar.namesLosing token ys) :=
  (h.filter _).map _

private theorem gather_single_perm (grammar : Grammar) (h : previous.size ≠ current.size)
    (hp : previous'.Reorders previous) (hc : current'.Reorders current)
    (hk : kind ∈ ChangeKind.singleKinds) :
    (gather Change.columns kind (grammar.changes previous' current')).Perm
      (gather Change.columns kind (grammar.changes previous current)) := by
  cases hlost : kind.lostToken? with
  | some token =>
    rw [grammar.gather_lostKeys hlost, grammar.gather_lostKeys hlost]
    exact grammar.namesLosing_perm token (comparedPairs_perm h hp hc)
  | none =>
    cases kind with
    | foreignKeyAdded =>
      rw [gather_foreignKeyAdded, gather_foreignKeyAdded]
      exact (((surplus_perm hc hp).filter _).map _).append
        (grammar.namesWinning_perm .on (comparedPairs_perm h hp hc))
    | morphDropped =>
      rw [gather_morphDropped, gather_morphDropped]
      exact ((surplus_perm hp hc).filter _).map _
    | _ => simp [ChangeKind.lostToken?, ChangeKind.singleKinds] at hlost hk

private theorem redefinitions_perm (grammar : Grammar) (h : previous.size ≠ current.size)
    (hp : previous'.Reorders previous) (hc : current'.Reorders current) :
    ((gather Change.redefinitions .definitionChanged
        (grammar.changes previous' current')).map Redefinition.content).Perm
      ((gather Change.redefinitions .definitionChanged
        (grammar.changes previous current)).map Redefinition.content) := by
  rw [gather_redefinitions, gather_redefinitions, List.map_map, List.map_map]
  -- without its place a redefinition says nothing of the snapshot that its column is in
  exact ((comparedPairs_perm h hp hc).filter _).map fun pair =>
    (grammar.pairRedefinition current pair).content

private theorem countP_columnsAdded (grammar : Grammar) (previous current : Snapshot) :
    (grammar.changes previous current).countP (fun change => change.kind == .columnsAdded) =
      if previous.size < current.size then 1 else 0 := by
  rw [List.countP_eq_length_filter, grammar.filter_columnsAdded]
  split
  · rfl
  · rfl

private theorem countP_definitionChanged (grammar : Grammar) (previous current : Snapshot) :
    (grammar.changes previous current).countP (fun change => change.kind == .definitionChanged) =
      (grammar.differingPairs previous current).length := by
  rw [← length_gather fun _ => Change.length_redefinitions, gather_redefinitions, List.length_map]

private theorem countP_tableRenamed (grammar : Grammar) (previous current : Snapshot) :
    (grammar.changes previous current).countP (fun change => change.kind == .tableRenamed) =
      if previous.table = current.table then 0 else 1 := by
  rw [← length_gather fun _ hk => Change.length_renames (Or.inl hk), gather_tableRenamed]
  split
  · rfl
  · rfl

private theorem countP_columnRenamed_of_size_ne (grammar : Grammar)
    (h : previous.size ≠ current.size) :
    (grammar.changes previous current).countP (fun change => change.kind == .columnRenamed) =
      0 := by
  rw [List.countP_eq_length_filter, ← gather_self, gather_columnRenamed_of_size_ne grammar h,
    List.length_nil]

private theorem countP_kind_of_reorders (grammar : Grammar) (h : previous.size ≠ current.size)
    (hp : previous'.Reorders previous) (hc : current'.Reorders current) (kind : ChangeKind) :
    (grammar.changes previous' current').countP (fun change => change.kind == kind) =
      (grammar.changes previous current).countP fun change => change.kind == kind := by
  by_cases hsingle : kind ∈ ChangeKind.singleKinds
  · rw [← length_gather_columns hsingle, ← length_gather_columns hsingle]
    exact (grammar.gather_single_perm h hp hc hsingle).length_eq
  · cases kind with
    | tableRenamed =>
      rw [countP_tableRenamed, countP_tableRenamed, hp.table, hc.table]
    | columnRenamed =>
      have h' : previous'.size ≠ current'.size := by rwa [hp.size_eq, hc.size_eq]
      rw [grammar.countP_columnRenamed_of_size_ne h, grammar.countP_columnRenamed_of_size_ne h']
    | columnsDropped =>
      rw [countP_columnsDropped, countP_columnsDropped, hp.size_eq, hc.size_eq]
    | columnsAdded =>
      rw [countP_columnsAdded, countP_columnsAdded, hp.size_eq, hc.size_eq]
    | definitionChanged =>
      rw [countP_definitionChanged, countP_definitionChanged]
      exact ((comparedPairs_perm h hp hc).filter _).length_eq
    | _ => exact absurd (by decide) hsingle

private theorem countP_of_reorders (grammar : Grammar) (h : previous.size ≠ current.size)
    (hp : previous'.Reorders previous) (hc : current'.Reorders current)
    (p : ChangeKind → Bool) :
    (grammar.changes previous' current').countP (fun change => p change.kind) =
      (grammar.changes previous current).countP fun change => p change.kind := by
  rw [countP_kind, countP_kind]
  simp only [grammar.countP_kind_of_reorders h hp hc]

end Grammar

namespace Diff

variable {previous previous' current current' : Snapshot}

private theorem position?_redefinition (grammar : Grammar) (previous current : Snapshot)
    {r : Redefinition} (h : r ∈ (compare grammar previous current).changes.redefinitions) :
    current.position? r.column = some r.index := by
  simp only [compare, ofChanges_eq_gathered, gathered] at h
  rw [grammar.gather_redefinitions] at h
  obtain ⟨pair, hpair, rfl⟩ := List.mem_map.mp h
  exact position?_name (mem_of_mem_comparedPairs (List.mem_of_mem_filter hpair)).2

/-- Snapshots of different sizes may declare their columns in any order: the buckets of names
are the same up to order, and so are the redefinitions but for the places of their columns,
which are places of the reordered snapshot. No kind of change is reported more or less often. -/
theorem reordered_compare (grammar : Grammar) (h : previous.size ≠ current.size)
    (hp : previous'.Reorders previous) (hc : current'.Reorders current) :
    let set := (compare grammar previous current).changes
    let reordered := (compare grammar previous' current').changes
    List.Forall₂ List.Perm reordered.nameBuckets set.nameBuckets ∧
    (reordered.redefinitions.map Redefinition.content).Perm
      (set.redefinitions.map Redefinition.content) ∧
    (∀ kind, reordered.count kind = set.count kind) ∧
    reordered.hasDestructive = set.hasDestructive ∧
    ∀ r ∈ reordered.redefinitions, current'.position? r.column = some r.index := by
  intro set reordered
  have hcount : ∀ p : ChangeKind → Bool,
      reordered.changes.countP (fun change => p change.kind) =
        set.changes.countP fun change => p change.kind := by
    intro p
    rw [changes_compare, changes_compare]
    exact grammar.countP_of_reorders h hp hc p
  refine ⟨?_, ?_, fun kind => hcount (· == kind), ?_, ?_⟩
  · simp only [set, reordered, nameBuckets, compare, ofChanges_eq_gathered, gathered,
      List.forall₂_cons, List.forall₂_nil_left_iff, and_true]
    have hsingle : ∀ kind ∈ ChangeKind.singleKinds,
        (gather Change.columns kind (grammar.changes previous' current')).Perm
          (gather Change.columns kind (grammar.changes previous current)) :=
      fun kind hk => grammar.gather_single_perm h hp hc hk
    rw [grammar.gather_columnsDropped, grammar.gather_columnsDropped, grammar.gather_columnsAdded,
      grammar.gather_columnsAdded]
    exact ⟨(surplus_perm hp hc).map _, (surplus_perm hc hp).map _, hsingle _ (by decide),
      hsingle _ (by decide), hsingle _ (by decide), hsingle _ (by decide), hsingle _ (by decide),
      hsingle _ (by decide)⟩
  · simp only [set, reordered, compare, ofChanges_eq_gathered, gathered]
    exact grammar.redefinitions_perm h hp hc
  · rw [hasDestructive_eq_decide, hasDestructive_eq_decide]
    exact congrArg (fun n => decide (0 < n)) (hcount ChangeKind.isDestructive)
  · intro r hr
    exact position?_redefinition grammar previous' current' hr

/-- A polymorphic column is dropped and two others lose a key, in either order. -/
theorem reordered_compare_lostKeys :
    let previous := Snapshot.ofColumns "t"
      [⟨"note", "morphs"⟩, ⟨"mail", "unique"⟩, ⟨"id", "primary"⟩]
    let previous' := Snapshot.ofColumns "t"
      [⟨"id", "primary"⟩, ⟨"note", "morphs"⟩, ⟨"mail", "unique"⟩]
    let current := Snapshot.ofColumns "t" [⟨"id", "integer"⟩, ⟨"mail", "string"⟩]
    let current' := Snapshot.ofColumns "t" [⟨"mail", "string"⟩, ⟨"id", "integer"⟩]
    let set := (compare .pipe previous current).changes
    let reordered := (compare .pipe previous' current').changes
    (previous.size ≠ current.size ∧ previous'.Reorders previous ∧ current'.Reorders current) ∧
    List.Forall₂ List.Perm reordered.nameBuckets set.nameBuckets ∧
    (∀ kind, reordered.count kind = set.count kind) ∧
    set.nameBuckets = [["note"], [], [], [], ["id"], ["mail"], [], ["note"]] ∧
    set.redefinitions.map (fun r => (r.column, r.index)) = [("mail", 1), ("id", 0)] ∧
    reordered.redefinitions.map (fun r => (r.column, r.index)) = [("id", 1), ("mail", 0)] := by
  intro previous previous' current current' set reordered
  have hsize : previous.size ≠ current.size := by decide
  have hp : previous'.Reorders previous := ⟨rfl, by decide⟩
  have hc : current'.Reorders current := ⟨rfl, by decide⟩
  obtain ⟨hbuckets, -, hcount, -, -⟩ := reordered_compare .pipe hsize hp hc
  exact ⟨⟨hsize, hp, hc⟩, hbuckets, hcount, by decide +kernel, by decide +kernel,
    by decide +kernel⟩

end Diff

end TableDelta
