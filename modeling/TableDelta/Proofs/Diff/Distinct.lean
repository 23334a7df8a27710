import TableDelta.Proofs.Diff.ReportedNames
import TableDelta.Proofs.Diff.Reversal
/-!
# Nothing is reported twice

No two changes of a comparison are equal and no bucket names a column twice, since every
column is compared with at most one other and the names of a snapshot are distinct. Between
snapshots of different sizes the longer one alone has its names listed, by one change, and
no listed column is among the compared ones.
-/
namespace TableDelta

open ChangeSet Snapshot

namespace Snapshot

variable {previous current : Snapshot} {p c : Column}

/-- No current column is compared with two previous ones. -/
theorem nodup_comparedNames (previous current : Snapshot) :
    ((comparedPairs previous current).map fun pair => pair.2.name).Nodup := by
  have hswapped : ((comparedPairs current previous).map fun pair => pair.1.name).Nodup := by
    have hsub := (map_fst_comparedPairs_sublist current previous).map Column.name
    rw [List.map_map] at hsub
    exact hsub.nodup current.distinct
  have hperm := (comparedPairs_comm current previous).map fun pair => pair.2.name
  rw [List.map_map] at hperm
  exact hperm.nodup_iff.mpr hswapped

private theorem nodup_filter_comparedNames (previous current : Snapshot)
    (keep : Column × Column → Bool) :
    (((comparedPairs previous current).filter keep).map fun pair => pair.2.name).Nodup :=
  (List.filter_sublist.map _).nodup (nodup_comparedNames previous current)

private theorem name_mem_of_mem_comparedPairs (h : previous.size ≠ current.size)
    (hm : (p, c) ∈ comparedPairs previous current) :
    c.name ∈ previous.names ∧ c.name ∈ current.names := by
  obtain ⟨hp, hc⟩ := mem_of_mem_comparedPairs hm
  refine ⟨?_, name_mem_names hc⟩
  rw [← name_eq_of_mem h hm]
  exact name_mem_names hp

theorem nodup_surplusNames (snapshot other : Snapshot) :
    ((snapshot.surplus other).map Column.name).Nodup := by
  unfold surplus
  split
  · exact (List.filter_sublist.map Column.name).nodup snapshot.distinct
  · exact .nil

private theorem not_mem_surplusNames {snapshot other : Snapshot} {name : String}
    (h : name ∈ other.names) : name ∉ (snapshot.surplus other).map Column.name := by
  intro hm
  obtain ⟨column, hcolumn, rfl⟩ := List.mem_map.mp hm
  exact (mem_surplus.mp hcolumn).2.2 h

end Snapshot

namespace Grammar

variable {α : Type} {payload : Change → List α} {kind : ChangeKind} {token : Token}

private theorem nodup_foreignKeyAdded (grammar : Grammar) (previous current : Snapshot) :
    (gather Change.columns .foreignKeyAdded (grammar.changes previous current)).Nodup := by
  rw [gather_foreignKeyAdded, List.nodup_append]
  refine ⟨(List.filter_sublist.map _).nodup (nodup_surplusNames current previous),
    nodup_filter_comparedNames previous current _, ?_⟩
  intro added hadded compared hcompared he
  obtain ⟨column, hcolumn, rfl⟩ := List.mem_map.mp hadded
  obtain ⟨⟨p, c⟩, hpair, rfl⟩ := List.mem_map.mp hcompared
  -- an added column is declared by one snapshot alone, a compared one of its name by both
  obtain ⟨hlt, -, hnew⟩ := mem_surplus.mp (List.mem_of_mem_filter hcolumn)
  have hold := name_mem_of_mem_comparedPairs (Nat.ne_of_lt hlt) (List.mem_of_mem_filter hpair)
  exact hnew (he ▸ hold.1)

private theorem nodup_morphDropped (grammar : Grammar) (previous current : Snapshot) :
    (gather Change.columns .morphDropped (grammar.changes previous current)).Nodup := by
  rw [gather_morphDropped]
  exact (List.filter_sublist.map _).nodup (nodup_surplusNames previous current)

theorem gather_columnRenamed_of_size_ne (grammar : Grammar) {previous current : Snapshot}
    (h : previous.size ≠ current.size) :
    gather payload .columnRenamed (grammar.changes previous current) = [] := by
  rw [gather_changes_of_not_mem (by decide) (by decide), nameChanges, if_neg h]
  split
  · exact gather_dropChanges_of_not_mem (by decide)
  · exact gather_addChanges_of_not_mem (by decide)

private theorem nodup_columnRenamed (grammar : Grammar) (previous current : Snapshot) :
    ((gather Change.renames .columnRenamed (grammar.changes previous current)).map
        Rename.previous).Nodup ∧
      ((gather Change.renames .columnRenamed (grammar.changes previous current)).map
        Rename.current).Nodup := by
  by_cases h : previous.size = current.size
  · have hback := nodup_positionRenames h.symm
    rw [positionRenames_comm, List.map_map] at hback
    rw [grammar.columnRenames_changes h]
    exact ⟨nodup_positionRenames h, hback⟩
  · rw [grammar.gather_columnRenamed_of_size_ne h]
    exact ⟨.nil, .nil⟩

private theorem nodup_redefined (grammar : Grammar) (previous current : Snapshot) :
    ((gather Change.redefinitions .definitionChanged (grammar.changes previous current)).map
      Redefinition.column).Nodup := by
  rw [gather_redefinitions, List.map_map]
  exact nodup_filter_comparedNames previous current _

private theorem nodup_tableRenamed (grammar : Grammar) (previous current : Snapshot) :
    (gather Change.renames .tableRenamed (grammar.changes previous current)).Nodup := by
  rw [gather_tableRenamed]
  split
  · exact .nil
  · exact List.nodup_singleton _

private theorem nodup_single (grammar : Grammar) (previous current : Snapshot)
    (h : kind ∈ ChangeKind.singleKinds) :
    (gather Change.columns kind (grammar.changes previous current)).Nodup := by
  cases hlost : kind.lostToken? with
  | some token =>
    rw [grammar.gather_lostKeys hlost]
    exact nodup_filter_comparedNames previous current _
  | none =>
    cases kind with
    | foreignKeyAdded => exact grammar.nodup_foreignKeyAdded previous current
    | morphDropped => exact grammar.nodup_morphDropped previous current
    | _ => simp [ChangeKind.lostToken?, ChangeKind.singleKinds] at hlost h

/-- No change is reported twice: those of one kind differ in what they carry. -/
theorem nodup_changes (grammar : Grammar) (previous current : Snapshot) :
    (grammar.changes previous current).Nodup := by
  apply nodup_of_nodup_filter
  intro kind
  by_cases hsingle : kind ∈ ChangeKind.singleKinds
  · exact nodup_filter_of_gather_columns hsingle (grammar.nodup_single previous current hsingle)
  · cases kind with
    | tableRenamed =>
      exact nodup_filter_of_gather (grammar.nodup_tableRenamed previous current)
        fun _ _ hk => List.ne_nil_of_length_eq_add_one (Change.length_renames (Or.inl hk))
    | columnRenamed =>
      exact nodup_filter_of_gather (grammar.nodup_columnRenamed previous current).1.of_map
        fun _ _ hk => List.ne_nil_of_length_eq_add_one (Change.length_renames (Or.inr hk))
    | definitionChanged =>
      exact nodup_filter_of_gather (grammar.nodup_redefined previous current).of_map
        fun _ _ hk => List.ne_nil_of_length_eq_add_one (Change.length_redefinitions hk)
    | columnsDropped =>
      rw [filter_columnsDropped]
      split
      · exact List.nodup_singleton _
      · exact .nil
    | columnsAdded =>
      rw [filter_columnsAdded]
      split
      · exact List.nodup_singleton _
      · exact .nil
    | _ => exact absurd (by decide) hsingle

end Grammar

/-- The buckets that hold names of columns. -/
def ChangeSet.nameBuckets (set : ChangeSet) : List (List String) :=
  [set.columnDrops, set.columnAdds, set.foreignDrops, set.foreignAdds, set.primaryDrops,
    set.uniqueDrops, set.indexDrops, set.morphDrops]

/-- The names of the columns that lost a key. -/
def ChangeSet.keyDrops (set : ChangeSet) : List String :=
  set.foreignDrops ++ set.primaryDrops ++ set.uniqueDrops ++ set.indexDrops

namespace Diff

variable {previous current : Snapshot} {name : String}

private theorem count_compare (grammar : Grammar) (previous current : Snapshot)
    (kind : ChangeKind) : (compare grammar previous current).changes.count kind =
      ((grammar.changes previous current).filter fun change => change.kind == kind).length := by
  rw [ChangeSet.count, changes_compare, List.countP_eq_length_filter]

private theorem listed_of_gt (grammar : Grammar) (h : current.size < previous.size) :
    let set := (compare grammar previous current).changes
    set.columnDrops = previous.names.filter (fun name => name ∉ current.names) ∧
      set.columnDrops ≠ [] ∧ set.columnAdds = [] ∧
      set.changes.filter (fun change => change.kind == .columnsDropped) =
        [.columnsDropped set.columnDrops] ∧
      set.count .columnsAdded = 0 := by
  intro set
  have hdrops : set.columnDrops = Grammar.missingNames previous current :=
    (columnDrops_compare grammar previous current).trans (if_pos h)
  have hadds : set.columnAdds = [] :=
    (columnAdds_compare grammar previous current).trans (if_neg (Nat.lt_asymm h))
  refine ⟨?_, ?_, hadds, ?_, ?_⟩
  · rw [hdrops, Grammar.missingNames_eq_filter]
  · rw [hdrops]
    exact Grammar.missingNames_ne_nil h
  · rw [changes_compare, grammar.filter_columnsDropped, if_pos h, hdrops]
  · rw [count_compare, grammar.filter_columnsAdded, if_neg (Nat.lt_asymm h), List.length_nil]

private theorem listed_of_lt (grammar : Grammar) (h : previous.size < current.size) :
    let set := (compare grammar previous current).changes
    set.columnAdds = current.names.filter (fun name => name ∉ previous.names) ∧
      set.columnAdds ≠ [] ∧ set.columnDrops = [] ∧
      set.changes.filter (fun change => change.kind == .columnsAdded) =
        [.columnsAdded set.columnAdds] ∧
      set.count .columnsDropped = 0 := by
  intro set
  have hdrops : set.columnDrops = [] :=
    (columnDrops_compare grammar previous current).trans (if_neg (Nat.lt_asymm h))
  have hadds : set.columnAdds = Grammar.missingNames current previous :=
    (columnAdds_compare grammar previous current).trans (if_pos h)
  refine ⟨?_, ?_, hdrops, ?_, ?_⟩
  · rw [hadds, Grammar.missingNames_eq_filter]
  · rw [hadds]
    exact Grammar.missingNames_ne_nil h
  · rw [changes_compare, grammar.filter_columnsAdded, if_pos h, hadds]
  · rw [count_compare, grammar.filter_columnsDropped, if_neg (Nat.lt_asymm h), List.length_nil]

private theorem not_listed (grammar : Grammar) (hprevious : name ∈ previous.names)
    (hcurrent : name ∈ current.names) :
    name ∉ (compare grammar previous current).changes.columnDrops ∧
      name ∉ (compare grammar previous current).changes.columnAdds := by
  simp only [compare, ofChanges_eq_gathered, gathered]
  rw [grammar.gather_columnsDropped, grammar.gather_columnsAdded]
  exact ⟨not_mem_surplusNames hcurrent, not_mem_surplusNames hprevious⟩

private theorem count_of_size_eq (grammar : Grammar) (h : previous.size = current.size) :
    let set := (compare grammar previous current).changes
    set.count .columnsDropped = 0 ∧ set.count .columnsAdded = 0 ∧ set.count .morphDropped = 0 := by
  intro set
  have hdrop : ¬ current.size < previous.size := Nat.not_lt_of_ge (Nat.le_of_eq h)
  have hadd : ¬ previous.size < current.size := Nat.not_lt_of_ge (Nat.le_of_eq h.symm)
  refine ⟨?_, ?_, ?_⟩
  · rw [count_compare, grammar.filter_columnsDropped, if_neg hdrop, List.length_nil]
  · rw [count_compare, grammar.filter_columnsAdded, if_neg hadd, List.length_nil]
  · rw [count_compare, ← List.countP_eq_length_filter, ← length_gather_columns (by decide),
      grammar.gather_morphDropped, surplus_of_not_lt hdrop]
    rfl

private theorem exists_compared (grammar : Grammar)
    (h : name ∈ (compare grammar previous current).changes.redefinitions.map Redefinition.column ∨
      name ∈ (compare grammar previous current).changes.keyDrops) :
    ∃ pair ∈ comparedPairs previous current, pair.2.name = name := by
  simp only [compare, ofChanges_eq_gathered, gathered, keyDrops] at h
  rw [grammar.gather_redefinitions, grammar.gather_lostKeys rfl, grammar.gather_lostKeys rfl,
    grammar.gather_lostKeys rfl, grammar.gather_lostKeys rfl, List.map_map] at h
  simp only [List.mem_append] at h
  rcases h with h | ((h | h) | h) | h <;>
  · obtain ⟨pair, hpair, rfl⟩ := List.mem_map.mp h
    exact ⟨pair, List.mem_of_mem_filter hpair, rfl⟩

private theorem nodup_nameBuckets (grammar : Grammar) {bucket : List String}
    (h : bucket ∈ (compare grammar previous current).changes.nameBuckets) : bucket.Nodup := by
  simp only [nameBuckets, compare, ofChanges_eq_gathered, gathered, List.mem_cons,
    List.not_mem_nil, or_false] at h
  rcases h with rfl | rfl | rfl | rfl | rfl | rfl | rfl | rfl
  · rw [grammar.gather_columnsDropped]
    exact nodup_surplusNames previous current
  · rw [grammar.gather_columnsAdded]
    exact nodup_surplusNames current previous
  all_goals exact grammar.nodup_single previous current (by decide)

/-- A comparison reports nothing twice: its changes are all different, no bucket of names
repeats one, and no column is renamed or redefined twice. Snapshots of one size list no
names; otherwise one change lists the names that the longer snapshot declares alone, in its
order, there are no renames, and no listed column is redefined or loses a key. -/
theorem distinct_compare (grammar : Grammar) (previous current : Snapshot) :
    let set := (compare grammar previous current).changes
    set.changes.Nodup ∧ (∀ bucket ∈ set.nameBuckets, bucket.Nodup) ∧
    (set.columnRenames.map Rename.previous).Nodup ∧
    (set.columnRenames.map Rename.current).Nodup ∧
    (set.redefinitions.map Redefinition.column).Nodup ∧
    (previous.size = current.size →
      set.count .columnsDropped = 0 ∧ set.count .columnsAdded = 0 ∧
      set.count .morphDropped = 0) ∧
    (previous.size ≠ current.size →
      set.count .columnRenamed = 0 ∧
      ∀ name, name ∈ set.redefinitions.map Redefinition.column ∨ name ∈ set.keyDrops →
        name ∉ set.columnDrops ∧ name ∉ set.columnAdds) ∧
    (current.size < previous.size →
      set.columnDrops = previous.names.filter (fun name => name ∉ current.names) ∧
      set.columnDrops ≠ [] ∧ set.columnAdds = [] ∧
      set.changes.filter (fun change => change.kind == .columnsDropped) =
        [.columnsDropped set.columnDrops] ∧
      set.count .columnsAdded = 0) ∧
    (previous.size < current.size →
      set.columnAdds = current.names.filter (fun name => name ∉ previous.names) ∧
      set.columnAdds ≠ [] ∧ set.columnDrops = [] ∧
      set.changes.filter (fun change => change.kind == .columnsAdded) =
        [.columnsAdded set.columnAdds] ∧
      set.count .columnsDropped = 0) := by
  intro set
  have hrenames : set.columnRenames =
      gather Change.renames .columnRenamed (grammar.changes previous current) := by
    simp only [set, compare, ofChanges_eq_gathered, gathered]
  have hredefinitions : set.redefinitions =
      gather Change.redefinitions .definitionChanged (grammar.changes previous current) := by
    simp only [set, compare, ofChanges_eq_gathered, gathered]
  obtain ⟨hfrom, hto⟩ := grammar.nodup_columnRenamed previous current
  rw [← hrenames] at hfrom hto
  refine ⟨?_, fun bucket => nodup_nameBuckets grammar, hfrom, hto, ?_, count_of_size_eq grammar,
    ?_, listed_of_gt grammar, listed_of_lt grammar⟩
  · rw [changes_compare]
    exact grammar.nodup_changes previous current
  · rw [hredefinitions]
    exact grammar.nodup_redefined previous current
  · intro h
    constructor
    · rw [count_compare, ← gather_self, grammar.gather_columnRenamed_of_size_ne h, List.length_nil]
    · intro name hname
      obtain ⟨pair, hpair, rfl⟩ := exists_compared grammar hname
      obtain ⟨hprevious, hcurrent⟩ := name_mem_of_mem_comparedPairs h hpair
      exact not_listed grammar hprevious hcurrent

end Diff

end TableDelta
