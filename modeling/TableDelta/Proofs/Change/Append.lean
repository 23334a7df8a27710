import TableDelta.Proofs.Change.ByKind
/-!
# Change sets one behind the other

To record changes is to put their own change set behind the one that is there: every field
grows at its end and by what the new changes contribute. So a run of changes may be divided
anywhere, and the changes of a set are all that is needed to make it again.
-/
namespace TableDelta.ChangeSet

/-- Two change sets one behind the other, field by field. -/
def append (set other : ChangeSet) : ChangeSet where
  changelog := set.changelog ++ other.changelog
  changes := set.changes ++ other.changes
  tableRenames := set.tableRenames ++ other.tableRenames
  columnRenames := set.columnRenames ++ other.columnRenames
  columnDrops := set.columnDrops ++ other.columnDrops
  columnAdds := set.columnAdds ++ other.columnAdds
  redefinitions := set.redefinitions ++ other.redefinitions
  foreignDrops := set.foreignDrops ++ other.foreignDrops
  foreignAdds := set.foreignAdds ++ other.foreignAdds
  primaryDrops := set.primaryDrops ++ other.primaryDrops
  uniqueDrops := set.uniqueDrops ++ other.uniqueDrops
  indexDrops := set.indexDrops ++ other.indexDrops
  morphDrops := set.morphDrops ++ other.morphDrops

theorem append_empty (set : ChangeSet) : set.append empty = set := by
  simp only [append, empty, List.append_nil]

theorem append_assoc (a b c : ChangeSet) : (a.append b).append c = a.append (b.append c) := by
  simp only [append, List.append_assoc]

private theorem push_eq_append (set : ChangeSet) (change : Change) :
    set.push change = set.append (empty.push change) := by
  cases change <;> simp only [push, route, append, empty, List.append_nil, List.nil_append]

theorem pushAll_eq_append (set : ChangeSet) (changes : List Change) :
    set.pushAll changes = set.append (ofChanges changes) := by
  induction changes generalizing set with
  | nil => exact set.append_empty.symm
  | cons change changes ih =>
    calc set.pushAll (change :: changes)
      _ = (set.push change).pushAll changes := rfl
      _ = (set.push change).append (ofChanges changes) := ih _
      _ = set.append ((empty.push change).append (ofChanges changes)) := by
        rw [push_eq_append set, append_assoc]
      _ = set.append (ofChanges (change :: changes)) := by
        rw [← ih]
        rfl

theorem changes_pushAll (set : ChangeSet) (changes : List Change) :
    (set.pushAll changes).changes = set.changes ++ changes := by
  rw [pushAll_eq_append, append, changes_ofChanges]

theorem sum_count (set : ChangeSet) : (ChangeKind.all.map set.count).sum = set.size := by
  have hkinds := countP_kind (fun _ => true) set.changes
  rw [List.countP_true, List.filter_true] at hkinds
  exact hkinds.symm

theorem size_ofChanges (changes : List Change) : (ofChanges changes).size = changes.length := by
  rw [size, changes_ofChanges]

/-- After any run of changes the set holds them with their lines, and each bucket holds the
payloads of the changes of its kind and no other; the counts of the kinds add up to the
number of changes, and all ways to ask whether there are any agree. Recording more puts
their set behind it, and recording its changes again gives the same set. -/
theorem collects_ofChanges (before after : List Change) :
    let set := ofChanges before
    set = gathered before ∧
    (ChangeKind.all.map set.count).sum = set.size ∧
    set.size = before.length ∧
    (set.hasChanged = !set.isEmpty) ∧ (set.hasChanged = true ↔ 0 < set.size) ∧
    set.pushAll after = set.append (ofChanges after) ∧
    ofChanges (before ++ after) = set.append (ofChanges after) ∧
    ofChanges set.changes = set := by
  intro set
  have hset : set = gathered before := ofChanges_eq_gathered before
  have hchanges : set.changes = before := changes_ofChanges before
  have hempty : set.hasChanged = !set.isEmpty := by
    rw [hset]
    simp only [hasChanged, isEmpty, gathered, List.isEmpty_map]
  refine ⟨hset, set.sum_count, size_ofChanges before, hempty, ?_, set.pushAll_eq_append after,
    ?_, ?_⟩
  · rw [hempty, isEmpty, size, List.length_pos_iff]
    simp
  · rw [← pushAll_eq_append]
    exact List.foldl_append
  · rw [hchanges]

/-- Payloads of the same shape go to the buckets of their own kinds. -/
example : ofChanges [.columnsDropped ["a", "b"], .morphDropped "a", .columnsDropped []] =
    ⟨["2 Column(s) Dropped: a, b", "Morphable Relationship dropped on a",
        "0 Column(s) Dropped: "],
      [.columnsDropped ["a", "b"], .morphDropped "a", .columnsDropped []],
      [], [], ["a", "b"], [], [], [], [], [], [], [], ["a"]⟩ := by
  rfl

end TableDelta.ChangeSet
