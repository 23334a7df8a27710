import TableDelta.Proofs.Change.Append
import TableDelta.Proofs.Diff.Compared
/-!
# Agreement of the two ways of comparing

Where the names of one snapshot are the first names of another one, looking the columns up
by name and walking over their places pair the same columns. Snapshots with the same names
in the same order could be compared either way: both report the same changes in the same
order, with the same places.
-/
namespace TableDelta

open Snapshot

namespace Snapshot

variable {previous current : Snapshot} {p c : Column}

private theorem zip_columns (h : previous.names <+: current.names) :
    previous.columns.zip current.columns =
      previous.columns.filterMap fun p => (current.column? p.name).map fun c => (p, c) :=
  Keyed.zip_eq_filterMap_find? current.distinct h

/-- Columns are paired by name whatever the sizes of the snapshots. -/
theorem comparedPairs_of_isPrefix (h : previous.names <+: current.names) :
    comparedPairs previous current =
      previous.columns.filterMap fun p => (current.column? p.name).map fun c => (p, c) := by
  unfold comparedPairs
  split
  · exact zip_columns h
  · rfl

private theorem name_eq_of_mem_zip (h : previous.names <+: current.names)
    (hm : (p, c) ∈ previous.columns.zip current.columns) : p.name = c.name := by
  rw [zip_columns h, List.mem_filterMap] at hm
  obtain ⟨q, -, hq⟩ := hm
  obtain ⟨d, hd, he⟩ := Option.map_eq_some_iff.mp hq
  cases he
  exact (column?_eq_some_iff.mp hd).2.symm

end Snapshot

namespace Grammar

variable {previous current : Snapshot}

theorem flatMap_renameChanges_of_isPrefix (h : previous.names <+: current.names) :
    ((pairs previous current).flatMap fun pair => renameChanges pair.1 pair.2) = [] := by
  rw [List.flatMap_eq_nil_iff]
  rintro ⟨p, c⟩ hm
  exact (renameChanges_eq_nil_iff p c).mpr (name_eq_of_mem_zip h hm)

private theorem addChanges_of_subset (grammar : Grammar) (h : current.names ⊆ previous.names) :
    grammar.addChanges previous current = [] := by
  have hnone : missingNames current previous = [] := by
    rw [List.eq_nil_iff_forall_not_mem]
    intro name hm
    obtain ⟨hcurrent, hprevious⟩ := mem_missingNames.mp hm
    exact hprevious (h hcurrent)
  unfold addChanges
  rw [hnone]

private theorem changesByName_of_names_eq (grammar : Grammar) (h : previous.names = current.names) :
    grammar.changesByName previous current =
      (comparedPairs previous current).flatMap (grammar.pairChanges current) := by
  have hprefix : previous.names <+: current.names := h ▸ List.prefix_rfl
  have hsize := size_eq_of_names_eq h
  have hadds : grammar.addChanges previous current = [] :=
    grammar.addChanges_of_subset (h ▸ List.Subset.refl _)
  rw [changesByName, if_neg (Nat.not_lt_of_ge (Nat.le_of_eq hsize)), hadds, List.nil_append,
    flatMap_sharedChanges, comparedPairs_of_isPrefix hprefix]

private theorem changesByPosition_of_names_eq (grammar : Grammar)
    (h : previous.names = current.names) : grammar.changesByPosition previous current =
      (comparedPairs previous current).flatMap (grammar.pairChanges current) := by
  have hprefix : previous.names <+: current.names := h ▸ List.prefix_rfl
  have hrenames := flatMap_renameChanges_of_isPrefix hprefix
  have hplaces := flatMap_zipIdx_pairs grammar previous current
  rw [pairs] at hrenames hplaces
  rw [changesByPosition, hrenames, List.nil_append, hplaces, zip_columns hprefix,
    comparedPairs_of_isPrefix hprefix]

end Grammar

namespace Diff

/-- Between snapshots with the same names in the same order it does not matter which way
columns are compared: to whatever set, both ways add the same changes in the same order, each
redefinition with the same place. -/
theorem byName_eq_byPosition (grammar : Grammar) {previous current : Snapshot}
    (h : previous.names = current.names) (set : ChangeSet) :
    grammar.changesByName previous current = grammar.changesByPosition previous current ∧
    (set.pushAll (grammar.changesByName previous current)).changes =
      set.changes ++ grammar.changesByPosition previous current ∧
    set.pushAll (grammar.changesByName previous current) =
      set.pushAll (grammar.changesByPosition previous current) := by
  have hsame : grammar.changesByName previous current =
      grammar.changesByPosition previous current :=
    (grammar.changesByName_of_names_eq h).trans (grammar.changesByPosition_of_names_eq h).symm
  refine ⟨hsame, ?_, ?_⟩
  · rw [ChangeSet.changes_pushAll, hsame]
  · rw [hsame]

/-- The last of three columns wins a foreign key, the first one loses two keys, and the table
was renamed before. -/
theorem byName_eq_byPosition_lostKeys :
    let previous := Snapshot.ofColumns "t"
      [⟨"id", "primary|index"⟩, ⟨"note", "text"⟩, ⟨"user", "integer"⟩]
    let current := Snapshot.ofColumns "t"
      [⟨"id", "integer"⟩, ⟨"note", "text|"⟩, ⟨"user", "foreignId|on:users"⟩]
    let set := ChangeSet.ofChanges [.tableRenamed ⟨"s", "t"⟩]
    previous.names = current.names ∧
    (set.pushAll (Grammar.pipe.changesByName previous current)).changes =
      set.changes ++ Grammar.pipe.changesByPosition previous current := by
  intro previous current set
  have hnames : previous.names = current.names := by decide
  exact ⟨hnames, (byName_eq_byPosition .pipe hnames set).2.1⟩

end Diff

end TableDelta
