import Mathlib.Data.List.Forall2
import TableDelta.Proofs.Diff.Compared
/-!
# Redefinitions of a comparison

A comparison reports one redefinition for each two compared columns whose parses differ
and no other, in the order of the previous columns. What a redefinition has to say about
its two columns is `Redefinition.Reports`.
-/
namespace TableDelta

open ChangeSet Snapshot

/-- A redefinition reports on two columns: it has the place of the current one in its
snapshot, the names of both and their parses, which differ. -/
structure Redefinition.Reports (grammar : Grammar) (current : Snapshot) (pair : Column × Column)
    (r : Redefinition) : Prop where
  place : r.index < current.size
  column_at : current.columns[r.index]? = some pair.2
  previousColumn_eq : r.previousColumn = pair.1.name
  column_eq : r.column = pair.2.name
  previous_eq : r.previous = grammar.parse pair.1.definition
  current_eq : r.current = grammar.parse pair.2.definition
  changed : r.previous ≠ r.current

namespace Grammar

/-- The compared columns whose parses differ, in the order of the previous ones. -/
def differingPairs (grammar : Grammar) (previous current : Snapshot) : List (Column × Column) :=
  (comparedPairs previous current).filter fun pair =>
    grammar.parse pair.1.definition ≠ grammar.parse pair.2.definition

/-- The redefinition of two compared columns, at the place of the current one. -/
def pairRedefinition (grammar : Grammar) (current : Snapshot) (pair : Column × Column) :
    Redefinition :=
  grammar.redefinition (current.names.idxOf pair.2.name) pair.1 pair.2

theorem gather_redefinitions (grammar : Grammar) (previous current : Snapshot) :
    gather Change.redefinitions .definitionChanged (grammar.changes previous current) =
      (grammar.differingPairs previous current).map (grammar.pairRedefinition current) := by
  rw [gather_changes_of_not_mem_nameKinds (by decide) (by decide)]
  simp only [pairChanges, gather_columnChanges, flatMap_unless, differingPairs, ne_eq, decide_not]
  rfl

theorem reports_pairRedefinition {grammar : Grammar} {previous current : Snapshot}
    {pair : Column × Column} (h : pair ∈ grammar.differingPairs previous current) :
    (grammar.pairRedefinition current pair).Reports grammar current pair := by
  obtain ⟨hpair, hdiffer⟩ := List.mem_filter.mp h
  have hcolumn := getElem?_idxOf_name (mem_of_mem_comparedPairs hpair).2
  obtain ⟨hplace, -⟩ := List.getElem?_eq_some_iff.mp hcolumn
  exact
    { place := hplace
      column_at := hcolumn
      previousColumn_eq := rfl
      column_eq := rfl
      previous_eq := rfl
      current_eq := rfl
      changed := of_decide_eq_true hdiffer }

end Grammar

/-- The redefinitions of a comparison report, one by one and in the order of the previous
columns, on the compared columns whose parses differ. -/
theorem Diff.redefinitions_report (grammar : Grammar) (previous current : Snapshot) :
    (∀ p c, (p, c) ∈ comparedPairs previous current ↔ Compares previous current p c) ∧
    ((comparedPairs previous current).map Prod.fst).Sublist previous.columns ∧
    List.Forall₂ (Redefinition.Reports grammar current) (grammar.differingPairs previous current)
      (compare grammar previous current).changes.redefinitions := by
  refine ⟨fun p c => mem_comparedPairs, map_fst_comparedPairs_sublist previous current, ?_⟩
  simp only [compare, ofChanges_eq_gathered, gathered]
  rw [grammar.gather_redefinitions, List.forall₂_map_right_iff, List.forall₂_same]
  intro pair hpair
  exact Grammar.reports_pairRedefinition hpair

end TableDelta
