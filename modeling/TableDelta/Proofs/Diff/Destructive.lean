import Mathlib.Data.List.ProdSigma
import TableDelta.Proofs.Diff.KeyChanges
import TableDelta.Proofs.Report.Summary
/-!
# Destructive changes

A comparison can lose data or constraints in three ways: columns are dropped, polymorphic
relationships go with them, or a compared column loses the token of a key. The number of
destructive changes is counted kind by kind from what the two snapshots declare.
-/
namespace TableDelta

open ChangeSet Snapshot

/-- The tokens whose loss is reported of a compared column. -/
def Token.keys : List Token := [.on, .primary, .unique, .index]

private theorem countP_product {α β : Type} (p : α × β → Bool) (xs : List α) (ys : List β) :
    (xs ×ˢ ys).countP p = (ys.map fun y => xs.countP fun x => p (x, y)).sum := by
  induction xs with
  | nil => simp
  | cons x xs ih =>
    simp only [List.product_cons, List.countP_append, List.countP_map, ih, List.countP_cons,
      List.sum_map_add, sum_map_ite_eq_countP, Function.comp_def, Nat.add_comm]

namespace Grammar

variable {kind : ChangeKind} {token : Token}

theorem countP_columnsDropped (grammar : Grammar) (previous current : Snapshot) :
    (grammar.changes previous current).countP (fun change => change.kind == .columnsDropped) =
      if current.size < previous.size then 1 else 0 := by
  rw [List.countP_eq_length_filter, grammar.filter_columnsDropped]
  split
  · rfl
  · rfl

private theorem countP_morphDropped (grammar : Grammar) (previous current : Snapshot) :
    (grammar.changes previous current).countP (fun change => change.kind == .morphDropped) =
      (previous.surplus current).countP fun column =>
        .morphs ∈ (grammar.parse column.definition).tokens ∨
          .nullableMorphs ∈ (grammar.parse column.definition).tokens := by
  rw [← length_gather_columns (by decide), gather_morphDropped, List.length_map,
    List.countP_eq_length_filter]

private theorem countP_lostKeys (h : kind.lostToken? = some token) (grammar : Grammar)
    (previous current : Snapshot) :
    (grammar.changes previous current).countP (fun change => change.kind == kind) =
      (comparedPairs previous current).countP fun pair =>
        token ∈ (grammar.parse pair.1.definition).tokens ∧
          token ∉ (grammar.parse pair.2.definition).tokens := by
  have hsingle : kind ∈ ChangeKind.singleKinds := by
    cases kind <;> simp [ChangeKind.lostToken?, ChangeKind.singleKinds] at h ⊢
  rw [← length_gather_columns hsingle, grammar.gather_lostKeys h, namesLosing, List.length_map,
    List.countP_eq_length_filter]

theorem countP_isDestructive (grammar : Grammar) (previous current : Snapshot) :
    (grammar.changes previous current).countP Change.isDestructive =
      (if current.size < previous.size then 1 else 0) +
      ((previous.surplus current).countP fun column =>
        .morphs ∈ (grammar.parse column.definition).tokens ∨
          .nullableMorphs ∈ (grammar.parse column.definition).tokens) +
      (comparedPairs previous current ×ˢ Token.keys).countP fun (pair, token) =>
        token ∈ (grammar.parse pair.1.definition).tokens ∧
          token ∉ (grammar.parse pair.2.definition).tokens := by
  have hkinds : ChangeKind.all.filter ChangeKind.isDestructive =
      [.columnsDropped, .foreignKeyDropped, .primaryKeyDropped, .uniqueKeyDropped,
        .indexKeyDropped, .morphDropped] := rfl
  have hcount := countP_kind ChangeKind.isDestructive (grammar.changes previous current)
  rw [hkinds] at hcount
  simp only [List.map_cons, List.map_nil, List.sum_cons, List.sum_nil,
    grammar.countP_columnsDropped, grammar.countP_morphDropped] at hcount
  rw [countP_lostKeys rfl grammar, countP_lostKeys rfl grammar, countP_lostKeys rfl grammar,
    countP_lostKeys rfl grammar] at hcount
  rw [countP_product, Token.keys]
  simp only [List.map_cons, List.map_nil, List.sum_cons, List.sum_nil]
  exact hcount.trans (by omega)

private theorem countP_isDestructive_pos_iff (grammar : Grammar) (previous current : Snapshot) :
    0 < (grammar.changes previous current).countP Change.isDestructive ↔
      current.size < previous.size ∨ ∃ p c, Compares previous current p c ∧
        ∃ token ∈ Token.keys, token ∈ (grammar.parse p.definition).tokens ∧
          token ∉ (grammar.parse c.definition).tokens := by
  rw [grammar.countP_isDestructive]
  by_cases h : current.size < previous.size
  · rw [if_pos h]
    exact ⟨fun _ => Or.inl h, fun _ => by omega⟩
  · -- without dropped columns no relationship goes, so only lost tokens are left
    rw [if_neg h, surplus_of_not_lt h, List.countP_nil, Nat.zero_add,
      List.countP_pos_iff]
    constructor
    · rintro ⟨⟨⟨p, c⟩, token⟩, hm, hlost⟩
      obtain ⟨hpair, htoken⟩ := List.mem_product.mp hm
      exact Or.inr ⟨p, c, mem_comparedPairs.mp hpair, token, htoken, of_decide_eq_true hlost⟩
    · rintro (hlt | ⟨p, c, hcompares, token, htoken, hlost⟩)
      · exact absurd hlt h
      · have hpair := mem_comparedPairs.mpr hcompares
        exact ⟨((p, c), token), List.mem_product.mpr ⟨hpair, htoken⟩, decide_eq_true hlost⟩

end Grammar

/-- A comparison is destructive exactly when the previous snapshot is longer or a compared
column loses the token of a key. Its report counts one destructive change for the dropped
columns together, one for each of them that was polymorphic, and one for each lost token of
each compared column. -/
theorem Diff.destructive_compare (grammar : Grammar) (previous current : Snapshot)
    (timestamp : String) :
    let diff := compare grammar previous current
    (diff.changes.hasDestructive = true ↔ current.size < previous.size ∨
      ∃ p c, Compares previous current p c ∧ ∃ token ∈ Token.keys,
        token ∈ (grammar.parse p.definition).tokens ∧
          token ∉ (grammar.parse c.definition).tokens) ∧
    (comparedPairs previous current).Nodup ∧
    (∀ p c, (p, c) ∈ comparedPairs previous current ↔ Compares previous current p c) ∧
    (diff.report timestamp).summary.destructive =
      (if current.size < previous.size then 1 else 0) +
      ((previous.surplus current).countP fun column =>
        .morphs ∈ (grammar.parse column.definition).tokens ∨
          .nullableMorphs ∈ (grammar.parse column.definition).tokens) +
      (comparedPairs previous current ×ˢ Token.keys).countP fun (pair, token) =>
        token ∈ (grammar.parse pair.1.definition).tokens ∧
          token ∉ (grammar.parse pair.2.definition).tokens := by
  intro diff
  have hchanges : diff.changes.changes = grammar.changes previous current :=
    changes_compare grammar previous current
  refine ⟨?_, nodup_comparedPairs previous current, fun p c => mem_comparedPairs, ?_⟩
  · rw [ChangeSet.hasDestructive, hchanges, List.any_eq_true, ← List.countP_pos_iff]
    exact grammar.countP_isDestructive_pos_iff previous current
  · rw [← grammar.countP_isDestructive, ← Summary.destructive_ofChanges, ← hchanges]
    rfl

end TableDelta
