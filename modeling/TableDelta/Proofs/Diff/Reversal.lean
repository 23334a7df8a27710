import Mathlib.Data.List.Zip
import Mathlib.Data.Prod.Basic
import TableDelta.Proofs.Diff.KeyChanges
import TableDelta.Proofs.Diff.Replay
/-!
# Comparing the other way round

Comparing two snapshots in the opposite direction reports the opposite changes: renames and
redefinitions with their two sides exchanged, additions for drops, and foreign keys won for
foreign keys lost. Between snapshots of one size everything keeps its place; otherwise the
shared columns are reported in the order of the other snapshot.
-/
namespace TableDelta

open ChangeSet Snapshot

/-- The rename that leads back. -/
def Rename.reverse (r : Rename) : Rename := ⟨r.current, r.previous⟩

/-- The redefinition that leads back, at the same place. -/
def Redefinition.reverse (r : Redefinition) : Redefinition where
  index := r.index
  previousColumn := r.column
  column := r.previousColumn
  previous := r.current
  current := r.previous

/-- The names and parses of a redefinition, without the place of its column. -/
def Redefinition.content (r : Redefinition) : (String × Definition) × String × Definition :=
  ((r.previousColumn, r.previous), r.column, r.current)

namespace Snapshot

variable {a b : Snapshot} {p c : Column}

theorem compares_comm : Compares b a c p ↔ Compares a b p c := by
  unfold Compares
  by_cases h : a.size = b.size
  · rw [if_pos h, if_pos h.symm]
    constructor
    · rintro ⟨i, hc, hp⟩
      exact ⟨i, hp, hc⟩
    · rintro ⟨i, hp, hc⟩
      exact ⟨i, hc, hp⟩
  · rw [if_neg h, if_neg fun he => h he.symm]
    constructor
    · rintro ⟨hc, hp, hname⟩
      exact ⟨hp, hc, hname.symm⟩
    · rintro ⟨hp, hc, hname⟩
      exact ⟨hc, hp, hname.symm⟩

private theorem comparedPairs_comm_of_size_eq (h : a.size = b.size) :
    comparedPairs b a = (comparedPairs a b).map Prod.swap := by
  rw [comparedPairs, comparedPairs, if_pos h, if_pos h.symm, List.zip_swap]

/-- Both directions compare the same columns, also where their orders differ. -/
theorem comparedPairs_comm (a b : Snapshot) :
    (comparedPairs b a).Perm ((comparedPairs a b).map Prod.swap) := by
  have hnodup : ((comparedPairs a b).map Prod.swap).Nodup :=
    (nodup_comparedPairs a b).map Prod.swap_injective
  -- no pair occurs twice on either side, so it is enough to compare the members
  rw [List.perm_ext_iff_of_nodup (nodup_comparedPairs b a) hnodup]
  rintro ⟨c, p⟩
  rw [mem_comparedPairs, compares_comm, ← mem_comparedPairs, List.mem_map]
  constructor
  · intro hm
    exact ⟨(p, c), hm, rfl⟩
  · rintro ⟨⟨p', c'⟩, hm, heq⟩
    cases heq
    exact hm

private theorem idxOf_eq_of_mem (h : a.size = b.size) (hm : (p, c) ∈ comparedPairs a b) :
    a.names.idxOf p.name = b.names.idxOf c.name := by
  have hcompares := mem_comparedPairs.mp hm
  rw [Compares, if_pos h] at hcompares
  obtain ⟨i, hp, hc⟩ := hcompares
  rw [idxOf_name hp, idxOf_name hc]

theorem name_eq_of_mem (h : a.size ≠ b.size) (hm : (p, c) ∈ comparedPairs a b) :
    p.name = c.name := by
  have hcompares := mem_comparedPairs.mp hm
  rw [Compares, if_neg h] at hcompares
  exact hcompares.2.2

end Snapshot

namespace Grammar

variable {a b : Snapshot}

theorem positionRenames_comm (a b : Snapshot) :
    positionRenames b a = (positionRenames a b).map Rename.reverse := by
  have hpairs : pairs b a = (pairs a b).map Prod.swap := (List.zip_swap a.columns b.columns).symm
  rw [positionRenames, positionRenames, hpairs, List.filter_map, List.map_map, List.map_map]
  congr 1
  apply List.filter_congr
  rintro ⟨p, c⟩ _
  simp [eq_comm]

/-! ## Redefinitions -/

private theorem filter_differ_map_swap (grammar : Grammar) (columns : List (Column × Column)) :
    ((columns.map Prod.swap).filter fun pair =>
        grammar.parse pair.1.definition ≠ grammar.parse pair.2.definition) =
      (columns.filter fun pair =>
        grammar.parse pair.1.definition ≠ grammar.parse pair.2.definition).map Prod.swap := by
  rw [List.filter_map]
  congr 1
  apply List.filter_congr
  rintro ⟨p, c⟩ _
  simp [eq_comm]

private theorem differingPairs_comm_of_size_eq (grammar : Grammar) (h : a.size = b.size) :
    grammar.differingPairs b a = (grammar.differingPairs a b).map Prod.swap := by
  rw [differingPairs, comparedPairs_comm_of_size_eq h, filter_differ_map_swap]
  rfl

theorem differingPairs_comm (grammar : Grammar) (a b : Snapshot) :
    (grammar.differingPairs b a).Perm ((grammar.differingPairs a b).map Prod.swap) := by
  rw [differingPairs, differingPairs, ← filter_differ_map_swap]
  exact (comparedPairs_comm a b).filter _

private theorem redefinitions_comm_of_size_eq (grammar : Grammar) (h : a.size = b.size) :
    (grammar.differingPairs b a).map (grammar.pairRedefinition a) =
      ((grammar.differingPairs a b).map (grammar.pairRedefinition b)).map
        Redefinition.reverse := by
  rw [grammar.differingPairs_comm_of_size_eq h, List.map_map, List.map_map]
  apply List.map_congr_left
  rintro ⟨p, c⟩ hm
  have hplace := idxOf_eq_of_mem h (List.mem_of_mem_filter hm)
  simp only [Function.comp_apply, Prod.swap_prod_mk, pairRedefinition, redefinition,
    Redefinition.reverse, hplace]

private theorem redefinitions_comm (grammar : Grammar) (a b : Snapshot) :
    (((grammar.differingPairs b a).map (grammar.pairRedefinition a)).map
      Redefinition.content).Perm
      (((grammar.differingPairs a b).map (grammar.pairRedefinition b)).map fun r =>
        r.reverse.content) := by
  have hswapped := (grammar.differingPairs_comm a b).map fun pair =>
    (grammar.pairRedefinition a pair).content
  simp only [List.map_map] at hswapped ⊢
  exact hswapped

/-! ## Foreign keys -/

private theorem namesWinning_map_swap (grammar : Grammar) (token : Token)
    (columns : List (Column × Column)) :
    grammar.namesWinning token (columns.map Prod.swap) =
      (columns.filter fun pair => token ∈ (grammar.parse pair.1.definition).tokens ∧
        token ∉ (grammar.parse pair.2.definition).tokens).map fun pair => pair.1.name := by
  rw [namesWinning, List.filter_map, List.map_map]
  rfl

theorem namesWinning_perm (grammar : Grammar) (token : Token) {xs ys : List (Column × Column)}
    (h : xs.Perm ys) : (grammar.namesWinning token xs).Perm (grammar.namesWinning token ys) :=
  (h.filter _).map _

private theorem exists_places (grammar : Grammar) (token : Token) (h : a.size = b.size) :
    ∃ places : List Nat,
      (grammar.namesLosing token (comparedPairs a b)).map b.position? = places.map some ∧
      (grammar.namesWinning token (comparedPairs b a)).map a.position? = places.map some := by
  rw [comparedPairs_comm_of_size_eq h, namesWinning_map_swap]
  refine ⟨((comparedPairs a b).filter fun pair =>
    token ∈ (grammar.parse pair.1.definition).tokens ∧
      token ∉ (grammar.parse pair.2.definition).tokens).map fun pair =>
        b.names.idxOf pair.2.name, ?_, ?_⟩
  · rw [namesLosing, List.map_map, List.map_map]
    apply List.map_congr_left
    rintro ⟨p, c⟩ hm
    exact position?_name (mem_of_mem_comparedPairs (List.mem_of_mem_filter hm)).2
  · rw [List.map_map, List.map_map]
    apply List.map_congr_left
    rintro ⟨p, c⟩ hm
    have hpair := List.mem_of_mem_filter hm
    simp only [Function.comp_apply, ← idxOf_eq_of_mem h hpair]
    exact position?_name (mem_of_mem_comparedPairs hpair).1

private theorem namesWinning_comm (grammar : Grammar) (token : Token) (h : a.size ≠ b.size) :
    (grammar.namesWinning token (comparedPairs b a)).Perm
      (grammar.namesLosing token (comparedPairs a b)) := by
  have hnames : grammar.namesWinning token ((comparedPairs a b).map Prod.swap) =
      grammar.namesLosing token (comparedPairs a b) := by
    rw [namesWinning_map_swap, namesLosing]
    apply List.map_congr_left
    rintro ⟨p, c⟩ hm
    exact name_eq_of_mem h (List.mem_of_mem_filter hm)
  rw [← hnames]
  exact grammar.namesWinning_perm token (comparedPairs_comm a b)

private theorem filter_foreignKeyAdded (grammar : Grammar) (a b : Snapshot) :
    ((gather Change.columns .foreignKeyAdded (grammar.changes b a)).filter fun name =>
        name ∈ a.names ∧ name ∈ b.names) =
      (grammar.namesWinning .on (comparedPairs b a)).filter fun name =>
        name ∈ a.names ∧ name ∈ b.names := by
  have hadded : ((((a.surplus b).filter fun column =>
      .on ∈ (grammar.parse column.definition).tokens).map Column.name).filter fun name =>
        name ∈ a.names ∧ name ∈ b.names) = [] := by
    rw [List.filter_eq_nil_iff]
    intro name hname hboth
    obtain ⟨column, hcolumn, rfl⟩ := List.mem_map.mp hname
    exact (mem_surplus.mp (List.mem_of_mem_filter hcolumn)).2.2 (of_decide_eq_true hboth).2
  rw [gather_foreignKeyAdded, List.filter_append, hadded, List.nil_append]

private theorem filter_namesWinning (grammar : Grammar) (token : Token) (h : a.size ≠ b.size) :
    ((grammar.namesWinning token (comparedPairs b a)).filter fun name =>
        name ∈ a.names ∧ name ∈ b.names) =
      grammar.namesWinning token (comparedPairs b a) := by
  rw [List.filter_eq_self]
  intro name hname
  obtain ⟨⟨p, c⟩, hpair, rfl⟩ := List.mem_map.mp hname
  have hm := List.mem_of_mem_filter hpair
  obtain ⟨hp, hc⟩ := mem_of_mem_comparedPairs hm
  have hpname := name_mem_names hp
  rw [name_eq_of_mem h.symm hm] at hpname
  exact decide_eq_true ⟨name_mem_names hc, hpname⟩

end Grammar

/-- The comparison back reports the changes of the comparison forth with their sides
exchanged. Between snapshots of one size it does so in the same order and for the same
places; otherwise drops become additions, and what is said about shared columns is the same
up to its order. -/
theorem Diff.reverse_compare (grammar : Grammar) (a b : Snapshot) :
    let forth := (compare grammar a b).changes
    let back := (compare grammar b a).changes
    back.tableRenames = forth.tableRenames.map Rename.reverse ∧
    (a.size = b.size →
      back.columnRenames = forth.columnRenames.map Rename.reverse ∧
      back.redefinitions = forth.redefinitions.map Redefinition.reverse ∧
      ∃ places : List Nat, forth.foreignDrops.map b.position? = places.map some ∧
        back.foreignAdds.map a.position? = places.map some) ∧
    (a.size ≠ b.size →
      back.columnAdds = forth.columnDrops ∧ back.columnDrops = forth.columnAdds ∧
      (back.redefinitions.map Redefinition.content).Perm
        (forth.redefinitions.map fun r => r.reverse.content) ∧
      (back.foreignAdds.filter fun name => name ∈ a.names ∧ name ∈ b.names).Perm
        forth.foreignDrops) := by
  simp only [compare, ofChanges_eq_gathered, gathered]
  refine ⟨?_, ?_, ?_⟩
  · rw [grammar.gather_tableRenamed, grammar.gather_tableRenamed]
    by_cases he : a.table = b.table
    · rw [if_pos he, if_pos he.symm, List.map_nil]
    · rw [if_neg he, if_neg fun heq => he heq.symm]
      rfl
  · intro h
    have hsurplus : a.surplus b = [] :=
      surplus_of_not_lt (Nat.not_lt_of_ge (Nat.le_of_eq h))
    refine ⟨?_, ?_, ?_⟩
    · rw [grammar.columnRenames_changes h, grammar.columnRenames_changes h.symm,
        Grammar.positionRenames_comm]
    · rw [grammar.gather_redefinitions, grammar.gather_redefinitions,
        grammar.redefinitions_comm_of_size_eq h]
    · rw [grammar.gather_lostKeys rfl, grammar.gather_foreignKeyAdded, hsurplus]
      exact grammar.exists_places .on h
  · intro h
    refine ⟨?_, ?_, ?_, ?_⟩
    · rw [grammar.gather_columnsAdded, grammar.gather_columnsDropped]
    · rw [grammar.gather_columnsAdded, grammar.gather_columnsDropped]
    · rw [grammar.gather_redefinitions, grammar.gather_redefinitions]
      exact grammar.redefinitions_comm a b
    · rw [grammar.filter_foreignKeyAdded, grammar.filter_namesWinning .on h,
        grammar.gather_lostKeys rfl]
      exact grammar.namesWinning_comm .on h

/-- The redefinitions of shared columns do change their order. -/
example :
    let a := Snapshot.ofColumns "t" [⟨"x", "string"⟩, ⟨"y", "string"⟩]
    let b := Snapshot.ofColumns "t" [⟨"y", "text"⟩, ⟨"z", "text"⟩, ⟨"x", "text"⟩]
    (Diff.compare .pipe a b).changes.redefinitions.map Redefinition.column = ["x", "y"] ∧
      (Diff.compare .pipe b a).changes.redefinitions.map Redefinition.column = ["y", "x"] := by
  decide +kernel

end TableDelta
