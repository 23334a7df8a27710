import TableDelta.Proofs.Diff.Agreement
import TableDelta.Proofs.Diff.Distinct
import TableDelta.Proofs.Snapshot.Declarations
/-!
# Growing snapshots

A snapshot grows by declaring columns: known ones keep their places, new ones are appended.
A comparison with what a snapshot grew into renames and drops nothing, whichever way it
compares, and it reports the foreign key of a column as added exactly if the column has come
to have one, and as dropped exactly if the column no longer has one.
-/
namespace TableDelta

open ChangeSet Snapshot

namespace Snapshot

/-- Declares columns one after the other. -/
def declareAll (snapshot : Snapshot) (columns : List Column) : Snapshot :=
  columns.foldl declare snapshot

/-- Known columns keep their places while others may be appended. -/
def GrowsInto (previous current : Snapshot) : Prop := previous.names <+: current.names

variable {previous current : Snapshot} {p c : Column}

theorem growsInto_declare (snapshot : Snapshot) (column : Column) :
    snapshot.GrowsInto (snapshot.declare column) := by
  rw [GrowsInto, names_declare]
  split
  · exact List.prefix_rfl
  · exact List.prefix_append _ _

theorem growsInto_declareAll (snapshot : Snapshot) (columns : List Column) :
    snapshot.GrowsInto (snapshot.declareAll columns) := by
  induction columns generalizing snapshot with
  | nil => exact List.prefix_rfl
  | cons column columns ih =>
    exact (growsInto_declare snapshot column).trans (ih (snapshot.declare column))

namespace GrowsInto

theorem size_le (h : previous.GrowsInto current) : previous.size ≤ current.size := by
  have hle := h.length_le
  simp only [names, List.length_map] at hle
  exact hle

private theorem names_eq (h : previous.GrowsInto current) (hsize : previous.size = current.size) :
    previous.names = current.names := by
  apply h.eq_of_length
  simp only [names, List.length_map]
  exact hsize

private theorem compares_iff (h : previous.GrowsInto current) :
    Compares previous current p c ↔
      p ∈ previous.columns ∧ c ∈ current.columns ∧ p.name = c.name := by
  by_cases hsize : previous.size = current.size
  · have hnames := h.names_eq hsize
    rw [Compares, if_pos hsize]
    constructor
    · rintro ⟨i, hp, hc⟩
      refine ⟨List.mem_of_getElem? hp, List.mem_of_getElem? hc, ?_⟩
      have hname := congrArg (fun names : List String => names[i]?) hnames
      simp only [names, List.getElem?_map, hp, hc, Option.map_some] at hname
      exact Option.some.inj hname
    · rintro ⟨hp, hc, hname⟩
      have hplace := getElem?_idxOf_name hp
      rw [hnames, hname] at hplace
      exact ⟨current.names.idxOf c.name, hplace, getElem?_idxOf_name hc⟩
  · rw [Compares, if_neg hsize]

private theorem mem_comparedPairs_iff (h : previous.GrowsInto current) :
    (p, c) ∈ comparedPairs previous current ↔
      p ∈ previous.columns ∧ c ∈ current.columns ∧ p.name = c.name := by
  rw [mem_comparedPairs, h.compares_iff]

end GrowsInto

end Snapshot

namespace Grammar

variable {previous current : Snapshot} {column : Column} {name : String}

/-- Whether a snapshot declares a column with a foreign key under a name. -/
def HasForeignKey (grammar : Grammar) (snapshot : Snapshot) (name : String) : Prop :=
  ∃ column ∈ snapshot.columns, column.name = name ∧
    .on ∈ (grammar.parse column.definition).tokens

instance (grammar : Grammar) (snapshot : Snapshot) (name : String) :
    Decidable (grammar.HasForeignKey snapshot name) :=
  inferInstanceAs (Decidable (∃ column ∈ snapshot.columns, column.name = name ∧
    .on ∈ (grammar.parse column.definition).tokens))

private theorem hasForeignKey_name {grammar : Grammar} {snapshot : Snapshot}
    (h : column ∈ snapshot.columns) : grammar.HasForeignKey snapshot column.name ↔
      .on ∈ (grammar.parse column.definition).tokens := by
  constructor
  · rintro ⟨other, hother, hname, hon⟩
    rw [List.inj_on_of_nodup_map snapshot.distinct h hother hname.symm]
    exact hon
  · intro hon
    exact ⟨column, h, rfl, hon⟩

theorem mem_foreignKeyDropped (grammar : Grammar) (h : previous.GrowsInto current) :
    name ∈ gather Change.columns .foreignKeyDropped (grammar.changes previous current) ↔
      grammar.HasForeignKey previous name ∧ ¬ grammar.HasForeignKey current name := by
  rw [grammar.gather_lostKeys rfl, namesLosing, List.mem_map]
  constructor
  · rintro ⟨⟨p, c⟩, hm, rfl⟩
    obtain ⟨hpair, hlost⟩ := List.mem_filter.mp hm
    obtain ⟨hp, hc, hname⟩ := h.mem_comparedPairs_iff.mp hpair
    have hkeys := of_decide_eq_true hlost
    rw [hasForeignKey_name hc, ← hname, hasForeignKey_name hp]
    exact hkeys
  · rintro ⟨⟨p, hp, rfl, hon⟩, hnone⟩
    obtain ⟨c, hc, hname⟩ := List.mem_map.mp (h.subset (name_mem_names hp))
    rw [← hname, hasForeignKey_name hc] at hnone
    have hpair := h.mem_comparedPairs_iff.mpr ⟨hp, hc, hname.symm⟩
    exact ⟨(p, c), List.mem_filter.mpr ⟨hpair, decide_eq_true ⟨hon, hnone⟩⟩, hname⟩

theorem mem_foreignKeyAdded (grammar : Grammar) (h : previous.GrowsInto current) :
    name ∈ gather Change.columns .foreignKeyAdded (grammar.changes previous current) ↔
      ¬ grammar.HasForeignKey previous name ∧ grammar.HasForeignKey current name := by
  rw [gather_foreignKeyAdded, List.mem_append, namesWinning, List.mem_map, List.mem_map]
  constructor
  · rintro (⟨c, hm, rfl⟩ | ⟨⟨p, c⟩, hm, rfl⟩)
    · obtain ⟨hadded, hon⟩ := List.mem_filter.mp hm
      obtain ⟨-, hc, hnew⟩ := mem_surplus.mp hadded
      refine ⟨?_, (hasForeignKey_name hc).mpr (of_decide_eq_true hon)⟩
      rintro ⟨p, hp, hname, -⟩
      exact hnew (hname ▸ name_mem_names hp)
    · obtain ⟨hpair, hwon⟩ := List.mem_filter.mp hm
      obtain ⟨hp, hc, hname⟩ := h.mem_comparedPairs_iff.mp hpair
      have hkeys := of_decide_eq_true hwon
      rw [hasForeignKey_name hc, ← hname, hasForeignKey_name hp]
      exact hkeys.symm
  · rintro ⟨hnone, c, hc, rfl, hon⟩
    by_cases hold : c.name ∈ previous.names
    · obtain ⟨p, hp, hname⟩ := List.mem_map.mp hold
      rw [← hname, hasForeignKey_name hp] at hnone
      have hpair := h.mem_comparedPairs_iff.mpr ⟨hp, hc, hname⟩
      exact Or.inr ⟨(p, c), List.mem_filter.mpr ⟨hpair, decide_eq_true ⟨hon, hnone⟩⟩, rfl⟩
    · -- a new name makes the snapshot longer, so the column is among the added ones
      have hne : previous.size ≠ current.size := by
        intro hsize
        rw [h.names_eq hsize] at hold
        exact hold (name_mem_names hc)
      have hlt := Nat.lt_of_le_of_ne h.size_le hne
      have hadded := mem_surplus.mpr ⟨hlt, hc, hold⟩
      exact Or.inl ⟨c, List.mem_filter.mpr ⟨hadded, decide_eq_true hon⟩, rfl⟩

theorem nameChanges_of_growsInto (grammar : Grammar) (h : previous.GrowsInto current) :
    grammar.nameChanges previous current =
      if previous.size < current.size then grammar.addChanges previous current else [] := by
  unfold nameChanges
  by_cases hsize : previous.size = current.size
  · rw [if_pos hsize, flatMap_renameChanges_of_isPrefix h,
      if_neg (Nat.not_lt_of_ge (Nat.le_of_eq hsize.symm))]
  · have hlt := Nat.lt_of_le_of_ne h.size_le hsize
    rw [if_neg hsize, if_neg (Nat.lt_asymm hlt), if_pos hlt]

theorem gather_of_growsInto {α : Type} {payload : Change → List α} {kind : ChangeKind}
    (grammar : Grammar) (h : previous.GrowsInto current)
    (hk : kind ∈ [ChangeKind.columnRenamed, .columnsDropped, .morphDropped]) :
    gather payload kind (grammar.changes previous current) = [] := by
  have htable : kind ≠ .tableRenamed := by
    rintro rfl
    exact absurd hk (by decide)
  have hcolumn : kind ∉ ChangeKind.columnKinds := by
    intro hm
    cases kind <;> simp [ChangeKind.columnKinds] at hk hm
  have hadded : kind ∉ [ChangeKind.columnsAdded, .foreignKeyAdded] := by
    intro hm
    cases kind <;> simp at hk hm
  rw [gather_changes_of_not_mem htable hcolumn, grammar.nameChanges_of_growsInto h]
  split
  · exact gather_addChanges_of_not_mem hadded
  · rfl

end Grammar

end TableDelta
