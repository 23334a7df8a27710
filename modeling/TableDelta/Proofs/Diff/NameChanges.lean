import TableDelta.Proofs.Change.ByKind
import TableDelta.Proofs.Definition.Canonical
import TableDelta.Proofs.Diff.Compared
/-!
# What a comparison reports about names

The renamed table, the renamed columns, and the columns that the longer of two snapshots
declares alone. Dropped and added columns are the same notion seen from either side, so
`surplus` covers both, and with them the keys that come or go with a whole column.
-/
namespace TableDelta

open ChangeSet

namespace Snapshot

/-- The columns that a snapshot declares beyond a shorter one, in order. -/
def surplus (snapshot other : Snapshot) : List Column :=
  if other.size < snapshot.size then
    snapshot.columns.filter fun column => column.name ∉ other.names
  else []

theorem surplus_of_lt {snapshot other : Snapshot} (h : other.size < snapshot.size) :
    snapshot.surplus other = snapshot.columns.filter fun column => column.name ∉ other.names :=
  if_pos h

theorem surplus_of_not_lt {snapshot other : Snapshot} (h : ¬ other.size < snapshot.size) :
    snapshot.surplus other = [] := if_neg h

theorem mem_surplus {snapshot other : Snapshot} {column : Column} :
    column ∈ snapshot.surplus other ↔
      other.size < snapshot.size ∧ column ∈ snapshot.columns ∧ column.name ∉ other.names := by
  by_cases h : other.size < snapshot.size
  · simp [surplus_of_lt h, h]
  · simp [surplus_of_not_lt h, h]

end Snapshot

namespace Grammar

variable {α : Type} {payload : Change → List α} {kind : ChangeKind}

/-! ## Names and the keys that go with them -/

theorem missingNames_eq_map (snapshot other : Snapshot) :
    missingNames snapshot other =
      (snapshot.columns.filter fun column => column.name ∉ other.names).map Column.name := by
  rw [missingNames_eq_filter]
  exact List.filter_map

theorem names_surplus (snapshot other : Snapshot) :
    (snapshot.surplus other).map Column.name =
      if other.size < snapshot.size then missingNames snapshot other else [] := by
  by_cases h : other.size < snapshot.size
  · rw [if_pos h, Snapshot.surplus_of_lt h, missingNames_eq_map]
  · rw [if_neg h, Snapshot.surplus_of_not_lt h, List.map_nil]

private theorem declares_name (grammar : Grammar) {snapshot : Snapshot} {column : Column}
    (h : column ∈ snapshot.columns) (property : Definition → Bool) :
    grammar.declares snapshot property column.name =
      property (grammar.parse column.definition) := by
  rw [declares, Snapshot.definition?_of_column? (Snapshot.column?_name h)]
  rfl

theorem filter_declares (grammar : Grammar) (snapshot other : Snapshot)
    (property : Definition → Bool) :
    (missingNames snapshot other).filter (grammar.declares snapshot property) =
      ((snapshot.columns.filter fun column => column.name ∉ other.names).filter fun column =>
        property (grammar.parse column.definition)).map Column.name := by
  rw [missingNames_eq_map, List.filter_map]
  congr 1
  apply List.filter_congr
  intro column hcolumn
  exact grammar.declares_name (List.mem_of_mem_filter hcolumn) property

private theorem gather_map_single (single : String → Change)
    (hk : ∀ name, (single name).kind = kind)
    (hc : ∀ name, (single name).columns = [name]) (names : List String) :
    gather Change.columns kind (names.map single) = names := by
  induction names with
  | nil => rfl
  | cons name names ih =>
    have hhead : gather Change.columns kind [single name] = [name] := by simp [gather, hk, hc]
    rw [List.map_cons, ← List.singleton_append, gather_append, hhead, ih, List.singleton_append]

private theorem filter_listing (list : List String → Change) (single : String → Change)
    (hl : ∀ names, (list names).kind = kind) (hs : ∀ name, (single name).kind ≠ kind)
    (keep : String → Bool) (snapshot other : Snapshot) :
    (if other.size < snapshot.size then
        (listing list single keep (missingNames snapshot other)).filter
          (fun change => change.kind == kind) else []) =
      if other.size < snapshot.size then [list (missingNames snapshot other)] else [] := by
  split
  · next h =>
    rw [listing_of_ne_nil _ _ _ (missingNames_ne_nil h), ← gather_self]
    refine gather_head (hl _) fun change hm => ?_
    obtain ⟨name, -, rfl⟩ := List.mem_map.mp hm
    exact hs name
  · rfl

private theorem gather_listing (grammar : Grammar) (list : List String → Change)
    (single : String → Change) (hl : ∀ names, (list names).kind ≠ kind)
    (hk : ∀ name, (single name).kind = kind) (hc : ∀ name, (single name).columns = [name])
    (property : Definition → Bool) (snapshot other : Snapshot) :
    (if other.size < snapshot.size then
        gather Change.columns kind (listing list single (grammar.declares snapshot property)
          (missingNames snapshot other)) else []) =
      ((snapshot.surplus other).filter fun column =>
        property (grammar.parse column.definition)).map Column.name := by
  split
  · next h =>
    have hhead : gather Change.columns kind [list (missingNames snapshot other)] = [] := by
      apply gather_eq_nil
      intro change hm
      rw [List.mem_singleton.mp hm]
      exact hl _
    rw [listing_of_ne_nil _ _ _ (missingNames_ne_nil h), ← List.singleton_append, gather_append,
      hhead, List.nil_append, gather_map_single single hk hc, filter_declares,
      Snapshot.surplus_of_lt h]
  · next h => rw [Snapshot.surplus_of_not_lt h, List.filter_nil, List.map_nil]

/-! ## Buckets -/

theorem gather_tableRenamed (grammar : Grammar) (previous current : Snapshot) :
    gather Change.renames .tableRenamed (grammar.changes previous current) =
      if previous.table = current.table then [] else [⟨previous.table, current.table⟩] := by
  rw [gather_changes, gather_nameChanges_of_not_mem (by decide),
    gather_pairChanges_of_not_mem (by decide), List.append_nil, List.append_nil]
  exact gather_tableChanges previous current

private theorem gather_drops (grammar : Grammar) (previous current : Snapshot)
    (hk : kind ∈ [ChangeKind.columnsDropped, ChangeKind.morphDropped]) :
    gather payload kind (grammar.changes previous current) =
      if current.size < previous.size then
        gather payload kind (grammar.dropChanges previous current) else [] := by
  simp only [List.mem_cons, List.not_mem_nil, or_false] at hk
  rcases hk with rfl | rfl <;>
  · rw [gather_changes_of_not_mem (by decide) (by decide),
      gather_nameChanges_of_ne _ _ _ (by decide), gather_addChanges_of_not_mem (by decide),
      ite_self, List.append_nil]

private theorem gather_adds (grammar : Grammar) (previous current : Snapshot)
    (hk : kind ∈ [ChangeKind.columnsAdded, ChangeKind.foreignKeyAdded]) :
    gather payload kind (grammar.nameChanges previous current) =
      if previous.size < current.size then
        gather payload kind (grammar.addChanges previous current) else [] := by
  simp only [List.mem_cons, List.not_mem_nil, or_false] at hk
  rcases hk with rfl | rfl <;>
  · rw [gather_nameChanges_of_ne _ _ _ (by decide), gather_dropChanges_of_not_mem (by decide),
      ite_self, List.nil_append]

theorem filter_columnsDropped (grammar : Grammar) (previous current : Snapshot) :
    (grammar.changes previous current).filter (fun change => change.kind == .columnsDropped) =
      if current.size < previous.size then [.columnsDropped (missingNames previous current)]
      else [] := by
  rw [← gather_self, grammar.gather_drops previous current (by decide), gather_self,
    dropChanges_eq_listing]
  exact filter_listing .columnsDropped .morphDropped (fun _ => rfl)
    (fun _ => ChangeKind.noConfusion) _ previous current

theorem filter_columnsAdded (grammar : Grammar) (previous current : Snapshot) :
    (grammar.changes previous current).filter (fun change => change.kind == .columnsAdded) =
      if previous.size < current.size then [.columnsAdded (missingNames current previous)]
      else [] := by
  rw [← gather_self, gather_changes_of_not_mem (by decide) (by decide),
    grammar.gather_adds previous current (by decide), gather_self, addChanges_eq_listing]
  exact filter_listing .columnsAdded .foreignKeyAdded (fun _ => rfl)
    (fun _ => ChangeKind.noConfusion) _ current previous

theorem gather_columnsDropped (grammar : Grammar) (previous current : Snapshot) :
    gather Change.columns .columnsDropped (grammar.changes previous current) =
      (previous.surplus current).map Column.name := by
  rw [gather, filter_columnsDropped, names_surplus]
  split
  · exact List.append_nil _
  · rfl

theorem gather_columnsAdded (grammar : Grammar) (previous current : Snapshot) :
    gather Change.columns .columnsAdded (grammar.changes previous current) =
      (current.surplus previous).map Column.name := by
  rw [gather, filter_columnsAdded, names_surplus]
  split
  · exact List.append_nil _
  · rfl

theorem gather_foreignKeys_nameChanges (grammar : Grammar) (previous current : Snapshot) :
    gather Change.columns .foreignKeyAdded (grammar.nameChanges previous current) =
      ((current.surplus previous).filter fun column =>
        (grammar.parse column.definition).hasForeignKey).map Column.name := by
  rw [grammar.gather_adds previous current (by decide), addChanges_eq_listing]
  exact grammar.gather_listing .columnsAdded .foreignKeyAdded (fun _ => ChangeKind.noConfusion)
    (fun _ => rfl) (fun _ => rfl) Definition.hasForeignKey current previous

theorem gather_morphs (grammar : Grammar) (previous current : Snapshot) :
    gather Change.columns .morphDropped (grammar.changes previous current) =
      ((previous.surplus current).filter fun column =>
        (grammar.parse column.definition).hasMorphs).map Column.name := by
  rw [grammar.gather_drops previous current (by decide), dropChanges_eq_listing]
  exact grammar.gather_listing .columnsDropped .morphDropped (fun _ => ChangeKind.noConfusion)
    (fun _ => rfl) (fun _ => rfl) Definition.hasMorphs previous current

end Grammar

end TableDelta
