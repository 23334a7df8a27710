import TableDelta.Change.Set
/-!
# Buckets of a change set

What a change set holds after changes were recorded is told by the changes alone: a
line for each of them, the changes themselves, and in each bucket the payloads of the
changes of its kind, in their order. `gathered` says so and `ofChanges_eq_gathered`
proves it, by what one `push` does to a gathered set.
-/
namespace TableDelta

namespace Change

/-- The rename that a change carries, if it carries one. -/
def renames : Change → List Rename
  | tableRenamed rename => [rename]
  | columnRenamed rename => [rename]
  | _ => []

/-- The redefinition that a change carries, if it carries one. -/
def redefinitions : Change → List Redefinition
  | definitionChanged redefinition => [redefinition]
  | _ => []

/-- The columns that a change lists or names. -/
def columns : Change → List String
  | columnsDropped columns => columns
  | columnsAdded columns => columns
  | foreignKeyDropped column => [column]
  | foreignKeyAdded column => [column]
  | primaryKeyDropped column => [column]
  | uniqueKeyDropped column => [column]
  | indexKeyDropped column => [column]
  | morphDropped column => [column]
  | _ => []

end Change

namespace ChangeSet

/-- The payloads of the changes of one kind, one after the other. -/
def gather {α : Type} (payload : Change → List α) (kind : ChangeKind) (changes : List Change) :
    List α :=
  (changes.filter fun change => change.kind == kind).flatMap payload

/-- The change set in which every bucket holds the payloads of its kind. -/
def gathered (changes : List Change) : ChangeSet where
  changelog := changes.map Change.line
  changes := changes
  tableRenames := gather Change.renames .tableRenamed changes
  columnRenames := gather Change.renames .columnRenamed changes
  columnDrops := gather Change.columns .columnsDropped changes
  columnAdds := gather Change.columns .columnsAdded changes
  redefinitions := gather Change.redefinitions .definitionChanged changes
  foreignDrops := gather Change.columns .foreignKeyDropped changes
  foreignAdds := gather Change.columns .foreignKeyAdded changes
  primaryDrops := gather Change.columns .primaryKeyDropped changes
  uniqueDrops := gather Change.columns .uniqueKeyDropped changes
  indexDrops := gather Change.columns .indexKeyDropped changes
  morphDrops := gather Change.columns .morphDropped changes

variable {α : Type} {payload : Change → List α} {kind : ChangeKind}

@[simp] theorem gather_nil : gather payload kind [] = [] := rfl

@[simp] theorem gather_append (before after : List Change) :
    gather payload kind (before ++ after) =
      gather payload kind before ++ gather payload kind after := by
  simp only [gather, List.filter_append, List.flatMap_append]

theorem gather_flatMap {β : Type} (xs : List β) (f : β → List Change) :
    gather payload kind (xs.flatMap f) = xs.flatMap fun x => gather payload kind (f x) := by
  induction xs with
  | nil => rfl
  | cons x xs ih => simp only [List.flatMap_cons, gather_append, ih]

theorem gather_eq_nil {changes : List Change} (h : ∀ change ∈ changes, change.kind ≠ kind) :
    gather payload kind changes = [] := by
  have hf : (changes.filter fun change => change.kind == kind) = [] := by
    rw [List.filter_eq_nil_iff]
    intro change hc
    simpa using h change hc
  rw [gather, hf, List.flatMap_nil]

theorem gather_head {change : Change} {rest : List Change} (hc : change.kind = kind)
    (hr : ∀ other ∈ rest, other.kind ≠ kind) :
    gather payload kind (change :: rest) = payload change := by
  rw [← List.singleton_append, gather_append, gather_eq_nil hr, List.append_nil]
  simp [gather, hc]

theorem mem_gather (payload : Change → List α) {changes : List Change} {change : Change} {x : α}
    (hm : change ∈ changes) (hx : x ∈ payload change) :
    x ∈ gather payload change.kind changes :=
  List.mem_flatMap.mpr ⟨change, List.mem_filter.mpr ⟨hm, beq_self_eq_true change.kind⟩, hx⟩

theorem gather_singleton_ne_nil {changes : List Change} {change : Change} (h : change ∈ changes) :
    gather (fun change => [change]) change.kind changes ≠ [] :=
  List.ne_nil_of_mem (mem_gather (fun change => [change]) h List.mem_cons_self)

private theorem push_gathered (before : List Change) (change : Change) :
    (gathered before).push change = gathered (before ++ [change]) := by
  cases change <;>
    simp [push, route, gathered, gather, Change.kind, Change.renames, Change.redefinitions,
      Change.columns]

private theorem pushAll_gathered (before after : List Change) :
    (gathered before).pushAll after = gathered (before ++ after) := by
  induction after generalizing before with
  | nil => simp [pushAll]
  | cons change after ih =>
    have hstep : (gathered before).pushAll (change :: after) =
        ((gathered before).push change).pushAll after := rfl
    rw [hstep, push_gathered, ih, List.append_assoc, List.singleton_append]

/-- Recording changes fills every bucket with the payloads of its own kind. -/
theorem ofChanges_eq_gathered (changes : List Change) : ofChanges changes = gathered changes :=
  pushAll_gathered [] changes

theorem changes_ofChanges (changes : List Change) : (ofChanges changes).changes = changes := by
  rw [ofChanges_eq_gathered]
  rfl

theorem hasChanged_ofChanges (changes : List Change) :
    (ofChanges changes).hasChanged = false ↔ changes = [] := by
  rw [ofChanges_eq_gathered]
  simp [hasChanged, gathered]

end ChangeSet

end TableDelta
