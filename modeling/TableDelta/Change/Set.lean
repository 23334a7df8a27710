import TableDelta.Change.Basic
/-!
# Change sets

A change set collects changes in the order of their discovery. Beside the changes
it keeps their changelog lines and one bucket per kind, and `push` extends all of
them at once: each change adds one line and lands in the bucket of its own kind.
-/
namespace TableDelta

/-- Changes with their changelog and their buckets. -/
structure ChangeSet where
  changelog : List String
  changes : List Change
  tableRenames : List Rename
  columnRenames : List Rename
  columnDrops : List String
  columnAdds : List String
  redefinitions : List Redefinition
  foreignDrops : List String
  foreignAdds : List String
  primaryDrops : List String
  uniqueDrops : List String
  indexDrops : List String
  morphDrops : List String
  deriving DecidableEq

namespace ChangeSet

def empty : ChangeSet := ⟨[], [], [], [], [], [], [], [], [], [], [], [], []⟩

/-- Adds the payload of a change to the bucket of its kind. -/
def route (set : ChangeSet) : Change → ChangeSet
  | .tableRenamed rename => { set with tableRenames := set.tableRenames ++ [rename] }
  | .columnRenamed rename => { set with columnRenames := set.columnRenames ++ [rename] }
  | .columnsDropped columns => { set with columnDrops := set.columnDrops ++ columns }
  | .columnsAdded columns => { set with columnAdds := set.columnAdds ++ columns }
  | .definitionChanged redefinition =>
    { set with redefinitions := set.redefinitions ++ [redefinition] }
  | .foreignKeyDropped column => { set with foreignDrops := set.foreignDrops ++ [column] }
  | .foreignKeyAdded column => { set with foreignAdds := set.foreignAdds ++ [column] }
  | .primaryKeyDropped column => { set with primaryDrops := set.primaryDrops ++ [column] }
  | .uniqueKeyDropped column => { set with uniqueDrops := set.uniqueDrops ++ [column] }
  | .indexKeyDropped column => { set with indexDrops := set.indexDrops ++ [column] }
  | .morphDropped column => { set with morphDrops := set.morphDrops ++ [column] }

/-- Records a change: its line, the change itself and its payload. -/
def push (set : ChangeSet) (change : Change) : ChangeSet :=
  { set.route change with
    changelog := set.changelog ++ [change.line]
    changes := set.changes ++ [change] }

def pushAll (set : ChangeSet) (changes : List Change) : ChangeSet :=
  changes.foldl push set

def ofChanges (changes : List Change) : ChangeSet := empty.pushAll changes

def hasChanged (set : ChangeSet) : Bool := !set.changelog.isEmpty

def size (set : ChangeSet) : Nat := set.changes.length

def isEmpty (set : ChangeSet) : Bool := set.changes.isEmpty

def count (set : ChangeSet) (kind : ChangeKind) : Nat :=
  set.changes.countP fun change => change.kind == kind

def hasDestructive (set : ChangeSet) : Bool := set.changes.any Change.isDestructive

end ChangeSet

end TableDelta
