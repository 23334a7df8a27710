import TableDelta.Change.Kind
import TableDelta.Definition.Basic
/-!
# Changes

A change carries what is needed to act on it. `Change.line` is its line in the
changelog and `Change.kind` forgets the payload.
-/
namespace TableDelta

/-- A name and the name that replaced it. -/
structure Rename where
  previous : String
  current : String
  deriving DecidableEq, Repr

/-- A column whose parsed definition differs between two snapshots. -/
structure Redefinition where
  /-- The place of the column in the current snapshot. -/
  index : Nat
  /-- The name of the column in the previous snapshot. -/
  previousColumn : String
  /-- The name of the column in the current snapshot. -/
  column : String
  previous : Definition
  current : Definition
  deriving DecidableEq

inductive Change where
  | tableRenamed (rename : Rename)
  | columnRenamed (rename : Rename)
  | columnsDropped (columns : List String)
  | columnsAdded (columns : List String)
  | definitionChanged (redefinition : Redefinition)
  | foreignKeyDropped (column : String)
  | foreignKeyAdded (column : String)
  | primaryKeyDropped (column : String)
  | uniqueKeyDropped (column : String)
  | indexKeyDropped (column : String)
  | morphDropped (column : String)
  deriving DecidableEq

namespace Change

def kind : Change → ChangeKind
  | tableRenamed _ => .tableRenamed
  | columnRenamed _ => .columnRenamed
  | columnsDropped _ => .columnsDropped
  | columnsAdded _ => .columnsAdded
  | definitionChanged _ => .definitionChanged
  | foreignKeyDropped _ => .foreignKeyDropped
  | foreignKeyAdded _ => .foreignKeyAdded
  | primaryKeyDropped _ => .primaryKeyDropped
  | uniqueKeyDropped _ => .uniqueKeyDropped
  | indexKeyDropped _ => .indexKeyDropped
  | morphDropped _ => .morphDropped

/-- How many columns, then what happened to them, then their names. -/
def columnsLine (columns : List String) (what : String) : String :=
  Nat.repr columns.length ++ " Column(s) " ++ what ++ ": " ++ String.intercalate ", " columns

def line : Change → String
  | tableRenamed r => "Table renamed from " ++ r.previous ++ " to " ++ r.current
  | columnRenamed r => "Column renamed from " ++ r.previous ++ " to " ++ r.current
  | columnsDropped columns => columnsLine columns "Dropped"
  | columnsAdded columns => columnsLine columns "Added"
  | definitionChanged r => "Column '" ++ r.column ++ "' schema altered"
  | foreignKeyDropped column => "Foreign Key dropped on " ++ column
  | foreignKeyAdded column => "Foreign Key added on " ++ column
  | primaryKeyDropped column => "Primary Key dropped on " ++ column
  | uniqueKeyDropped column => "Unique Key dropped on " ++ column
  | indexKeyDropped column => "Index Key dropped on " ++ column
  | morphDropped column => "Morphable Relationship dropped on " ++ column

/-- Whether applying the change can lose data or constraints. -/
def isDestructive (change : Change) : Bool := change.kind.isDestructive

end Change

end TableDelta
