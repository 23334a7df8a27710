import TableDelta.Change.Set
import TableDelta.Definition.Grammar
import TableDelta.Snapshot
/-!
# Differences between two snapshots

Snapshots with equally many columns are compared place by place, so a differing
name at a place is a rename. Otherwise columns are compared by name, and the longer
snapshot decides whether columns were dropped or added. Either way a column whose
parsed definition differs is reported, directly followed by the keys it lost or won.
-/
namespace TableDelta

namespace Redefinition

/-- Whether a token occurs before and no longer after. -/
def lost (before after : Definition) (token : Token) : Bool :=
  before.contains token && !after.contains token

/-- The keys that a redefinition takes from its column or gives to it. -/
def keyChanges (r : Redefinition) : List Change :=
  (if lost r.previous r.current .on then [.foreignKeyDropped r.column] else []) ++
    (if lost r.previous r.current .primary then [.primaryKeyDropped r.column] else []) ++
    (if lost r.previous r.current .unique then [.uniqueKeyDropped r.column] else []) ++
    (if lost r.previous r.current .index then [.indexKeyDropped r.column] else []) ++
    (if lost r.current r.previous .on then [.foreignKeyAdded r.column] else [])

end Redefinition

namespace Grammar

/-- The changes to one column, which stands at place `index` of the current snapshot. -/
def columnChanges (grammar : Grammar) (index : Nat) (previous current : Column) : List Change :=
  let redefinition : Redefinition :=
    { index
      previousColumn := previous.name
      column := current.name
      previous := grammar.parse previous.definition
      current := grammar.parse current.definition }
  if redefinition.previous = redefinition.current then []
  else .definitionChanged redefinition :: redefinition.keyChanges

/-- The rename of a table, if its name differs. -/
def tableChanges (previous current : Snapshot) : List Change :=
  if previous.table = current.table then []
  else [.tableRenamed ⟨previous.table, current.table⟩]

/-- The rename of a column, if the names of the two differ. -/
def renameChanges (previous current : Column) : List Change :=
  if previous.name = current.name then [] else [.columnRenamed ⟨previous.name, current.name⟩]

/-- Compares columns at the same place: all renames first, then the definitions. -/
def changesByPosition (grammar : Grammar) (previous current : Snapshot) : List Change :=
  let pairs := previous.columns.zip current.columns
  pairs.flatMap (fun pair => renameChanges pair.1 pair.2) ++
    pairs.zipIdx.flatMap fun (pair, index) => grammar.columnChanges index pair.1 pair.2

/-- The names of a snapshot that another one does not declare, in order. -/
def missingNames (snapshot other : Snapshot) : List String :=
  snapshot.names.filter fun name => !other.names.contains name

/-- Whether a snapshot declares a column whose parsed definition has some property. -/
def declares (grammar : Grammar) (snapshot : Snapshot) (property : Definition → Bool)
    (name : String) : Bool :=
  (snapshot.definition? name).any fun definition => property (grammar.parse definition)

/-- One change for all the dropped columns, then one for each that was polymorphic. -/
def dropChanges (grammar : Grammar) (previous current : Snapshot) : List Change :=
  match missingNames previous current with
  | [] => []
  | name :: names =>
    .columnsDropped (name :: names) ::
      ((name :: names).filter (grammar.declares previous Definition.hasMorphs)).map .morphDropped

/-- One change for all the added columns, then one for each with a foreign key. -/
def addChanges (grammar : Grammar) (previous current : Snapshot) : List Change :=
  match missingNames current previous with
  | [] => []
  | name :: names =>
    .columnsAdded (name :: names) ::
      ((name :: names).filter (grammar.declares current Definition.hasForeignKey)).map
        .foreignKeyAdded

/-- The changes to a column that the current snapshot declares under the same name. -/
def sharedChanges (grammar : Grammar) (current : Snapshot) (previous : Column) : List Change :=
  match current.position? previous.name, current.definition? previous.name with
  | some index, some definition => grammar.columnChanges index previous ⟨previous.name, definition⟩
  | _, _ => []

/-- Compares columns of the same name, after the drops or the additions. -/
def changesByName (grammar : Grammar) (previous current : Snapshot) : List Change :=
  (if current.size < previous.size then grammar.dropChanges previous current
    else grammar.addChanges previous current) ++
    previous.columns.flatMap (grammar.sharedChanges current)

/-- All changes from one snapshot to another, in the order of their discovery. -/
def changes (grammar : Grammar) (previous current : Snapshot) : List Change :=
  tableChanges previous current ++
    if previous.size = current.size then grammar.changesByPosition previous current
    else grammar.changesByName previous current

end Grammar

structure Diff where
  previous : Snapshot
  current : Snapshot
  changes : ChangeSet
  deriving DecidableEq

namespace Diff

/-- Compares two snapshots, reading their definitions with a grammar. -/
def compare (grammar : Grammar) (previous current : Snapshot) : Diff where
  previous := previous
  current := current
  changes := .ofChanges (grammar.changes previous current)

/-- Compares a table with nothing: all its columns are added. -/
def initial (current : Snapshot) : Diff :=
  compare .pipe (.empty current.table) current

/-- The diffs between neighbours in a history of snapshots. -/
def ofHistory (grammar : Grammar) : List Snapshot → List Diff
  | previous :: current :: rest =>
    compare grammar previous current :: ofHistory grammar (current :: rest)
  | _ => []

def hasChanged (diff : Diff) : Bool := diff.changes.hasChanged

end Diff

end TableDelta
