/-!
# Kinds of change

Each kind has a stable code, by which reports name it. Kinds are ordered as in
`ChangeKind.all`. Main statement: a code names exactly the kind that it belongs to.
-/
namespace TableDelta

/-- What a detected change is about. -/
inductive ChangeKind where
  | tableRenamed
  | columnRenamed
  | columnsDropped
  | columnsAdded
  | definitionChanged
  | foreignKeyDropped
  | foreignKeyAdded
  | primaryKeyDropped
  | uniqueKeyDropped
  | indexKeyDropped
  | morphDropped
  deriving DecidableEq, Repr

/-- The failure to read a change kind from a code that names none. -/
structure UnsupportedKind where
  code : String
  deriving DecidableEq, Repr

/-- What is reported of a code that names no kind. -/
def UnsupportedKind.message (error : UnsupportedKind) : String :=
  "Unsupported change kind: " ++ error.code

namespace ChangeKind

def all : List ChangeKind :=
  [tableRenamed, columnRenamed, columnsDropped, columnsAdded, definitionChanged,
    foreignKeyDropped, foreignKeyAdded, primaryKeyDropped, uniqueKeyDropped, indexKeyDropped,
    morphDropped]

/-- The stable name of a kind. -/
def code : ChangeKind → String
  | tableRenamed => "TABLE_RENAMED"
  | columnRenamed => "COLUMN_RENAMED"
  | columnsDropped => "COLUMNS_DROPPED"
  | columnsAdded => "COLUMNS_ADDED"
  | definitionChanged => "DEFINITION_CHANGED"
  | foreignKeyDropped => "FOREIGN_KEY_DROPPED"
  | foreignKeyAdded => "FOREIGN_KEY_ADDED"
  | primaryKeyDropped => "PRIMARY_KEY_DROPPED"
  | uniqueKeyDropped => "UNIQUE_KEY_DROPPED"
  | indexKeyDropped => "INDEX_KEY_DROPPED"
  | morphDropped => "MORPH_DROPPED"

/-- The kind that a code names. -/
def ofCode? (code : String) : Option ChangeKind :=
  all.find? fun kind => kind.code == code

/-- The kind that a code names, or the complaint about the code. -/
def ofCode (code : String) : Except UnsupportedKind ChangeKind :=
  match ofCode? code with
  | some kind => .ok kind
  | none => .error ⟨code⟩

def rank : ChangeKind → Nat
  | tableRenamed => 0
  | columnRenamed => 1
  | columnsDropped => 2
  | columnsAdded => 3
  | definitionChanged => 4
  | foreignKeyDropped => 5
  | foreignKeyAdded => 6
  | primaryKeyDropped => 7
  | uniqueKeyDropped => 8
  | indexKeyDropped => 9
  | morphDropped => 10

/-- Whether applying a change of the kind can lose data or constraints. -/
def isDestructive : ChangeKind → Bool
  | columnsDropped | foreignKeyDropped | primaryKeyDropped | uniqueKeyDropped
  | indexKeyDropped | morphDropped => true
  | _ => false

/-- The kinds put in order; equal kinds stay as often as they were. -/
def sort (kinds : List ChangeKind) : List ChangeKind :=
  kinds.mergeSort fun a b => Nat.ble a.rank b.rank

theorem ofCode?_code (kind : ChangeKind) : ofCode? kind.code = some kind := by
  cases kind <;> rfl

theorem code_of_ofCode? {code : String} {kind : ChangeKind} (h : ofCode? code = some kind) :
    kind.code = code := by
  simpa using List.find?_some h

private theorem getElem?_all_rank (kind : ChangeKind) : all[kind.rank]? = some kind := by
  cases kind <;> rfl

theorem rank_inj {a b : ChangeKind} (h : a.rank = b.rank) : a = b := by
  have ha := getElem?_all_rank a
  rw [h, getElem?_all_rank b] at ha
  exact (Option.some.inj ha).symm

end ChangeKind

end TableDelta
