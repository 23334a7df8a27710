import TableDelta.Wire.Config
import TableDelta.Wire.Report
/-!
# The values that have a JSON form

`Model` lists the types whose values can be read from JSON as well as written to it,
so that what holds of all of them can be said once. `Model.read?` and `Model.write`
go between texts and values.
-/
namespace TableDelta

/-- A type whose values are read from JSON and written to it. -/
inductive Model where
  /-- The text of a column definition. -/
  | definitionText
  | token
  | definition
  | column
  | snapshot
  | changeKind
  | rename
  | redefinition
  | change
  | version
  | summary
  | report
  | grammar
  | preset
  | grammarSettings
  | config
  deriving DecidableEq, Repr

namespace Model

abbrev Carrier : Model → Type
  | definitionText => String
  | token => Token
  | definition => Definition
  | column => Column
  | snapshot => Snapshot
  | changeKind => ChangeKind
  | rename => Rename
  | redefinition => Redefinition
  | change => Change
  | version => Version
  | summary => Summary
  | report => Report
  | grammar => Grammar
  | preset => Preset
  | grammarSettings => GrammarSettings
  | config => Config

def toJson : (model : Model) → model.Carrier → Json
  | definitionText => Json.string
  | token => Token.toJson
  | definition => Definition.toJson
  | column => Column.toJson
  | snapshot => Snapshot.toJson
  | changeKind => ChangeKind.toJson
  | rename => Rename.toJson
  | redefinition => Redefinition.toJson
  | change => Change.toJson
  | version => Version.toJson
  | summary => Summary.toJson
  | report => Report.toJson
  | grammar => Grammar.toJson
  | preset => Preset.toJson
  | grammarSettings => GrammarSettings.toJson
  | config => Config.toJson

def ofJson? : (model : Model) → Json → Option model.Carrier
  | definitionText => Json.string?
  | token => Token.ofJson?
  | definition => Definition.ofJson?
  | column => Column.ofJson?
  | snapshot => Snapshot.ofJson?
  | changeKind => ChangeKind.ofJson?
  | rename => Rename.ofJson?
  | redefinition => Redefinition.ofJson?
  | change => Change.ofJson?
  | version => Version.ofJson?
  | summary => Summary.ofJson?
  | report => Report.ofJson?
  | grammar => Grammar.ofJson?
  | preset => Preset.ofJson?
  | grammarSettings => GrammarSettings.ofJson?
  | config => Config.ofJson?

/-- Reads a value from a JSON text. -/
def read? (model : Model) (text : String) : Option model.Carrier := do
  model.ofJson? (← Json.ofText? text)

/-- Writes a value without white space. -/
def write (model : Model) (value : model.Carrier) : String :=
  (model.toJson value).compact

end Model

end TableDelta
