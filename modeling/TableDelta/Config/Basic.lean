import TableDelta.Definition.Grammar
/-!
# Configuration

A configuration chooses the grammar of column definitions: a preset, and separators
that override those of the preset. Only three distinct separators that are not blank
make a grammar to work with.
-/
namespace TableDelta

/-- A named set of separators. -/
inductive Preset where
  | pipe
  | comma
  deriving DecidableEq, Repr

namespace Preset

def name : Preset → String
  | pipe => "pipe"
  | comma => "comma"

def ofName? (name : String) : Option Preset :=
  [pipe, comma].find? fun preset => preset.name == name

def grammar : Preset → Grammar
  | pipe => .pipe
  | comma => .comma

end Preset

/-- A preset and the separators that override it. -/
structure GrammarSettings where
  preset : Preset
  clauseSeparator : Option Char
  optionSeparator : Option Char
  valueSeparator : Option Char
  deriving DecidableEq, Repr

structure Config where
  grammar : GrammarSettings
  deriving DecidableEq, Repr

/-- Why there is no configuration to work with. -/
inductive ConfigError where
  /-- The file cannot be read or written. -/
  | inaccessible
  /-- The text is no configuration. -/
  | malformed
  /-- The separators cannot be told apart or are blank. -/
  | invalidGrammar (grammar : Grammar)
  deriving DecidableEq, Repr

/-- What is reported of an error. -/
def ConfigError.message : ConfigError → String
  | inaccessible => "IO error"
  | malformed => "Parse error"
  | invalidGrammar grammar =>
    "Invalid grammar: separators must be distinct non-whitespace characters (clause '"
      ++ String.singleton grammar.clauseSeparator ++ "', option '"
      ++ String.singleton grammar.optionSeparator ++ "', value '"
      ++ String.singleton grammar.valueSeparator ++ "')"

namespace GrammarSettings

def default : GrammarSettings := ⟨.pipe, none, none, none⟩

/-- The separators of the preset, overridden by the given ones. -/
def effective (settings : GrammarSettings) : Grammar where
  clauseSeparator := settings.clauseSeparator.getD settings.preset.grammar.clauseSeparator
  optionSeparator := settings.optionSeparator.getD settings.preset.grammar.optionSeparator
  valueSeparator := settings.valueSeparator.getD settings.preset.grammar.valueSeparator

/-- The effective grammar, if it is valid. -/
def grammar (settings : GrammarSettings) : Except ConfigError Grammar :=
  if settings.effective.isValid then .ok settings.effective
  else .error (.invalidGrammar settings.effective)

end GrammarSettings

def Config.default : Config := ⟨.default⟩

end TableDelta
