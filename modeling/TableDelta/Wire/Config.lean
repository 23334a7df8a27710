import TableDelta.Config.Basic
import TableDelta.Wire.Definition
/-!
# JSON form of configurations

Whatever is absent takes its default: the pipe preset, and the separators of the preset.
Absent separators are not written, and null is read as one.
-/
namespace TableDelta

namespace Preset

def toJson (preset : Preset) : Json := .string preset.name

def ofJson? (json : Json) : Option Preset := do
  ofName? (← json.variant? Json.isNull)

end Preset

namespace GrammarSettings

def memberNames : List String := "preset" :: Grammar.memberNames

/-- The member of a separator, if there is one. -/
def separatorMember (name : String) (separator : Option Char) : List (String × Json) :=
  separator.toList.map fun c => (name, .string (String.singleton c))

def toJson (settings : GrammarSettings) : Json :=
  .object (("preset", settings.preset.toJson) ::
    (separatorMember "clause_separator" settings.clauseSeparator ++
      separatorMember "option_separator" settings.optionSeparator ++
      separatorMember "value_separator" settings.valueSeparator))

/-- Reads a separator that may be absent or null. -/
def separator? : Option Json → Option (Option Char)
  | none => some none
  | some .null => some none
  | some json => json.char?.map some

/-- Reads a preset that may be absent, but not null. -/
def preset? : Option Json → Option Preset
  | none => some .pipe
  | some json => Preset.ofJson? json

/-- Reads grammar settings. -/
def ofJson? (json : Json) : Option GrammarSettings := do
  match ← json.slots? memberNames with
  | [preset, clause, option, value] =>
    return ⟨← preset? preset, ← separator? clause, ← separator? option, ← separator? value⟩
  | _ => none

end GrammarSettings

namespace Config

def toJson (config : Config) : Json := .object [("grammar", config.grammar.toJson)]

/-- Reads a configuration, without checking its grammar. -/
def ofJson? (json : Json) : Option Config := do
  match ← json.slots? ["grammar"] with
  | [some grammar] => return ⟨← GrammarSettings.ofJson? grammar⟩
  | [none] => return default
  | _ => none

end Config

end TableDelta
