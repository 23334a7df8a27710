import TableDelta.Proofs.Wire.Definition
import TableDelta.Wire.Config
/-!
# Reading back configurations

A separator that is absent is not written, and what is not written is read as absent. So
grammar settings are read back whichever of their separators are given.
-/
namespace TableDelta

namespace Preset

theorem ofName?_name (preset : Preset) : ofName? preset.name = some preset := by
  cases preset <;> rfl

theorem ofJson?_toJson (preset : Preset) : ofJson? preset.toJson = some preset :=
  preset.ofName?_name

end Preset

namespace GrammarSettings

/-- The JSON form of a separator that may be absent. -/
def separatorJson (separator : Option Char) : Option Json :=
  separator.map fun c => .string (String.singleton c)

private theorem separator?_separatorJson (separator : Option Char) :
    separator? (separatorJson separator) = some separator := by
  cases separator with
  | none => rfl
  | some c =>
    show (Json.string (String.singleton c)).char?.map some = some (some c)
    rw [Json.char?_singleton]
    rfl

private theorem slots?_toJson (settings : GrammarSettings) :
    settings.toJson.slots? memberNames =
      some [some settings.preset.toJson, separatorJson settings.clauseSeparator,
        separatorJson settings.optionSeparator, separatorJson settings.valueSeparator] := by
  obtain ⟨preset, clause, option, value⟩ := settings
  cases clause <;> cases option <;> cases value <;> rfl

theorem ofJson?_toJson (settings : GrammarSettings) :
    ofJson? settings.toJson = some settings := by
  rw [ofJson?, slots?_toJson]
  simp [preset?, Preset.ofJson?_toJson, separator?_separatorJson]

theorem isStableAt_toJson {depth : Nat} (hd : depth < Json.maxDepth)
    (settings : GrammarSettings) : settings.toJson.isStableAt depth = true := by
  apply Json.isStableAt_object hd
  intro member hmember
  simp only [separatorMember, List.mem_cons, List.mem_append, List.mem_map] at hmember
  rcases hmember with rfl | (⟨c, _, rfl⟩ | ⟨c, _, rfl⟩) | ⟨c, _, rfl⟩
  · rfl
  · rfl
  · rfl
  · rfl

end GrammarSettings

namespace Config

theorem ofJson?_toJson (config : Config) : ofJson? config.toJson = some config := by
  have hslots : Json.slots? ["grammar"] config.toJson = some [some config.grammar.toJson] :=
    Json.provides_object (show ["grammar"].Nodup by decide)
  rw [ofJson?, hslots]
  simp [GrammarSettings.ofJson?_toJson]

theorem isStableAt_toJson {depth : Nat} (hd : depth + 1 < Json.maxDepth) (config : Config) :
    config.toJson.isStableAt depth = true := by
  apply Json.isStableAt_object (Nat.lt_of_succ_lt hd)
  intro member hmember
  rw [List.mem_singleton.mp hmember]
  exact config.grammar.isStableAt_toJson hd

end Config

end TableDelta
