import TableDelta.Proofs.Toml.Lines
import TableDelta.Proofs.Toml.Table
import TableDelta.Proofs.Wire.Config
/-!
# Reading back configuration files

Whatever its separators are, a configuration is written as a document that holds them. So
it is read back unless its grammar is refused, and the grammar that is refused is the one
it was written with.
-/
namespace TableDelta

theorem Toml.char?_singleton (c : Char) : (Toml.string (String.singleton c)).char? = some c := by
  simp [Toml.char?]

namespace GrammarSettings

/-- The TOML form of a separator that may be absent. -/
def separatorToml (separator : Option Char) : Option Toml :=
  separator.map fun c => .string (String.singleton c)

private theorem separatorOfToml?_separatorToml (separator : Option Char) :
    separatorOfToml? (separatorToml separator) = some separator := by
  cases separator with
  | none => rfl
  | some c =>
    show (Toml.string (String.singleton c)).char?.map some = some (some c)
    rw [Toml.char?_singleton]
    rfl

/-- The member of a separator, if it is given. -/
def separatorEntries (key : String) (separator : Option Char) : List (String × Toml) :=
  (separatorToml separator).toList.map fun toml => (key, toml)

/-- The members of the table in which grammar settings are kept. -/
def entries (settings : GrammarSettings) : List (String × Toml) :=
  ("preset", .string settings.preset.name) ::
    (separatorEntries "clause_separator" settings.clauseSeparator ++
      separatorEntries "option_separator" settings.optionSeparator ++
      separatorEntries "value_separator" settings.valueSeparator)

private theorem nodup_entries (settings : GrammarSettings) :
    (settings.entries.map Prod.fst).Nodup := by
  obtain ⟨preset, clause, option, value⟩ := settings
  cases clause <;> cases option <;> cases value <;>
    simp [entries, separatorEntries, separatorToml]

private theorem slots?_entries (settings : GrammarSettings) :
    (Toml.table settings.entries).slots?
        ["preset", "clause_separator", "option_separator", "value_separator"] =
      some [some (.string settings.preset.name), separatorToml settings.clauseSeparator,
        separatorToml settings.optionSeparator, separatorToml settings.valueSeparator] := by
  obtain ⟨preset, clause, option, value⟩ := settings
  cases clause <;> cases option <;> cases value <;> rfl

private theorem ofToml?_entries (settings : GrammarSettings) :
    ofToml? (.table settings.entries) = some settings := by
  rw [ofToml?, slots?_entries]
  simp [presetOfToml?, Toml.variant?, Preset.ofName?_name, separatorOfToml?_separatorToml]

end GrammarSettings

namespace Config

open GrammarSettings

private theorem lines?_writeSeparator {key : String} (hkey : Toml.IsBare key)
    (separator : Option Char) {rest : List Char} {lines : List Toml.Line}
    (hrest : Toml.lines? rest = some lines) :
    Toml.lines? (writeSeparator key separator ++ rest) =
      some ((separatorEntries key separator).map Toml.entryLine ++ lines) := by
  cases separator with
  | none => exact hrest
  | some c =>
    have hwrites := Toml.writes_writeChar c
    have hlines := Toml.lines?_writeLine hkey (fun _ => hwrites.isSpace_of_mem_head?)
      (hwrites.readValue Toml.maxDepth rest) hrest
    simpa [writeSeparator, separatorEntries, separatorToml, Toml.entryLine] using hlines

private theorem readValue_presetName (preset : Preset) (rest : List Char) :
    Toml.readValue Toml.maxDepth ('"' :: preset.name.toList ++ ['"'] ++ '\n' :: rest) =
      some (.string preset.name, '\n' :: rest) := by
  cases preset
  · rfl
  · rfl

private theorem toList_text (config : Config) :
    config.text.toList = '[' :: ("grammar".toList ++ ']' :: '\n' ::
      (Toml.writeLine "preset" ('"' :: config.grammar.preset.name.toList ++ ['"']) ++
        (writeSeparator "clause_separator" config.grammar.clauseSeparator ++
          (writeSeparator "option_separator" config.grammar.optionSeparator ++
            (writeSeparator "value_separator" config.grammar.valueSeparator ++ []))))) := by
  have hheading : "[grammar]\n".toList = '[' :: ("grammar".toList ++ [']', '\n']) := by decide
  unfold text
  rw [String.toList_ofList, hheading]
  simp only [List.cons_append, List.append_assoc, List.nil_append, List.append_nil]

private theorem lines?_text (config : Config) :
    Toml.lines? config.text.toList =
      some (.table ["grammar"] :: config.grammar.entries.map Toml.entryLine) := by
  have hvalue := lines?_writeSeparator (show Toml.IsBare "value_separator" by decide)
    config.grammar.valueSeparator Toml.lines?_nil
  have hoption := lines?_writeSeparator (show Toml.IsBare "option_separator" by decide)
    config.grammar.optionSeparator hvalue
  have hclause := lines?_writeSeparator (show Toml.IsBare "clause_separator" by decide)
    config.grammar.clauseSeparator hoption
  have hquote : ∀ c ∈ ('"' :: config.grammar.preset.name.toList ++ ['"']).head?,
      Toml.isSpace c = false := by
    intro c hc
    cases hc
    decide
  have hpreset := Toml.lines?_writeLine (show Toml.IsBare "preset" by decide) hquote
    (readValue_presetName config.grammar.preset _) hclause
  rw [toList_text, Toml.lines?_heading (by decide) hpreset]
  simp [entries, Toml.entryLine]

theorem ofText?_text (config : Config) :
    Toml.ofText? config.text = some (.table [("grammar", .table config.grammar.entries)]) := by
  have hmark : Toml.skipMark config.text.toList = config.text.toList := by
    rw [toList_text]
    rfl
  rw [Toml.ofText?, hmark, lines?_text]
  exact Toml.ofLines?_heading "grammar" config.grammar.nodup_entries

private theorem ofToml?_table (config : Config) :
    ofToml? (.table [("grammar", .table config.grammar.entries)]) = some config := by
  have hslots : (Toml.table [("grammar", .table config.grammar.entries)]).slots? ["grammar"] =
      some [some (.table config.grammar.entries)] := rfl
  rw [ofToml?, hslots]
  simp [config.grammar.ofToml?_entries]

theorem ofText_text (config : Config) :
    ofText config.text = config.grammar.grammar.map fun _ => config := by
  have hread : (Toml.ofText? config.text).bind ofToml? = some config := by
    rw [ofText?_text]
    exact config.ofToml?_table
  unfold ofText
  simp only [hread]
  cases config.grammar.grammar <;> rfl

end Config

end TableDelta
