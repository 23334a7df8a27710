import TableDelta.Proofs.Json.Writer
import TableDelta.Proofs.Wire.Config
import TableDelta.Proofs.Wire.Report
import TableDelta.Proofs.Wire.Snapshot
import TableDelta.Wire.Model
/-!
# Canonical texts

Many texts are read as the same value: records may be arrays or have their members in any
order, and columns, tokens and counts may be repeated or unsorted. The compact text that is
written for the value is read as that value again, for every type of `Model`.
-/
namespace TableDelta.Model

variable {model : Model} {value : model.Carrier}

/-- Whether a value is read back from its own JSON form, also through a text. -/
structure Survives (model : Model) (value : model.Carrier) : Prop where
  stable : (model.toJson value).isStableAt 0 = true
  readable : model.ofJson? (model.toJson value) = some value

theorem Survives.read?_write (h : model.Survives value) :
    model.read? (model.write value) = some value := by
  rw [read?, write, Json.ofText?_compact h.stable]
  exact h.readable

private theorem survives_of_ofJson? {json : Json} (h : model.ofJson? json = some value) :
    model.Survives value := by
  cases model with
  | definitionText => exact ⟨rfl, rfl⟩
  | token => exact ⟨Token.isStableAt_toJson (by decide) value, Token.decode?_toJson _ value⟩
  | definition =>
    exact ⟨Definition.isStableAt_toJson (by decide) value, Definition.decode?_toJson _ value⟩
  | column => exact ⟨Column.isStableAt_toJson (by decide) value, Column.ofJson?_toJson value⟩
  | snapshot =>
    exact ⟨Snapshot.isStableAt_toJson (by decide) value, Snapshot.ofJson?_toJson value⟩
  | changeKind => exact ⟨rfl, ChangeKind.ofJson?_toJson value⟩
  | rename =>
    exact ⟨Json.isStableAt_object (by decide) fun _ => value.isStableAt_of_mem_members,
      Rename.ofJson?_toJson value⟩
  | redefinition =>
    have hindex := Redefinition.index_lt_of_decode? h
    exact ⟨Json.isStableAt_object (by decide) fun _ =>
      Redefinition.isStableAt_of_mem_members (by decide) hindex,
      Redefinition.ofJson?_toJson hindex⟩
  | change =>
    have hchange := Change.isEncodable_of_ofJson? h
    exact ⟨Change.isStableAt_toJson (by decide) hchange, Change.ofJson?_toJson hchange⟩
  | version =>
    have hversion := Version.isEncodable_of_ofJson? h
    exact ⟨Version.isStableAt_toJson (by decide) hversion, Version.ofJson?_toJson hversion⟩
  | summary =>
    have hsummary := Summary.isEncodable_of_ofJson? h
    exact ⟨Summary.isStableAt_toJson (by decide) hsummary, Summary.ofJson?_toJson hsummary⟩
  | report =>
    have hreport := Report.isEncodable_of_ofJson? h
    exact ⟨Report.isStableAt_toJson hreport, Report.ofJson?_toJson hreport⟩
  | grammar => exact ⟨Grammar.isStableAt_toJson (by decide) value, Grammar.ofJson?_toJson value⟩
  | preset => exact ⟨rfl, Preset.ofJson?_toJson value⟩
  | grammarSettings =>
    exact ⟨GrammarSettings.isStableAt_toJson (by decide) value,
      GrammarSettings.ofJson?_toJson value⟩
  | config => exact ⟨Config.isStableAt_toJson (by decide) value, Config.ofJson?_toJson value⟩

private theorem survives_of_read? {text : String} (h : model.read? text = some value) :
    model.Survives value := by
  rw [read?, Option.bind_eq_bind, Option.bind_eq_some_iff] at h
  obtain ⟨json, -, hjson⟩ := h
  exact survives_of_ofJson? hjson

/-- Whatever text a value was read from, its own text is read as that value, and writing what
was read from it gives the same text again. -/
theorem read?_write_of_read? {model : Model} {text : String} {value : model.Carrier}
    (h : model.read? text = some value) :
    model.read? (model.write value) = some value ∧
      (model.read? (model.write value)).map model.write = some (model.write value) := by
  have hread := (survives_of_read? h).read?_write
  refine ⟨hread, ?_⟩
  rw [hread]
  rfl

/-- A text that lists a snapshot as an array, with a column that is declared twice, once with
its members in another order and one too many. -/
def repeatedColumnText : String :=
  "[\"t\", [[\"a\", \"x\"], \x7b\"schema\": \"y\\u007c\", \"size\": null, \"name\": \"a\"\x7d]]"

theorem read?_write_of_read?_repeatedColumn :
    snapshot.read? repeatedColumnText = some (.ofColumns "t" [⟨"a", "x"⟩, ⟨"a", "y|"⟩]) ∧
    snapshot.read? (snapshot.write (.ofColumns "t" [⟨"a", "x"⟩, ⟨"a", "y|"⟩])) =
      some (.ofColumns "t" [⟨"a", "x"⟩, ⟨"a", "y|"⟩]) := by
  have hread : snapshot.read? repeatedColumnText =
      some (.ofColumns "t" [⟨"a", "x"⟩, ⟨"a", "y|"⟩]) := by decide +kernel
  exact ⟨hread, (read?_write_of_read? hread).1⟩

end TableDelta.Model
