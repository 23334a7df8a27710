import TableDelta.Proofs.Definition.Clauses
import TableDelta.Proofs.Definition.Image
/-!
# Writing out the default reference

A foreign key whose definition names no column refers to the default one. Writing that
reference out leaves the definition as it is, whatever stands in front of the foreign key,
with one exception: a table that is called like the clause of a reference passes for one, so
that nothing is filled in for it.
-/
namespace TableDelta.Grammar

def separators (grammar : Grammar) : List Char :=
  [grammar.clauseSeparator, grammar.optionSeparator, grammar.valueSeparator]

/-- No separator occurs in a text. -/
def Spares (grammar : Grammar) (text : String) : Prop :=
  ∀ c ∈ grammar.separators, c ∉ text.toList

instance (grammar : Grammar) (text : String) : Decidable (grammar.Spares text) :=
  decidable_of_iff ((grammar.separators.all fun c => !text.toList.contains c) = true) <| by
    simp [Spares]

/-- A text that is one word wherever it stands: neither blanks nor separators are in it. -/
structure IsPlain (grammar : Grammar) (text : String) : Prop where
  nonempty : text ≠ ""
  noBlank : ∀ c ∈ text.toList, Text.isBlank c = false
  noSeparator : grammar.Spares text

instance (grammar : Grammar) (text : String) : Decidable (grammar.IsPlain text) :=
  decidable_of_iff (text ≠ "" ∧ (text.toList.all fun c => !Text.isBlank c) = true ∧
      grammar.Spares text) <| by
    simp only [List.all_eq_true, Bool.not_eq_true']
    exact ⟨fun h => ⟨h.1, h.2.1, h.2.2⟩, fun h => ⟨h.nonempty, h.noBlank, h.noSeparator⟩⟩

/-- A definition with one more clause at its end, which has a key and a value. -/
def addClause (grammar : Grammar) (text key value : String) : String :=
  text ++ String.singleton grammar.clauseSeparator ++ key ++
    String.singleton grammar.optionSeparator ++ value

/-- A definition with a foreign key at its end that names a table alone. -/
def addForeignKey (grammar : Grammar) (text table : String) : String :=
  grammar.addClause text "on" table

/-- A definition with a foreign key at its end, whose reference is written out. -/
def addForeignKeyToId (grammar : Grammar) (text table : String) : String :=
  grammar.addClause (grammar.addClause text "on" table) "references" "id"

/-- The words that a foreign key is written with, but for its table. -/
def foreignKeyWords : List String := ["on", "references", "id"]

variable {grammar : Grammar} {text table key value : String} {ws : List (List Char)}

private theorem IsPlain.isWord (h : grammar.IsPlain text) : grammar.IsWord text.toList where
  nonempty := fun hnil => h.nonempty (String.toList_eq_nil_iff.mp hnil)
  trimmed := ⟨fun c hc => h.noBlank c (List.mem_of_head? hc),
    fun c hc => h.noBlank c (List.mem_of_getLast? hc)⟩
  noClause := h.noSeparator _ (by simp [separators])
  noOption := h.noSeparator _ (by simp [separators])

private theorem IsPlain.wordsFrom_values_eq (h : grammar.IsPlain text) :
    grammar.wordsFrom .values text.toList = [text.toList] := by
  have hvalue : ∀ c ∈ text.toList, grammar.partsValues c = false := by
    intro c hc
    have hne : c ≠ grammar.valueSeparator := by
      rintro rfl
      exact h.noSeparator _ (by simp [separators]) hc
    simp [partsValues, hne, h.noBlank c hc]
  rw [wordsFrom_of_not_mem h.isWord.noClause, partWords_values_of_not_mem h.isWord.noOption,
    valueWords_of_forall hvalue, word_of_isTrimmed h.isWord.nonempty h.isWord.trimmed]

private theorem words_addClause (hne : grammar.optionSeparator ≠ grammar.clauseSeparator)
    (hkey : grammar.IsPlain key) (hvalue : grammar.IsPlain value) (text : String) :
    grammar.words (grammar.addClause text key value).toList =
      grammar.words text.toList ++ [key.toList, value.toList] := by
  have htext : (grammar.addClause text key value).toList = text.toList ++
      grammar.clauseSeparator :: (key.toList ++ grammar.optionSeparator :: value.toList) := by
    simp [addClause]
  rw [htext, words_append_clause, ← wordsFrom_key grammar (key.toList ++ _),
    wordsFrom_append_option hne, wordsFrom_key, hkey.isWord.words_eq,
    hvalue.wordsFrom_values_eq]
  rfl

/-! ## Filling in the default -/

theorem withReference_of_not_mem (hon : Token.on.text.toList ∈ ws)
    (hreferences : Token.references.text.toList ∉ ws) :
    withReference ws = ws ++ [Token.references.text.toList, defaultReference.toList] := by
  unfold withReference
  rw [if_pos (by simp [hon, hreferences])]

private theorem withReference_append_on (hws : Token.references.text.toList ∉ ws)
    (htable : table ≠ Token.references.text) :
    withReference (ws ++ [Token.on.text.toList, table.toList]) =
      withReference (ws ++ [Token.on.text.toList, table.toList] ++
        [Token.references.text.toList, defaultReference.toList]) := by
  have hspelling : Token.references.text.toList ≠ table.toList := fun he =>
    htable (String.toList_inj.mp he).symm
  rw [withReference_of_not_mem (by simp), withReference_of_mem fun _ => by simp]
  simp only [List.mem_append, List.mem_cons, List.not_mem_nil, or_false, not_or]
  exact ⟨hws, by decide, hspelling⟩

private theorem isPlain_of_spares (h : ∀ word ∈ foreignKeyWords, grammar.Spares word) :
    grammar.IsPlain "on" ∧ grammar.IsPlain "references" ∧ grammar.IsPlain "id" := by
  have hplain : ∀ word ∈ foreignKeyWords, grammar.IsPlain word := by
    intro word hword
    have hletters : word ≠ "" ∧ (word.toList.all fun c => !Text.isBlank c) = true := by
      revert word
      decide
    have hblank : ∀ c ∈ word.toList, Text.isBlank c = false := by
      simpa only [List.all_eq_true, Bool.not_eq_true'] using hletters.2
    exact ⟨hletters.1, hblank, h word hword⟩
  exact ⟨hplain _ (by decide), hplain _ (by decide), hplain _ (by decide)⟩

private theorem parse_addForeignKey_of_ne (hne : grammar.optionSeparator ≠ grammar.clauseSeparator)
    (hwords : ∀ word ∈ foreignKeyWords, grammar.Spares word)
    (htext : .references ∉ (grammar.parse text).tokens) (hplain : grammar.IsPlain table)
    (htable : table ≠ "references") :
    grammar.parse (grammar.addForeignKey text table) =
      grammar.parse (grammar.addForeignKeyToId text table) := by
  obtain ⟨hon, hreferences, hid⟩ := isPlain_of_spares hwords
  have hfilled := withReference_append_on (text_not_mem_words rfl htext) htable
  rw [parse, parse, addForeignKeyToId, words_addClause hne hreferences hid, addForeignKey,
    words_addClause hne hon hplain]
  exact congrArg (fun ws => Definition.ofTokens (ws.map fun w => Token.ofText (String.ofList w)))
    hfilled

private theorem size_parse_addForeignKeyToId
    (hne : grammar.optionSeparator ≠ grammar.clauseSeparator)
    (hwords : ∀ word ∈ foreignKeyWords, grammar.Spares word) (text : String) :
    (grammar.parse (grammar.addForeignKeyToId text "references")).size =
      (grammar.parse (grammar.addForeignKey text "references")).size + 2 := by
  obtain ⟨hon, hreferences, hid⟩ := isPlain_of_spares hwords
  -- the name of the table passes for a reference, so none is filled in
  have hnamesake : ∀ rest : List (List Char),
      withReference (grammar.words text.toList ++ ["on".toList, "references".toList] ++ rest) =
        grammar.words text.toList ++ ["on".toList, "references".toList] ++ rest := by
    intro rest
    exact withReference_of_mem fun _ => by simp [Token.text]
  have hwritten := hnamesake ["references".toList, "id".toList]
  have hshort := hnamesake []
  rw [List.append_nil] at hshort
  simp only [parse, addForeignKeyToId, addForeignKey, words_addClause hne hreferences hid,
    words_addClause hne hon hreferences, hwritten, hshort, Definition.size,
    (Definition.perm_ofTokens _).length_eq, List.length_map, List.length_append,
    List.length_cons, List.length_nil]

/-- The default reference can be written out behind a foreign key, except for a table that is
called like the clause of a reference. -/
theorem parse_addForeignKey_eq_iff (hvalid : grammar.isValid = true)
    (hwords : ∀ word ∈ foreignKeyWords, grammar.Spares word)
    (htext : .references ∉ (grammar.parse text).tokens) (htable : grammar.IsPlain table) :
    grammar.parse (grammar.addForeignKey text table) =
        grammar.parse (grammar.addForeignKeyToId text table) ↔ table ≠ "references" := by
  have hne := optionSeparator_ne_of_isValid hvalid
  constructor
  · rintro he rfl
    have hsize := size_parse_addForeignKeyToId hne hwords text
    rw [← he] at hsize
    omega
  · exact parse_addForeignKey_of_ne hne hwords htext htable

/-- A table that is called like a modifier, behind a definition in the comma grammar. -/
theorem parse_addForeignKey_eq_iff_on :
    Grammar.comma.isValid = true ∧
    (∀ word ∈ foreignKeyWords, Grammar.comma.Spares word) ∧
    .references ∉ (Grammar.comma.parse "enum=a;b, unique").tokens ∧
    Grammar.comma.IsPlain "on" ∧
    Grammar.comma.parse "enum=a;b, unique,on=on" =
      Grammar.comma.parse "enum=a;b, unique,on=on,references=id" := by
  have hwords : ∀ word ∈ foreignKeyWords, Grammar.comma.Spares word := by decide
  have htext : .references ∉ (Grammar.comma.parse "enum=a;b, unique").tokens := by
    rw [parse, Definition.mem_ofTokens]
    decide
  have hplain : Grammar.comma.IsPlain "on" := by decide
  exact ⟨by decide, hwords, htext, hplain,
    (parse_addForeignKey_eq_iff (by decide) hwords htext hplain).mpr (by decide)⟩

/-- Not behind every foreign key the default reference can be written out. -/
theorem not_forall_parse_addForeignKey_eq :
    ¬ ∀ (grammar : Grammar) (text table : String), grammar.isValid = true →
      (∀ word ∈ foreignKeyWords, grammar.Spares word) →
      .references ∉ (grammar.parse text).tokens → grammar.IsPlain table →
      grammar.parse (grammar.addForeignKey text table) =
        grammar.parse (grammar.addForeignKeyToId text table) := by
  intro hall
  have hwords : ∀ word ∈ foreignKeyWords, Grammar.pipe.Spares word := by decide
  have htext : .references ∉ (Grammar.pipe.parse "foreignId").tokens := by
    rw [parse, Definition.mem_ofTokens]
    decide
  have he := hall .pipe "foreignId" "references" (by decide) hwords htext (by decide)
  have hsize := size_parse_addForeignKeyToId (by decide) hwords "foreignId"
  rw [← he] at hsize
  omega

end TableDelta.Grammar
