import TableDelta.Definition.Grammar
import TableDelta.Proofs.Text.Blank
/-!
# Words of a definition

A word is what a clause can hold as a unit: some text without blanks at its ends and
without the separators of clauses and options. Every word of a definition is one, and
words that are joined by the clause separator are read back as they are. Nothing is assumed
about the separators, which may be blank or coincide.
-/
namespace TableDelta.Grammar

/-- A text that can stand as a clause of its own and is then its one word. -/
structure IsWord (grammar : Grammar) (word : List Char) : Prop where
  nonempty : word ≠ []
  trimmed : Text.IsTrimmed word
  noClause : grammar.clauseSeparator ∉ word
  noOption : grammar.optionSeparator ∉ word

instance (grammar : Grammar) (word : List Char) : Decidable (grammar.IsWord word) :=
  decidable_of_iff (word ≠ [] ∧ Text.IsTrimmed word ∧ grammar.clauseSeparator ∉ word ∧
      grammar.optionSeparator ∉ word)
    ⟨fun h => ⟨h.1, h.2.1, h.2.2.1, h.2.2.2⟩,
      fun h => ⟨h.nonempty, h.trimmed, h.noClause, h.noOption⟩⟩

variable {grammar : Grammar}

private theorem mem_of_mem_splitOnP {α : Type} {p : α → Bool} {xs piece : List α}
    (h : piece ∈ xs.splitOnP p) {x : α} (hx : x ∈ piece) : x ∈ xs ∧ p x = false := by
  induction xs generalizing piece with
  | nil =>
    rw [List.splitOnP_nil, List.mem_singleton] at h
    simp [h] at hx
  | cons first rest ih =>
    rw [List.splitOnP_cons_eq_if_modifyHead] at h
    split at h
    · rcases List.mem_cons.mp h with rfl | h
      · exact absurd hx List.not_mem_nil
      · exact ⟨List.mem_cons_of_mem first (ih h hx).1, (ih h hx).2⟩
    · next hfirst =>
      -- no separator: the entry joins the piece that the rest starts with
      obtain ⟨head, pieces, hrest⟩ := List.exists_cons_of_ne_nil (List.splitOnP_ne_nil p rest)
      rw [hrest, List.modifyHead_cons] at h
      rw [hrest] at ih
      rcases List.mem_cons.mp h with rfl | h
      · rcases List.mem_cons.mp hx with rfl | hx
        · exact ⟨List.mem_cons_self, by simpa using hfirst⟩
        · have hm := ih List.mem_cons_self hx
          exact ⟨List.mem_cons_of_mem first hm.1, hm.2⟩
      · have hm := ih (List.mem_cons_of_mem head h) hx
        exact ⟨List.mem_cons_of_mem first hm.1, hm.2⟩

private theorem mem_word {segment w : List Char} (h : w ∈ word segment) :
    w = Text.trim segment ∧ w ≠ [] := by
  unfold word at h
  split at h
  · exact absurd h List.not_mem_nil
  · next htrim =>
    rw [List.mem_singleton.mp h, htrim]
    exact ⟨rfl, List.cons_ne_nil _ _⟩

theorem word_of_isTrimmed {w : List Char} (hne : w ≠ []) (ht : Text.IsTrimmed w) :
    word w = [w] := by
  unfold word
  rw [ht.trim_eq]
  cases w with
  | nil => exact absurd rfl hne
  | cons c cs => rfl

private theorem exists_segment_of_mem_clauseWords {clause w : List Char}
    (h : w ∈ grammar.clauseWords clause) :
    ∃ segment, w ∈ word segment ∧ ∀ c ∈ segment, c ∈ clause ∧ c ≠ grammar.optionSeparator := by
  have hpiece : ∀ piece ∈ clause.splitOnP (· == grammar.optionSeparator), ∀ c ∈ piece,
      c ∈ clause ∧ c ≠ grammar.optionSeparator := by
    intro piece hpiece c hc
    have hm := mem_of_mem_splitOnP hpiece hc
    exact ⟨hm.1, by simpa using hm.2⟩
  unfold clauseWords at h
  split at h
  · exact absurd h List.not_mem_nil
  · next key lists hsplit =>
    rw [hsplit] at hpiece
    rcases List.mem_append.mp h with h | h
    · exact ⟨key, h, hpiece key List.mem_cons_self⟩
    · obtain ⟨values, hvalues, h⟩ := List.mem_flatMap.mp h
      obtain ⟨segment, hsegment, h⟩ := List.mem_flatMap.mp h
      refine ⟨segment, h, ?_⟩
      intro c hc
      exact hpiece values (List.mem_cons_of_mem key hvalues) c (mem_of_mem_splitOnP hsegment hc).1

theorem isWord_of_mem_words {definition w : List Char} (h : w ∈ grammar.words definition) :
    grammar.IsWord w := by
  obtain ⟨clause, hclause, h⟩ := List.mem_flatMap.mp h
  obtain ⟨segment, h, hsegment⟩ := exists_segment_of_mem_clauseWords h
  obtain ⟨rfl, hne⟩ := mem_word h
  refine ⟨hne, Text.isTrimmed_trim segment, ?_, ?_⟩
  · intro hc
    have hm := (hsegment _ (Text.mem_of_mem_trim hc)).1
    exact absurd (mem_of_mem_splitOnP hclause hm).2 (by simp)
  · intro hc
    exact (hsegment _ (Text.mem_of_mem_trim hc)).2 rfl

private theorem mem_of_mem_words {definition w : List Char} (h : w ∈ grammar.words definition)
    {c : Char} (hc : c ∈ w) : c ∈ definition := by
  obtain ⟨clause, hclause, h⟩ := List.mem_flatMap.mp h
  obtain ⟨segment, h, hsegment⟩ := exists_segment_of_mem_clauseWords h
  rw [(mem_word h).1] at hc
  exact (mem_of_mem_splitOnP hclause (hsegment c (Text.mem_of_mem_trim hc)).1).1

/-- Blanks alone make no word, also where they are separators. -/
theorem words_eq_nil_of_blank {definition : List Char}
    (h : ∀ c ∈ definition, Text.isBlank c = true) : grammar.words definition = [] := by
  rw [List.eq_nil_iff_forall_not_mem]
  intro w hw
  have hword := isWord_of_mem_words hw
  obtain ⟨c, rest, rfl⟩ := List.exists_cons_of_ne_nil hword.nonempty
  have hblank := h c (mem_of_mem_words hw List.mem_cons_self)
  rw [hword.trimmed.first c rfl] at hblank
  exact Bool.noConfusion hblank

theorem clauseWords_of_not_mem {clause : List Char} (h : grammar.optionSeparator ∉ clause) :
    grammar.clauseWords clause = word clause := by
  have hsplit : clause.splitOnP (· == grammar.optionSeparator) = [clause] :=
    List.splitOn_eq_singleton h
  rw [clauseWords, hsplit]
  exact List.append_nil _

theorem IsWord.clauseWords_eq {w : List Char} (h : grammar.IsWord w) :
    grammar.clauseWords w = [w] := by
  rw [clauseWords_of_not_mem h.noOption, word_of_isTrimmed h.nonempty h.trimmed]

private theorem flatMap_clauseWords {ws : List (List Char)} (h : ∀ w ∈ ws, grammar.IsWord w) :
    ws.flatMap grammar.clauseWords = ws := by
  induction ws with
  | nil => rfl
  | cons w ws ih =>
    have hw := (h w List.mem_cons_self).clauseWords_eq
    have hws := ih fun v hv => h v (List.mem_cons_of_mem w hv)
    rw [List.flatMap_cons, hw, hws, List.singleton_append]

theorem words_intercalate {ws : List (List Char)} (h : ∀ w ∈ ws, grammar.IsWord w) :
    grammar.words ([grammar.clauseSeparator].intercalate ws) = ws := by
  by_cases hnil : ws = []
  · rw [hnil]
    rfl
  · have hsplit : ([grammar.clauseSeparator].intercalate ws).splitOnP
        (· == grammar.clauseSeparator) = ws :=
      List.splitOn_intercalate grammar.clauseSeparator (fun w hw => (h w hw).noClause) hnil
    rw [words, hsplit, flatMap_clauseWords h]

theorem parse_eq_of_words_eq {text other : String}
    (h : grammar.words text.toList = grammar.words other.toList) :
    grammar.parse text = grammar.parse other := by
  rw [parse, parse, h]

/-! ## The default reference -/

theorem mem_withReference {ws : List (List Char)} {w : List Char} (h : w ∈ withReference ws) :
    w ∈ ws ∨ w = Token.references.text.toList ∨ w = defaultReference.toList := by
  unfold withReference at h
  split at h
  · simpa using h
  · exact Or.inl h

theorem mem_withReference_of_mem {ws : List (List Char)} {w : List Char} (h : w ∈ ws) :
    w ∈ withReference ws := by
  unfold withReference
  split
  · exact List.mem_append_left _ h
  · exact h

theorem references_mem_withReference {ws : List (List Char)}
    (h : Token.on.text.toList ∈ withReference ws) :
    Token.references.text.toList ∈ withReference ws := by
  have hon : Token.on.text.toList ∈ ws := by
    rcases mem_withReference h with h | h | h
    · exact h
    · exact absurd h (by decide)
    · exact absurd h (by decide)
  unfold withReference
  by_cases hreferences : Token.references.text.toList ∈ ws
  · simp [hreferences]
  · simp [hon, hreferences]

theorem withReference_of_mem {ws : List (List Char)}
    (h : Token.on.text.toList ∈ ws → Token.references.text.toList ∈ ws) :
    withReference ws = ws := by
  unfold withReference
  by_cases hon : Token.on.text.toList ∈ ws
  · have hreferences := h hon
    simp [hreferences]
  · simp [hon]

theorem withReference_perm {ws vs : List (List Char)} (h : ws.Perm vs) :
    (withReference ws).Perm (withReference vs) := by
  unfold withReference
  rw [h.contains_eq, h.contains_eq]
  split
  · exact h.append_right _
  · exact h

end TableDelta.Grammar
