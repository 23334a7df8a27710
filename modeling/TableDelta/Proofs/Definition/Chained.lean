import TableDelta.Proofs.Definition.Blanks
/-!
# Chained options

A clause may be attached to the one in front of it as an option. What the two ways of writing
differ in is the text up to the next separator of clauses or options, which is a key behind a
separator of clauses and a list of values behind one of options; from there on both are read
alike. `parse_chained` shows that they are one definition when that text is a single value.
-/
namespace TableDelta.Grammar

/-- The text in front of the first separator of clauses or options. -/
def head (grammar : Grammar) (text : List Char) : List Char :=
  text.takeWhile fun c => !grammar.endsKey c

variable {grammar : Grammar} {x y : List Char}

private theorem not_mem_head {c : Char} (hc : grammar.endsKey c = true) (y : List Char) :
    c ∉ grammar.head y := by
  intro hm
  have hfree := List.all_eq_true.mp List.all_takeWhile c hm
  simp [hc] at hfree

private theorem exists_eq_head_append (grammar : Grammar) (y : List Char) :
    y = grammar.head y ∨
      ∃ c rest, grammar.endsKey c = true ∧ y = grammar.head y ++ c :: rest := by
  have hsplit : grammar.head y ++ y.dropWhile (fun c => !grammar.endsKey c) = y :=
    List.takeWhile_append_dropWhile
  have hends := List.head?_dropWhile_not (fun c => !grammar.endsKey c) y
  cases htail : y.dropWhile fun c => !grammar.endsKey c with
  | nil =>
    rw [htail, List.append_nil] at hsplit
    exact .inl hsplit.symm
  | cons c rest =>
    rw [htail] at hsplit hends
    exact .inr ⟨c, rest, by simpa using hends, hsplit.symm⟩

private theorem valueWords_of_trim (h : ∀ c ∈ Text.trim x, grammar.partsValues c = false) :
    grammar.valueWords x = word x := by
  obtain ⟨before, after, hx, hbefore, hafter⟩ := Text.exists_eq_append_trim x
  calc grammar.valueWords x
      = grammar.valueWords (before ++ Text.trim x ++ after) := by rw [← hx]
    _ = grammar.valueWords (Text.trim x) := by
        rw [valueWords_append_run fun c hc => partsValues_of_isBlank (hafter c hc),
          valueWords_run_append fun c hc => partsValues_of_isBlank (hbefore c hc)]
    _ = word (Text.trim x) := valueWords_of_forall h
    _ = word x := word_congr (Text.isTrimmed_trim x).trim_eq

private theorem wordsFrom_values_of_head (hne : grammar.optionSeparator ≠ grammar.clauseSeparator)
    (h : ∀ c ∈ Text.trim (grammar.head y), grammar.partsValues c = false) :
    grammar.wordsFrom .values y = grammar.wordsFrom .key y := by
  have hclause : grammar.clauseSeparator ∉ grammar.head y := not_mem_head (by simp [endsKey]) y
  have hoption : grammar.optionSeparator ∉ grammar.head y := not_mem_head (by simp [endsKey]) y
  have hhead : grammar.wordsFrom .values (grammar.head y) =
      grammar.wordsFrom .key (grammar.head y) := by
    rw [wordsFrom_of_not_mem hclause, wordsFrom_of_not_mem hclause,
      partWords_values_of_not_mem hoption, valueWords_of_trim h]
    exact (clauseWords_of_not_mem hoption).symm
  cases exists_eq_head_append grammar y with
  | inl hy => rwa [← hy] at hhead
  | inr hy =>
    obtain ⟨c, rest, hc, hy⟩ := hy
    obtain ⟨next, hnext⟩ := exists_part_of_endsKey hne hc
    rw [hy, hnext, hnext, hhead]

private theorem words_option_eq_words_clause (hvalid : grammar.isValid = true)
    (h : ∀ c ∈ Text.trim (grammar.head y), grammar.partsValues c = false) (x : List Char) :
    grammar.words (x ++ grammar.optionSeparator :: y) =
      grammar.words (x ++ grammar.clauseSeparator :: y) := by
  have hne := optionSeparator_ne_of_isValid hvalid
  rw [← wordsFrom_key, ← wordsFrom_key, wordsFrom_append_option hne, wordsFrom_append_key,
    wordsFrom_values_of_head hne h]

/-- A clause whose head is a single value is read alike as an option of the clause in front of
it. So it makes no difference which of the two a foreign key is, wherever it stands. -/
theorem parse_chained :
    (∀ grammar : Grammar, grammar.isValid = true → ∀ x y : String,
      (∀ c ∈ Text.trim (grammar.head y.toList), grammar.partsValues c = false) →
      grammar.parse (x ++ String.singleton grammar.optionSeparator ++ y) =
        grammar.parse (x ++ String.singleton grammar.clauseSeparator ++ y)) ∧
    ∀ before after : String,
      Grammar.pipe.parse (before ++ "foreignId:on:users" ++ after) =
        Grammar.pipe.parse (before ++ "foreignId|on:users" ++ after) := by
  constructor
  · intro grammar hvalid x y hhead
    apply parse_eq_of_words_eq
    simpa using words_option_eq_words_clause hvalid hhead x.toList
  · intro before after
    have hhead : Grammar.pipe.head ("on:users".toList ++ after.toList) = "on".toList := rfl
    have hsingle : ∀ c ∈ Text.trim (Grammar.pipe.head ("on:users".toList ++ after.toList)),
        Grammar.pipe.partsValues c = false := by
      have hon : (Text.trim "on".toList).any Grammar.pipe.partsValues = false := by decide
      rw [hhead]
      simpa only [List.any_eq_false, Bool.not_eq_true] using hon
    have hwords := words_option_eq_words_clause (by decide) hsingle
      (before.toList ++ "foreignId".toList)
    apply parse_eq_of_words_eq
    simpa [pipe] using hwords

/-- Behind the option stands a value with blanks around it, and behind that a list of two. -/
theorem parse_chained_blanks :
    Grammar.comma.isValid = true ∧
    (∀ c ∈ Text.trim (Grammar.comma.head " on\u00a0=users;teams,unique".toList),
      Grammar.comma.partsValues c = false) ∧
    Grammar.comma.parse "foreignId= on\u00a0=users;teams,unique" =
      Grammar.comma.parse "foreignId, on\u00a0=users;teams,unique" := by
  have hhead : ∀ c ∈ Text.trim (Grammar.comma.head " on\u00a0=users;teams,unique".toList),
      Grammar.comma.partsValues c = false := by
    have hnone : (Text.trim (Grammar.comma.head " on\u00a0=users;teams,unique".toList)).any
        Grammar.comma.partsValues = false := by decide
    simpa only [List.any_eq_false, Bool.not_eq_true] using hnone
  have hoption : "foreignId" ++ String.singleton Grammar.comma.optionSeparator ++
      " on\u00a0=users;teams,unique" = "foreignId= on\u00a0=users;teams,unique" := by decide
  have hclause : "foreignId" ++ String.singleton Grammar.comma.clauseSeparator ++
      " on\u00a0=users;teams,unique" = "foreignId, on\u00a0=users;teams,unique" := by decide
  have hchained := parse_chained.1 .comma (by decide) "foreignId" _ hhead
  rw [hoption, hclause] at hchained
  exact ⟨by decide, hhead, hchained⟩

end TableDelta.Grammar
