import TableDelta.Proofs.Definition.Clauses
/-!
# Blanks and empty values

Blanks at either end of a part of a definition belong to no word of it, and among values the
same holds of whatever parts them. What is shown here of a list of values carries over to a
clause and from there to a whole text, as long as no separator of clauses or options is a blank
or parts values, which is so in every valid grammar.
-/
namespace TableDelta.Grammar

variable {grammar : Grammar} {part : Part} {blanks run list x y : List Char} {c : Char}

theorem partsValues_of_isBlank (h : Text.isBlank c = true) : grammar.partsValues c = true := by
  simp [partsValues, h]

private theorem partsValues_clauseSeparator (h : grammar.isValid = true) :
    grammar.partsValues grammar.clauseSeparator = false := by
  simp only [isValid, Bool.and_eq_true, Bool.not_eq_true', bne_iff_ne] at h
  simp [partsValues, h]

private theorem partsValues_optionSeparator (h : grammar.isValid = true) :
    grammar.partsValues grammar.optionSeparator = false := by
  simp only [isValid, Bool.and_eq_true, Bool.not_eq_true', bne_iff_ne] at h
  simp [partsValues, h]

theorem clauseSeparator_not_mem (hvalid : grammar.isValid = true)
    (hrun : ∀ c ∈ run, grammar.partsValues c = true) : grammar.clauseSeparator ∉ run := by
  intro hm
  have hparts := hrun _ hm
  rw [partsValues_clauseSeparator hvalid] at hparts
  exact Bool.noConfusion hparts

theorem optionSeparator_not_mem (hvalid : grammar.isValid = true)
    (hrun : ∀ c ∈ run, grammar.partsValues c = true) : grammar.optionSeparator ∉ run := by
  intro hm
  have hparts := hrun _ hm
  rw [partsValues_optionSeparator hvalid] at hparts
  exact Bool.noConfusion hparts

/-! ## A word and a list of values -/

theorem word_congr (h : Text.trim x = Text.trim y) : word x = word y := by
  rw [word, word, h]

private theorem valueWords_cons (hc : grammar.partsValues c = true) (y : List Char) :
    grammar.valueWords (c :: y) = grammar.valueWords y :=
  valueWords_append hc [] y

theorem valueWords_run_append (hrun : ∀ c ∈ run, grammar.partsValues c = true) (y : List Char) :
    grammar.valueWords (run ++ y) = grammar.valueWords y := by
  induction run with
  | nil => rfl
  | cons c run ih =>
    have hc := hrun c List.mem_cons_self
    rw [List.cons_append, valueWords_cons hc, ih fun d hd => hrun d (List.mem_cons_of_mem c hd)]

theorem valueWords_append_run (hrun : ∀ c ∈ run, grammar.partsValues c = true) (x : List Char) :
    grammar.valueWords (x ++ run) = grammar.valueWords x := by
  cases run with
  | nil => rw [List.append_nil]
  | cons c run =>
    have hrest := valueWords_run_append (fun d hd => hrun d (List.mem_cons_of_mem c hd)) []
    rw [List.append_nil] at hrest
    rw [valueWords_append (hrun c List.mem_cons_self), hrest]
    exact List.append_nil _

/-! ## A clause -/

private theorem partWords_append_blanks (hvalid : grammar.isValid = true)
    (hblanks : ∀ c ∈ blanks, Text.isBlank c = true) (part : Part) (x : List Char) :
    grammar.partWords part (x ++ blanks) = grammar.partWords part x := by
  have hparts : ∀ c ∈ blanks, grammar.partsValues c = true :=
    fun c hc => partsValues_of_isBlank (hblanks c hc)
  rw [← List.append_nil (grammar.partWords part x)]
  refine append_eq_of_forall_last grammar.partWords_append_option (fun part x hx => ?_) part x
  have hxb : grammar.optionSeparator ∉ x ++ blanks := by
    simp [hx, optionSeparator_not_mem hvalid hparts]
  rw [List.append_nil]
  cases part with
  | key =>
    rw [partWords, partWords, clauseWords_of_not_mem hxb, clauseWords_of_not_mem hx]
    exact word_congr (Text.trim_append_blanks hblanks x)
  | values =>
    rw [partWords_values_of_not_mem hxb, partWords_values_of_not_mem hx,
      valueWords_append_run hparts]

private theorem partWords_blanks_append (hvalid : grammar.isValid = true)
    (hblanks : ∀ c ∈ blanks, Text.isBlank c = true) (part : Part) (y : List Char) :
    grammar.partWords part (blanks ++ y) = grammar.partWords part y := by
  have hparts : ∀ c ∈ blanks, grammar.partsValues c = true :=
    fun c hc => partsValues_of_isBlank (hblanks c hc)
  rw [← List.nil_append (grammar.partWords part y)]
  refine append_eq_of_forall_not_mem (grammar.partWords_append_option part)
    (grammar.partWords_append_option part) (fun y hy => ?_) y
  have hby : grammar.optionSeparator ∉ blanks ++ y := by
    simp [hy, optionSeparator_not_mem hvalid hparts]
  rw [List.nil_append]
  cases part with
  | key =>
    rw [partWords, partWords, clauseWords_of_not_mem hby, clauseWords_of_not_mem hy]
    exact word_congr (Text.trim_blanks_append hblanks y)
  | values =>
    rw [partWords_values_of_not_mem hby, partWords_values_of_not_mem hy,
      valueWords_run_append hparts]

/-! ## A text -/

theorem wordsFrom_append_blanks (hvalid : grammar.isValid = true)
    (hblanks : ∀ c ∈ blanks, Text.isBlank c = true) (part : Part) (x : List Char) :
    grammar.wordsFrom part (x ++ blanks) = grammar.wordsFrom part x := by
  have hfree : grammar.clauseSeparator ∉ blanks :=
    clauseSeparator_not_mem hvalid fun c hc => partsValues_of_isBlank (hblanks c hc)
  rw [← List.append_nil (grammar.wordsFrom part x)]
  refine append_eq_of_forall_last grammar.wordsFrom_append_key (fun part x hx => ?_) part x
  have hxb : grammar.clauseSeparator ∉ x ++ blanks := by simp [hx, hfree]
  rw [wordsFrom_of_not_mem hxb, wordsFrom_of_not_mem hx, partWords_append_blanks hvalid hblanks,
    List.append_nil]

theorem wordsFrom_blanks_append (hvalid : grammar.isValid = true)
    (hblanks : ∀ c ∈ blanks, Text.isBlank c = true) (part : Part) (y : List Char) :
    grammar.wordsFrom part (blanks ++ y) = grammar.wordsFrom part y := by
  have hfree : grammar.clauseSeparator ∉ blanks :=
    clauseSeparator_not_mem hvalid fun c hc => partsValues_of_isBlank (hblanks c hc)
  rw [← List.nil_append (grammar.wordsFrom part y)]
  refine append_eq_of_forall_not_mem (grammar.wordsFrom_append_clause part)
    (grammar.wordsFrom_append_clause part) (fun y hy => ?_) y
  have hby : grammar.clauseSeparator ∉ blanks ++ y := by simp [hy, hfree]
  rw [wordsFrom_of_not_mem hby, wordsFrom_of_not_mem hy, partWords_blanks_append hvalid hblanks,
    List.nil_append]

end TableDelta.Grammar
