import Mathlib.Logic.Relation
import TableDelta.Proofs.Definition.Blanks
/-!
# The layout of a definition

A definition may be laid out with blanks around its clauses and options, and with any blanks
and any number of value separators between two values. `parse_relayout` shows that a valid
grammar reads it the same in every layout.
-/
namespace TableDelta.Grammar

/-- What stands between two values of a list. -/
structure IsGap (grammar : Grammar) (gap : List Char) : Prop where
  nonempty : gap ≠ []
  parts : ∀ c ∈ gap, grammar.partsValues c = true

/-- A change of layout at one place. -/
inductive Relayout (grammar : Grammar) : List Char → List Char → Prop
  | start {blanks : List Char} (hblanks : ∀ c ∈ blanks, Text.isBlank c = true)
      (text : List Char) : Relayout grammar text (blanks ++ text)
  | finish {blanks : List Char} (hblanks : ∀ c ∈ blanks, Text.isBlank c = true)
      (text : List Char) : Relayout grammar text (text ++ blanks)
  | before {separator : Char} {blanks : List Char} (hseparator : grammar.endsKey separator = true)
      (hblanks : ∀ c ∈ blanks, Text.isBlank c = true) (x y : List Char) :
      Relayout grammar (x ++ separator :: y) (x ++ blanks ++ separator :: y)
  | after {separator : Char} {blanks : List Char} (hseparator : grammar.endsKey separator = true)
      (hblanks : ∀ c ∈ blanks, Text.isBlank c = true) (x y : List Char) :
      Relayout grammar (x ++ separator :: y) (x ++ separator :: (blanks ++ y))
  /-- The list starts behind a separator of options and stays within the clause. -/
  | gap {gap other : List Char} (hgap : grammar.IsGap gap) (hother : grammar.IsGap other)
      (x list y : List Char) (hlist : grammar.clauseSeparator ∉ list) :
      Relayout grammar (x ++ grammar.optionSeparator :: (list ++ gap ++ y))
        (x ++ grammar.optionSeparator :: (list ++ other ++ y))

variable {grammar : Grammar} {list gap run text other : List Char} {c : Char}

/-! ## Gaps between values -/

private theorem wordsFrom_values_append_parting (hvalid : grammar.isValid = true)
    (hlist : grammar.clauseSeparator ∉ list) (hc : grammar.partsValues c = true) (y : List Char) :
    grammar.wordsFrom .values (list ++ c :: y) =
      grammar.wordsFrom .values list ++ grammar.wordsFrom .values y := by
  have hparts : ∀ d ∈ [c], grammar.partsValues d = true := by simpa using hc
  have hclause := clauseSeparator_not_mem hvalid hparts
  have hoption := optionSeparator_not_mem hvalid hparts
  -- behind its last separator of options, a list has no separator left but those of values
  have hlast : ∀ after, grammar.clauseSeparator ∉ after → grammar.optionSeparator ∉ after →
      grammar.wordsFrom .values (after ++ c :: y) =
        grammar.wordsFrom .values after ++ grammar.wordsFrom .values y := by
    intro after hac hao
    rw [wordsFrom_of_not_mem hac, partWords_values_of_not_mem hao]
    refine wordsFrom_values_append ?_ ?_ hc y
    · exact List.not_mem_append hac hclause
    · exact List.not_mem_append hao hoption
  by_cases hm : grammar.optionSeparator ∈ list
  · obtain ⟨before, after, rfl, hafter⟩ := exists_last_of_mem hm
    have hne := optionSeparator_ne_of_isValid hvalid
    have hac : grammar.clauseSeparator ∉ after := fun h => hlist (by simp [h])
    rw [List.append_assoc, List.cons_append, wordsFrom_append_option hne,
      wordsFrom_append_option hne, hlast after hac hafter, List.append_assoc]
  · exact hlast list hlist hm

private theorem wordsFrom_values_run_append (hvalid : grammar.isValid = true)
    (hrun : ∀ c ∈ run, grammar.partsValues c = true) (y : List Char) :
    grammar.wordsFrom .values (run ++ y) = grammar.wordsFrom .values y := by
  induction run with
  | nil => rfl
  | cons c run ih =>
    have hc := hrun c List.mem_cons_self
    have hrest := ih fun d hd => hrun d (List.mem_cons_of_mem c hd)
    exact (wordsFrom_values_append_parting hvalid List.not_mem_nil hc (run ++ y)).trans hrest

theorem IsGap.wordsFrom_values_append (hgap : grammar.IsGap gap) (hvalid : grammar.isValid = true)
    (hlist : grammar.clauseSeparator ∉ list) (y : List Char) :
    grammar.wordsFrom .values (list ++ gap ++ y) =
      grammar.wordsFrom .values list ++ grammar.wordsFrom .values y := by
  obtain ⟨hnonempty, hparts⟩ := hgap
  cases gap with
  | nil => exact absurd rfl hnonempty
  | cons c run =>
    have hrest := wordsFrom_values_run_append hvalid
      (fun d hd => hparts d (List.mem_cons_of_mem c hd)) y
    rw [List.append_assoc, List.cons_append,
      wordsFrom_values_append_parting hvalid hlist (hparts c List.mem_cons_self), hrest]

/-! ## Layouts -/

theorem Relayout.words_eq (h : grammar.Relayout text other) (hvalid : grammar.isValid = true) :
    grammar.words text = grammar.words other := by
  have hne := optionSeparator_ne_of_isValid hvalid
  rw [← wordsFrom_key, ← wordsFrom_key]
  cases h with
  | start hblanks => exact (wordsFrom_blanks_append hvalid hblanks .key text).symm
  | finish hblanks => exact (wordsFrom_append_blanks hvalid hblanks .key text).symm
  | before hseparator hblanks x y =>
    obtain ⟨next, hnext⟩ := exists_part_of_endsKey hne hseparator
    rw [hnext, hnext, wordsFrom_append_blanks hvalid hblanks]
  | after hseparator hblanks x y =>
    obtain ⟨next, hnext⟩ := exists_part_of_endsKey hne hseparator
    rw [hnext, hnext, wordsFrom_blanks_append hvalid hblanks]
  | gap hgap hother x list y hlist =>
    rw [wordsFrom_append_option hne, wordsFrom_append_option hne,
      hgap.wordsFrom_values_append hvalid hlist, hother.wordsFrom_values_append hvalid hlist]

theorem words_eq_of_eqvGen (hvalid : grammar.isValid = true)
    (h : Relation.EqvGen grammar.Relayout text other) :
    grammar.words text = grammar.words other := by
  induction h with
  | rel _ _ h => exact h.words_eq hvalid
  | refl => rfl
  | symm _ _ _ ih => exact ih.symm
  | trans _ _ _ _ _ ih ih' => exact ih.trans ih'

/-- Texts that changes of layout lead from one to the other, whatever their number and in
either direction, are one definition. -/
theorem parse_relayout (hvalid : grammar.isValid = true) {text other : String}
    (h : Relation.EqvGen grammar.Relayout text.toList other.toList) :
    grammar.parse text = grammar.parse other :=
  parse_eq_of_words_eq (words_eq_of_eqvGen hvalid h)

/-- Blanks around separators, a gap of several lines and a line end behind it all. -/
theorem parse_relayout_lines :
    Grammar.pipe.isValid = true ∧
    Relation.EqvGen Grammar.pipe.Relayout "enum:a,b|on:t".toList
      "enum :a\n,\n,b|\u3000on:t\n".toList ∧
    Grammar.pipe.parse "enum:a,b|on:t" = Grammar.pipe.parse "enum :a\n,\n,b|\u3000on:t\n" := by
  have hspace : ∀ c ∈ " ".toList, Text.isBlank c = true := List.all_eq_true.mp (by decide)
  have hwide : ∀ c ∈ "\u3000".toList, Text.isBlank c = true := List.all_eq_true.mp (by decide)
  have hbreak : ∀ c ∈ "\n".toList, Text.isBlank c = true := List.all_eq_true.mp (by decide)
  have hgap : Grammar.pipe.IsGap ",".toList := ⟨by decide, List.all_eq_true.mp (by decide)⟩
  have hlines : Grammar.pipe.IsGap "\n,\n,".toList := ⟨by decide, List.all_eq_true.mp (by decide)⟩
  have hkey : Grammar.pipe.Relayout "enum:a,b|on:t".toList "enum :a,b|on:t".toList :=
    .before (by decide) hspace "enum".toList "a,b|on:t".toList
  have hvalues : Grammar.pipe.Relayout "enum :a,b|on:t".toList "enum :a\n,\n,b|on:t".toList :=
    .gap hgap hlines "enum ".toList "a".toList "b|on:t".toList (by decide)
  have hclause : Grammar.pipe.Relayout "enum :a\n,\n,b|on:t".toList
      "enum :a\n,\n,b|\u3000on:t".toList :=
    .after (by decide) hwide "enum :a\n,\n,b".toList "on:t".toList
  have hend : Grammar.pipe.Relayout "enum :a\n,\n,b|\u3000on:t".toList
      "enum :a\n,\n,b|\u3000on:t\n".toList :=
    .finish hbreak "enum :a\n,\n,b|\u3000on:t".toList
  have hleft := Relation.EqvGen.trans _ _ _ (.rel _ _ hkey) (.rel _ _ hvalues)
  have hright := Relation.EqvGen.trans _ _ _ (.rel _ _ hclause) (.rel _ _ hend)
  have hall := hleft.trans _ _ _ hright
  exact ⟨by decide, hall, parse_relayout (by decide) hall⟩

end TableDelta.Grammar
