import TableDelta.Proofs.Definition.Words
/-!
# Words on either side of a separator

At a separator a text falls into two that are read each by itself. What stands behind it is
read from the part of a clause that the separator opens: a separator of clauses opens a key,
one of options opens values, and what parts values goes on with values. This holds whatever
the separators are, clause before option before value where they coincide.
-/
namespace TableDelta.Grammar

/-- The part of a clause that a text starts in. -/
inductive Part where
  | key
  | values
  deriving DecidableEq

/-- The words of a clause, or of the rest of one that starts among its values. -/
def partWords (grammar : Grammar) : Part → List Char → List (List Char)
  | .key, clause => grammar.clauseWords clause
  | .values, lists => (lists.splitOnP (· == grammar.optionSeparator)).flatMap grammar.valueWords

/-- The words of a text whose first clause starts in some part. -/
def wordsFrom (grammar : Grammar) (part : Part) (text : List Char) : List (List Char) :=
  match text.splitOnP (· == grammar.clauseSeparator) with
  | [] => []
  | first :: clauses => grammar.partWords part first ++ clauses.flatMap grammar.clauseWords

/-- Whether a character parts the values of a list. -/
def partsValues (grammar : Grammar) (c : Char) : Bool :=
  c == grammar.valueSeparator || Text.isBlank c

/-- Whether a character ends a key, which separators of clauses and of options do. -/
def endsKey (grammar : Grammar) (c : Char) : Bool :=
  c == grammar.clauseSeparator || c == grammar.optionSeparator

variable {grammar : Grammar} {part : Part} {x y : List Char} {c : Char}

theorem wordsFrom_key (grammar : Grammar) (text : List Char) :
    grammar.wordsFrom .key text = grammar.words text := by
  unfold wordsFrom words
  split
  · next hsplit => rw [hsplit, List.flatMap_nil]
  · next hsplit =>
    rw [hsplit, List.flatMap_cons]
    rfl

/-! ## Texts without a separator -/

theorem wordsFrom_of_not_mem (hx : grammar.clauseSeparator ∉ x) :
    grammar.wordsFrom part x = grammar.partWords part x := by
  have hsplit : x.splitOnP (· == grammar.clauseSeparator) = [x] := List.splitOn_eq_singleton hx
  rw [wordsFrom, hsplit]
  exact List.append_nil _

theorem IsWord.words_eq (h : grammar.IsWord x) : grammar.words x = [x] := by
  rw [← wordsFrom_key, wordsFrom_of_not_mem h.noClause]
  exact h.clauseWords_eq

theorem partWords_values_of_not_mem (hx : grammar.optionSeparator ∉ x) :
    grammar.partWords .values x = grammar.valueWords x := by
  have hsplit : x.splitOnP (· == grammar.optionSeparator) = [x] := List.splitOn_eq_singleton hx
  rw [partWords, hsplit, List.flatMap_singleton]

theorem valueWords_of_forall (hx : ∀ c ∈ x, grammar.partsValues c = false) :
    grammar.valueWords x = word x := by
  have hsplit : x.splitOnP grammar.partsValues = [x] := List.splitOnP_eq_singleton hx
  show (x.splitOnP grammar.partsValues).flatMap word = word x
  rw [hsplit, List.flatMap_singleton]

/-! ## One separator -/

theorem wordsFrom_append_clause (grammar : Grammar) (part : Part) (x y : List Char) :
    grammar.wordsFrom part (x ++ grammar.clauseSeparator :: y) =
      grammar.wordsFrom part x ++ grammar.words y := by
  have hsplit := List.splitOnP_append_cons (p := (· == grammar.clauseSeparator)) x y
    (beq_self_eq_true grammar.clauseSeparator)
  obtain ⟨first, clauses, hx⟩ := List.exists_cons_of_ne_nil
    (List.splitOnP_ne_nil (· == grammar.clauseSeparator) x)
  simp only [wordsFrom, words, hsplit, hx, List.cons_append, List.flatMap_append,
    List.append_assoc]

theorem words_append_clause (grammar : Grammar) (x y : List Char) :
    grammar.words (x ++ grammar.clauseSeparator :: y) = grammar.words x ++ grammar.words y := by
  rw [← wordsFrom_key, wordsFrom_append_clause, wordsFrom_key]

theorem partWords_append_option (grammar : Grammar) (part : Part) (x y : List Char) :
    grammar.partWords part (x ++ grammar.optionSeparator :: y) =
      grammar.partWords part x ++ grammar.partWords .values y := by
  have hsplit := List.splitOnP_append_cons (p := (· == grammar.optionSeparator)) x y
    (beq_self_eq_true grammar.optionSeparator)
  cases part with
  | key =>
    obtain ⟨key, lists, hx⟩ := List.exists_cons_of_ne_nil
      (List.splitOnP_ne_nil (· == grammar.optionSeparator) x)
    simp only [partWords, clauseWords, hsplit, hx, List.cons_append, List.flatMap_append,
      List.append_assoc]
  | values => simp only [partWords, hsplit, List.flatMap_append]

theorem valueWords_append (hc : grammar.partsValues c = true) (x y : List Char) :
    grammar.valueWords (x ++ c :: y) = grammar.valueWords x ++ grammar.valueWords y := by
  show ((x ++ c :: y).splitOnP grammar.partsValues).flatMap word = _
  rw [List.splitOnP_append_cons x y hc, List.flatMap_append]
  rfl

/-! ## A separator in front of any text -/

/-- Two readings that both end at a separator agree behind some text if they do so there for
texts without the separator. -/
theorem append_eq_of_forall_not_mem {α : Type} {sep : Char} {f g h : List Char → List α}
    (hf : ∀ a b, f (a ++ sep :: b) = f a ++ h b) (hg : ∀ a b, g (a ++ sep :: b) = g a ++ h b)
    {front : List α} (hfree : ∀ y, sep ∉ y → f (x ++ y) = front ++ g y) (y : List Char) :
    f (x ++ y) = front ++ g y := by
  by_cases hy : sep ∈ y
  · obtain ⟨a, b, rfl, ha⟩ := List.eq_append_cons_of_mem hy
    rw [← List.append_assoc, hf, hg, hfree a ha, List.append_assoc]
  · exact hfree y hy

theorem exists_last_of_mem {α : Type} {sep : α} {xs : List α} (h : sep ∈ xs) :
    ∃ before after, xs = before ++ sep :: after ∧ sep ∉ after := by
  obtain ⟨after, before, hreverse, hafter⟩ :=
    List.eq_append_cons_of_mem (List.mem_reverse.mpr h)
  refine ⟨before.reverse, after.reverse, ?_, ?_⟩
  · rw [← List.reverse_reverse xs, hreverse, List.reverse_append, List.reverse_cons,
      List.append_assoc, List.singleton_append]
  · rwa [List.mem_reverse]

/-- A reading that a separator starts anew meets what stands behind a text only in the last
piece of the text, so it is enough to know what it does behind texts without the separator. -/
theorem append_eq_of_forall_last {ι α : Type} {sep : Char} {f : ι → List Char → List α} {next : ι}
    (hf : ∀ i a b, f i (a ++ sep :: b) = f i a ++ f next b) {back : List α}
    (hfree : ∀ i x, sep ∉ x → f i (x ++ y) = f i x ++ back) (i : ι) (x : List Char) :
    f i (x ++ y) = f i x ++ back := by
  by_cases hx : sep ∈ x
  · obtain ⟨before, after, rfl, hafter⟩ := exists_last_of_mem hx
    rw [List.append_assoc, List.cons_append, hf, hf, hfree next after hafter, List.append_assoc]
  · exact hfree i x hx

theorem wordsFrom_append_key (grammar : Grammar) (part : Part) (x y : List Char) :
    grammar.wordsFrom part (x ++ grammar.clauseSeparator :: y) =
      grammar.wordsFrom part x ++ grammar.wordsFrom .key y := by
  rw [wordsFrom_append_clause, wordsFrom_key]

theorem wordsFrom_append_option (h : grammar.optionSeparator ≠ grammar.clauseSeparator)
    (part : Part) (x y : List Char) :
    grammar.wordsFrom part (x ++ grammar.optionSeparator :: y) =
      grammar.wordsFrom part x ++ grammar.wordsFrom .values y := by
  refine append_eq_of_forall_last grammar.wordsFrom_append_key (fun part x hx => ?_) part x
  rw [List.append_cons]
  refine append_eq_of_forall_not_mem (grammar.wordsFrom_append_clause part)
    (grammar.wordsFrom_append_clause .values) (fun y hy => ?_) y
  have hxy : grammar.clauseSeparator ∉ x ++ grammar.optionSeparator :: y := by
    simp [hx, hy, h.symm]
  rw [← List.append_cons, wordsFrom_of_not_mem hxy, wordsFrom_of_not_mem hx,
    wordsFrom_of_not_mem hy, partWords_append_option]

theorem optionSeparator_ne_of_isValid (h : grammar.isValid = true) :
    grammar.optionSeparator ≠ grammar.clauseSeparator := by
  simp only [isValid, Bool.and_eq_true, bne_iff_ne] at h
  exact h.1.1.2.symm

theorem exists_part_of_endsKey (h : grammar.optionSeparator ≠ grammar.clauseSeparator)
    (hc : grammar.endsKey c = true) :
    ∃ next, ∀ part x y,
      grammar.wordsFrom part (x ++ c :: y) =
        grammar.wordsFrom part x ++ grammar.wordsFrom next y := by
  simp only [endsKey, Bool.or_eq_true, beq_iff_eq] at hc
  cases hc with
  | inl hclause => exact ⟨.key, hclause ▸ grammar.wordsFrom_append_key⟩
  | inr hoption => exact ⟨.values, hoption ▸ wordsFrom_append_option h⟩

theorem wordsFrom_values_append (hclause : grammar.clauseSeparator ∉ x ++ [c])
    (hoption : grammar.optionSeparator ∉ x ++ [c]) (hc : grammar.partsValues c = true)
    (y : List Char) :
    grammar.wordsFrom .values (x ++ c :: y) =
      grammar.valueWords x ++ grammar.wordsFrom .values y := by
  rw [List.append_cons]
  refine append_eq_of_forall_not_mem (grammar.wordsFrom_append_clause .values)
    (grammar.wordsFrom_append_clause .values) (fun y hy => ?_) y
  have hxy : grammar.clauseSeparator ∉ x ++ [c] ++ y := by
    simpa [hy] using hclause
  rw [wordsFrom_of_not_mem hxy, wordsFrom_of_not_mem hy]
  refine append_eq_of_forall_not_mem (grammar.partWords_append_option .values)
    (grammar.partWords_append_option .values) (fun y hy => ?_) y
  have hxy : grammar.optionSeparator ∉ x ++ [c] ++ y := by
    simpa [hy] using hoption
  rw [partWords_values_of_not_mem hxy, partWords_values_of_not_mem hy, ← List.append_cons,
    valueWords_append hc]

end TableDelta.Grammar
