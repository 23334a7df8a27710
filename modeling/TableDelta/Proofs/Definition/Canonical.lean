import TableDelta.Definition.Basic
/-!
# Canonical order

A list in canonical order is determined by its members and how often they occur, and
halving it finds each of its members and nothing else. So what `contains` answers and
what makes two definitions equal can be said without mentioning the order.
-/
namespace TableDelta.Definition

private theorem mem_halves {α : Type} {xs after : List α} {middle : α} {n : Nat}
    (hdrop : xs.drop n = middle :: after) (x : α) :
    x ∈ xs ↔ x ∈ xs.take n ∨ x ∈ middle :: after := by
  rw [← List.mem_append, ← hdrop, List.take_append_drop]

/-- The middle entry tells in which half a token can still stand: what is left of it is at
most it, and it is at most what is right of it. -/
theorem bisect_eq_true_iff (token : Token) (tokens : List Token)
    (h : tokens.Pairwise fun a b => a.atMost b = true) :
    bisect token tokens = true ↔ token ∈ tokens := by
  fun_induction bisect token tokens with
  | case1 tokens hdrop =>
    have hlength := List.drop_eq_nil_iff.mp hdrop
    have hnil : tokens = [] := by
      rw [← List.length_eq_zero_iff]
      omega
    simp [hnil]
  | case2 tokens after hdrop => simp [mem_halves hdrop token]
  | case3 tokens middle after hdrop hne hle ih =>
    have hsplit := h
    rw [← List.take_append_drop (tokens.length / 2) tokens, hdrop, List.pairwise_append] at hsplit
    obtain ⟨htake, hright, -⟩ := hsplit
    have hnot : token ∉ middle :: after := by
      intro hm
      rcases List.mem_cons.mp hm with rfl | hm
      · exact hne rfl
      · have hge := (List.pairwise_cons.mp hright).1 token hm
        exact hne (Token.atMost_antisymm middle token hge hle)
    rw [ih htake, mem_halves hdrop]
    simp only [hnot, or_false]
  | case4 tokens middle after hdrop hne hle ih =>
    have hsplit := h
    rw [← List.take_append_drop (tokens.length / 2) tokens, hdrop, List.pairwise_append] at hsplit
    obtain ⟨-, hright, hcross⟩ := hsplit
    have hnot : token ∉ tokens.take (tokens.length / 2) := by
      intro hm
      exact hle (hcross token hm middle List.mem_cons_self)
    have hmiddle : token ≠ middle := fun he => hne he.symm
    rw [ih (List.pairwise_cons.mp hright).2, mem_halves hdrop]
    simp only [List.mem_cons, hnot, hmiddle, false_or]

theorem contains_iff_mem (definition : Definition) (token : Token) :
    definition.contains token = true ↔ token ∈ definition.tokens :=
  bisect_eq_true_iff token definition.tokens definition.sorted

theorem eq_of_perm {a b : Definition} (h : a.tokens.Perm b.tokens) : a = b := by
  obtain ⟨as, hasorted⟩ := a
  obtain ⟨bs, hbsorted⟩ := b
  have heq : as = bs := by
    refine List.Perm.eq_of_pairwise ?_ hasorted hbsorted h
    intro x y _ _ hxy hyx
    exact Token.atMost_antisymm x y hxy hyx
  subst heq
  rfl

theorem ofTokens_eq_of_perm {tokens : List Token} {definition : Definition}
    (h : tokens.Perm definition.tokens) : ofTokens tokens = definition :=
  eq_of_perm ((perm_ofTokens tokens).trans h)

theorem mem_ofTokens {tokens : List Token} {token : Token} :
    token ∈ (ofTokens tokens).tokens ↔ token ∈ tokens := (perm_ofTokens tokens).mem_iff

theorem hasForeignKey_iff (definition : Definition) :
    definition.hasForeignKey = true ↔ Token.on ∈ definition.tokens :=
  definition.contains_iff_mem .on

theorem hasForeignKey_eq_decide (definition : Definition) :
    definition.hasForeignKey = decide (Token.on ∈ definition.tokens) := by
  rw [Bool.eq_iff_iff, hasForeignKey_iff, decide_eq_true_iff]

theorem hasMorphs_iff (definition : Definition) :
    definition.hasMorphs = true ↔
      Token.morphs ∈ definition.tokens ∨ Token.nullableMorphs ∈ definition.tokens := by
  rw [hasMorphs, Bool.or_eq_true, contains_iff_mem, contains_iff_mem]

end TableDelta.Definition
