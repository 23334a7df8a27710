/-!
# Tokens of a column definition

A token is one of eight recognized modifiers or any other text. Tokens are listed
in canonical order: the vocabulary first, in the order of `Token.vocabulary`, then
the other texts by code point. Main statements: that order is total, transitive
and antisymmetric, and a token classified from a text is written as that text.
-/
namespace TableDelta

/-- One unit of a parsed column definition. -/
inductive Token where
  | nullable
  | unique
  | primary
  | index
  | morphs
  | nullableMorphs
  | on
  | references
  | other (text : String)
  deriving DecidableEq, Repr

namespace Token

/-- The recognized modifiers in canonical order. -/
def vocabulary : List Token :=
  [nullable, unique, primary, index, morphs, nullableMorphs, on, references]

/-- The token as it is written in a definition. -/
def text : Token → String
  | nullable => "nullable"
  | unique => "unique"
  | primary => "primary"
  | index => "index"
  | morphs => "morphs"
  | nullableMorphs => "nullableMorphs"
  | on => "on"
  | references => "references"
  | other text => text

/-- Classifies a text: a modifier when it is spelled exactly as one, else `other`. -/
def ofText (text : String) : Token :=
  (vocabulary.find? fun token => token.text == text).getD (other text)

/-- Whether the token belongs to the vocabulary. -/
def isRecognized : Token → Bool
  | other _ => false
  | _ => true

/-- The place of a token's class in the canonical order. -/
def rank : Token → Nat
  | nullable => 0
  | unique => 1
  | primary => 2
  | index => 3
  | morphs => 4
  | nullableMorphs => 5
  | on => 6
  | references => 7
  | other _ => 8

/-- Whether one token stands at or before another in canonical order. The order of other
texts is that of strings, by code point. -/
def atMost : Token → Token → Bool
  | other s, other t => decide (s ≤ t)
  | a, b => Nat.ble a.rank b.rank

@[simp] theorem text_ofText (text : String) : (ofText text).text = text := by
  unfold ofText
  cases h : vocabulary.find? fun token => token.text == text with
  | none => rfl
  | some token => simpa using List.find?_some h

private theorem atMost_eq_rank (a b : Token) (h : a.rank < 8 ∨ b.rank < 8) :
    a.atMost b = Nat.ble a.rank b.rank := by
  cases a <;> cases b <;> first | rfl | simp [rank] at h

private theorem eq_of_rank_eq (a b : Token) (h : a.rank = b.rank) (ha : a.rank < 8) : a = b := by
  cases a <;> cases b <;> first | rfl | simp [rank] at h ha

theorem exists_other (a : Token) (h : ¬ a.rank < 8) : ∃ s, a = other s := by
  cases a <;> first | exact ⟨_, rfl⟩ | simp [rank] at h

theorem rank_le (a b : Token) (h : a.atMost b = true) : a.rank ≤ b.rank := by
  by_cases hr : a.rank < 8 ∨ b.rank < 8
  · rw [atMost_eq_rank a b hr] at h
    exact Nat.le_of_ble_eq_true h
  · obtain ⟨s, rfl⟩ := exists_other a (by omega)
    obtain ⟨t, rfl⟩ := exists_other b (by omega)
    exact Nat.le_refl 8

theorem atMost_total (a b : Token) : (a.atMost b || b.atMost a) = true := by
  by_cases hr : a.rank < 8 ∨ b.rank < 8
  · rw [atMost_eq_rank a b hr, atMost_eq_rank b a hr.symm, Bool.or_eq_true]
    exact (Nat.le_total a.rank b.rank).imp Nat.ble_eq_true_of_le Nat.ble_eq_true_of_le
  · obtain ⟨s, rfl⟩ := exists_other a (by omega)
    obtain ⟨t, rfl⟩ := exists_other b (by omega)
    simp only [atMost, Bool.or_eq_true, decide_eq_true_iff]
    exact String.le_total s t

theorem atMost_trans (a b c : Token) (h : a.atMost b = true) (k : b.atMost c = true) :
    a.atMost c = true := by
  by_cases hr : a.rank < 8 ∨ c.rank < 8
  · rw [atMost_eq_rank a c hr]
    exact Nat.ble_eq_true_of_le (Nat.le_trans (rank_le a b h) (rank_le b c k))
  · have hb : ¬ b.rank < 8 := by
      have := rank_le a b h
      omega
    obtain ⟨s, rfl⟩ := exists_other a (by omega)
    obtain ⟨t, rfl⟩ := exists_other b hb
    obtain ⟨u, rfl⟩ := exists_other c (by omega)
    exact decide_eq_true (String.le_trans (of_decide_eq_true h) (of_decide_eq_true k))

theorem atMost_antisymm (a b : Token) (h : a.atMost b = true) (k : b.atMost a = true) : a = b := by
  have hr : a.rank = b.rank := Nat.le_antisymm (rank_le a b h) (rank_le b a k)
  by_cases ha : a.rank < 8
  · exact eq_of_rank_eq a b hr ha
  · obtain ⟨s, rfl⟩ := exists_other a ha
    obtain ⟨t, rfl⟩ := exists_other b (by omega)
    exact congrArg other (String.le_antisymm (of_decide_eq_true h) (of_decide_eq_true k))

end Token

end TableDelta
