import TableDelta.Proofs.Definition.Image
import TableDelta.Proofs.Json.Members
import TableDelta.Wire.Definition
/-!
# Definitions as multisets

However a definition comes about, it holds the tokens that it was built from: as often as
they were given, and in an order that depends on nothing else. Two definitions are
therefore equal exactly when they were built from the same tokens in some order.
-/
namespace TableDelta

namespace Token

/-- The order of tokens, read off the vocabulary: its members stand as it lists them, and
all other texts behind them by code point. -/
inductive Precedes : Token → Token → Prop
  | recognized {a b : Token} {i j : Nat} (ha : vocabulary[i]? = some a)
      (hb : vocabulary[j]? = some b) (h : i ≤ j) : Precedes a b
  | recognizedOther {a : Token} (ha : a ∈ vocabulary) (text : String) : Precedes a (other text)
  | others {s t : String} (h : s ≤ t) : Precedes (other s) (other t)

private theorem getElem?_vocabulary_rank {a : Token} (h : a.rank < 8) :
    vocabulary[a.rank]? = some a := by
  cases a with
  | other text => simp [rank] at h
  | _ => rfl

private theorem precedes_of_atMost {a b : Token} (h : a.atMost b = true) : Precedes a b := by
  have hrank := rank_le a b h
  by_cases hb : b.rank < 8
  · have ha : a.rank < 8 := Nat.lt_of_le_of_lt hrank hb
    exact .recognized (getElem?_vocabulary_rank ha) (getElem?_vocabulary_rank hb) hrank
  · obtain ⟨t, rfl⟩ := exists_other b hb
    by_cases ha : a.rank < 8
    · exact .recognizedOther (List.mem_of_getElem? (getElem?_vocabulary_rank ha)) t
    · obtain ⟨s, rfl⟩ := exists_other a ha
      exact .others (of_decide_eq_true h)

end Token

namespace Definition

variable {tokens : List Token} {definition : Definition}

/-- What a definition tells of the tokens that were put into it. -/
structure IsMultisetOf (tokens : List Token) (definition : Definition) : Prop where
  ordered : definition.tokens.Pairwise Token.Precedes
  perm : definition.tokens.Perm tokens
  size : definition.size = tokens.length
  contains : ∀ token, definition.contains token = true ↔ token ∈ tokens

theorem isMultisetOf_ofTokens (tokens : List Token) : (ofTokens tokens).IsMultisetOf tokens where
  ordered := (ofTokens tokens).sorted.imp Token.precedes_of_atMost
  perm := perm_ofTokens tokens
  size := (perm_ofTokens tokens).length_eq
  contains token := by rw [contains_iff_mem, mem_ofTokens]

theorem ofTokens_eq_ofTokens_iff (xs ys : List Token) :
    ofTokens xs = ofTokens ys ↔ ys.Perm xs := by
  constructor
  · intro h
    have hperm := perm_ofTokens xs
    rw [h] at hperm
    exact (perm_ofTokens ys).symm.trans hperm
  · intro h
    exact ofTokens_eq_of_perm (h.symm.trans (perm_ofTokens ys).symm)

private theorem ofTokens_other_ne {word : Token} (h : word ∈ Token.vocabulary) (rest : List Token) :
    ofTokens (.other word.text :: rest) ≠ ofTokens (word :: rest) := by
  intro he
  have hperm := (ofTokens_eq_ofTokens_iff _ _).mp he
  have hcount := hperm.count_eq word
  have hne : Token.other word.text ≠ word := (Token.ne_other_of_mem_vocabulary h word.text).symm
  rw [List.count_cons_self, List.count_cons_of_ne hne] at hcount
  omega

private theorem contains_ofTokens_other {word : Token} (h : word ∈ Token.vocabulary)
    (tokens : List Token) :
    (ofTokens (.other word.text :: tokens)).contains word = (ofTokens tokens).contains word := by
  have hne := Token.ne_other_of_mem_vocabulary h word.text
  rw [Bool.eq_iff_iff, contains_iff_mem, contains_iff_mem, mem_ofTokens, mem_ofTokens,
    List.mem_cons, or_iff_right hne]

/-- The ways in which a definition comes about, with the tokens that it is built from. -/
inductive BuiltFrom : List Token → Definition → Prop
  | empty : BuiltFrom [] .empty
  | tokens (tokens : List Token) : BuiltFrom tokens (.ofTokens tokens)
  | text (grammar : Grammar) (text : String) :
      BuiltFrom ((Grammar.withReference (grammar.words text.toList)).map fun word =>
        Token.ofText (String.ofList word)) (grammar.parse text)
  /-- The given values count as the missing payload of a recognized token. -/
  | json {isVacant : Json → Bool} {items : List Json} {tokens : List Token}
      {definition : Definition} (hread : decode? isVacant (.array items) = some definition)
      (hitems : List.Forall₂ (fun item token => Token.decode? isVacant item = some token) items
        tokens) : BuiltFrom tokens definition

theorem BuiltFrom.eq_ofTokens (h : BuiltFrom tokens definition) :
    definition = ofTokens tokens := by
  cases h with
  | empty => exact (ofTokens_eq_of_perm (.refl [])).symm
  | tokens => rfl
  | text => rfl
  | json hread hitems =>
    have hmap := Json.mapM_eq_some_iff.mpr hitems
    rw [decode?, Json.items?, Option.bind_eq_bind, Option.bind_some, hmap] at hread
    exact (Option.some.inj hread).symm

/-- Definitions are equal exactly when they were built from the same tokens, given in any
order. Each holds what it was built from as a multiset in the order of tokens, and a text
that is spelled like a modifier neither equals it nor is found in its place. -/
theorem builtFrom_canonical {xs ys : List Token} {a b : Definition} (ha : BuiltFrom xs a)
    (hb : BuiltFrom ys b) :
    (ofTokens xs = ofTokens ys ↔ ys.Perm xs) ∧ (a = b ↔ ys.Perm xs) ∧ a.IsMultisetOf xs ∧
      ∀ word ∈ Token.vocabulary, word ≠ .other word.text ∧
        ofTokens (.other word.text :: xs) ≠ ofTokens (word :: xs) ∧
        (ofTokens (.other word.text :: xs)).contains word = a.contains word := by
  rw [ha.eq_ofTokens, hb.eq_ofTokens]
  refine ⟨ofTokens_eq_ofTokens_iff xs ys, ofTokens_eq_ofTokens_iff xs ys,
    isMultisetOf_ofTokens xs, ?_⟩
  intro word hword
  exact ⟨Token.ne_other_of_mem_vocabulary hword word.text, ofTokens_other_ne hword xs,
    contains_ofTokens_other hword xs⟩

/-- The tokens of a column that refers to a table twice. -/
def repeatedOn : List Token := [.on, .other "users", .on, .references, .other "id"]

/-- What a text says and what a JSON array lists backwards make one definition, and a text that
is spelled like a modifier is not found as one in it. -/
theorem builtFrom_canonical_repeatedOn :
    BuiltFrom repeatedOn (Grammar.pipe.parse "on:users|on") ∧
    BuiltFrom repeatedOn.reverse (.ofTokens repeatedOn.reverse) ∧
    Grammar.pipe.parse "on:users|on" = .ofTokens repeatedOn.reverse ∧
    (Grammar.pipe.parse "on:users|on").IsMultisetOf repeatedOn ∧
    (ofTokens (.other "unique" :: repeatedOn)).contains .unique = false := by
  have hwords : (Grammar.withReference (Grammar.pipe.words "on:users|on".toList)).map
      (fun word => Token.ofText (String.ofList word)) = repeatedOn := by decide
  have htext : BuiltFrom repeatedOn (Grammar.pipe.parse "on:users|on") := by
    rw [← hwords]
    exact .text .pipe "on:users|on"
  have hitems : ([.object [("other", .string "id")], .string "references", .string "on",
      .object [("other", .string "users")], .object [("on", .null)]] : List Json).mapM
      (Token.decode? Json.isNull) = some repeatedOn.reverse := by rfl
  have hjson : BuiltFrom repeatedOn.reverse (.ofTokens repeatedOn.reverse) := by
    refine .json ?_ (Json.mapM_eq_some_iff.mp hitems)
    rw [decode?, Json.items?, Option.bind_eq_bind, Option.bind_some, hitems]
    rfl
  obtain ⟨-, heq, hholds, hother⟩ := builtFrom_canonical htext hjson
  have hfound := (hother .unique (by decide)).2.2
  have hunique : (Grammar.pipe.parse "on:users|on").contains .unique = false := by
    rw [Bool.eq_false_iff]
    intro h
    exact absurd ((hholds.contains .unique).mp h) (by decide)
  exact ⟨htext, hjson, heq.mpr (by decide), hholds, hfound.trans hunique⟩

end Definition

end TableDelta
