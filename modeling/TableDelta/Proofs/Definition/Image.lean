import TableDelta.Proofs.Definition.Canonical
import TableDelta.Proofs.Definition.Words
/-!
# The image of the parser

Which definitions a grammar can express, and how: a definition is a parse exactly when each
of its tokens is a word of the grammar in its one form and no foreign key lacks a reference.
Its tokens, joined in any order by the clause separator, are then a text for it.
-/
namespace TableDelta

namespace Token

theorem ofText_text {token : Token}
    (h : ∀ s, token = other s → ∀ known ∈ vocabulary, known.text ≠ s) :
    ofText token.text = token := by
  cases token with
  | other s =>
    have hnone : (vocabulary.find? fun known => known.text == s) = none := by
      rw [List.find?_eq_none]
      intro known hm
      simpa using h s rfl known hm
    show (vocabulary.find? fun known => known.text == s).getD (other s) = other s
    rw [hnone, Option.getD_none]
  | _ => rfl

theorem ne_other_of_mem_vocabulary {token : Token} (h : token ∈ vocabulary) (s : String) :
    token ≠ other s := by
  rintro rfl
  simp [vocabulary] at h

theorem text_ne_of_ofText_eq_other {text s : String} (h : ofText text = other s) :
    ∀ known ∈ vocabulary, known.text ≠ s := by
  have htext := text_ofText text
  rw [h] at htext
  have hs : s = text := htext
  subst hs
  unfold ofText at h
  cases hfind : vocabulary.find? fun known => known.text == s with
  | none =>
    intro known hm
    simpa using List.find?_eq_none.mp hfind known hm
  | some known =>
    rw [hfind] at h
    exact absurd h (ne_other_of_mem_vocabulary (List.mem_of_find?_eq_some hfind) s)

end Token

namespace Grammar

/-- What makes a definition a parse of some text. -/
structure CanExpress (grammar : Grammar) (definition : Definition) : Prop where
  words : ∀ token ∈ definition.tokens, grammar.IsWord token.text.toList
  classified : ∀ s, .other s ∈ definition.tokens → ∀ token ∈ Token.vocabulary, token.text ≠ s
  referenced : .on ∈ definition.tokens → .references ∈ definition.tokens

/-- The texts of some tokens with a clause separator between neighbours. -/
def join (grammar : Grammar) (tokens : List Token) : String :=
  String.intercalate (String.singleton grammar.clauseSeparator) (tokens.map Token.text)

variable {grammar : Grammar}

private theorem words_join {tokens : List Token}
    (h : ∀ token ∈ tokens, grammar.IsWord token.text.toList) :
    grammar.words (grammar.join tokens).toList = tokens.map fun token => token.text.toList := by
  have hwords : ∀ w ∈ tokens.map fun token => token.text.toList, grammar.IsWord w := by
    intro w hw
    obtain ⟨token, hm, rfl⟩ := List.mem_map.mp hw
    exact h token hm
  have hjoin : (grammar.join tokens).toList =
      [grammar.clauseSeparator].intercalate (tokens.map fun token => token.text.toList) := by
    rw [join, String.toList_intercalate, String.toList_singleton, List.map_map]
    rfl
  rw [hjoin, words_intercalate hwords]

theorem CanExpress.ofText_text {definition : Definition} (h : grammar.CanExpress definition)
    {token : Token} (hm : token ∈ definition.tokens) : Token.ofText token.text = token := by
  apply Token.ofText_text
  rintro s rfl
  exact h.classified s hm

private theorem CanExpress.eq_of_text_eq {definition : Definition}
    (h : grammar.CanExpress definition)
    {token known : Token} (hm : token ∈ definition.tokens) (hk : ∀ s, known ≠ .other s)
    (heq : token.text = known.text) : token = known := by
  have hknown : Token.ofText known.text = known :=
    Token.ofText_text fun s he => absurd he (hk s)
  rw [← h.ofText_text hm, heq, hknown]

private theorem CanExpress.withReference_eq {definition : Definition}
    (h : grammar.CanExpress definition) {tokens : List Token} (hp : tokens.Perm definition.tokens) :
    withReference (tokens.map fun token => token.text.toList) =
      tokens.map fun token => token.text.toList := by
  apply withReference_of_mem
  intro hon
  obtain ⟨token, hm, htext⟩ := List.mem_map.mp hon
  have hdefinition := hp.mem_iff.mp hm
  have heq : token = .on :=
    h.eq_of_text_eq hdefinition (fun _ => Token.noConfusion) (String.toList_inj.mp htext)
  rw [heq] at hdefinition
  exact List.mem_map_of_mem (hp.mem_iff.mpr (h.referenced hdefinition))

theorem parse_join {definition : Definition} (h : grammar.CanExpress definition)
    {tokens : List Token} (hp : tokens.Perm definition.tokens) :
    grammar.parse (grammar.join tokens) = definition := by
  have hwords : ∀ token ∈ tokens, grammar.IsWord token.text.toList :=
    fun token hm => h.words token (hp.mem_iff.mp hm)
  have hread : ((tokens.map fun token => token.text.toList).map fun word =>
      Token.ofText (String.ofList word)) = tokens := by
    rw [List.map_map]
    conv => rhs; rw [← List.map_id tokens]
    apply List.map_congr_left
    intro token hm
    simp only [Function.comp_apply, String.ofList_toList, id_eq]
    exact h.ofText_text (hp.mem_iff.mp hm)
  rw [parse, words_join hwords, h.withReference_eq hp, hread]
  exact Definition.ofTokens_eq_of_perm hp

/-! ## Parses are expressible -/

theorem mem_tokens_parse {text : String} {token : Token} :
    token ∈ (grammar.parse text).tokens ↔
      ∃ w ∈ withReference (grammar.words text.toList),
        Token.ofText (String.ofList w) = token := by
  rw [parse, Definition.mem_ofTokens, List.mem_map]

/-- A modifier that is no token of a definition is no word of it either. -/
theorem text_not_mem_words {text : String} {token : Token} (hread : Token.ofText token.text = token)
    (h : token ∉ (grammar.parse text).tokens) : token.text.toList ∉ grammar.words text.toList := by
  intro hm
  refine h (mem_tokens_parse.mpr ⟨token.text.toList, mem_withReference_of_mem hm, ?_⟩)
  rw [String.ofList_toList, hread]

theorem text_toList_ofText (w : List Char) : (Token.ofText (String.ofList w)).text.toList = w := by
  rw [Token.text_ofText, String.toList_ofList]

private theorem isWord_references (hclause : grammar.clauseSeparator ∉ Token.references.text.toList)
    (hoption : grammar.optionSeparator ∉ Token.references.text.toList) :
    grammar.IsWord Token.references.text.toList where
  nonempty := by decide
  trimmed := ⟨by rintro c ⟨⟩; decide, by rintro c ⟨⟩; decide⟩
  noClause := hclause
  noOption := hoption

private theorem isWord_defaultReference
    (hclause : grammar.clauseSeparator ∉ defaultReference.toList)
    (hoption : grammar.optionSeparator ∉ defaultReference.toList) :
    grammar.IsWord defaultReference.toList where
  nonempty := by decide
  trimmed := ⟨by rintro c ⟨⟩; decide, by rintro c ⟨⟩; decide⟩
  noClause := hclause
  noOption := hoption

theorem canExpress_parse (hreferences : grammar.IsWord Token.references.text.toList)
    (hdefault : grammar.IsWord defaultReference.toList) (text : String) :
    grammar.CanExpress (grammar.parse text) where
  words := by
    intro token hm
    obtain ⟨w, hw, rfl⟩ := mem_tokens_parse.mp hm
    rw [text_toList_ofText]
    rcases mem_withReference hw with hw | rfl | rfl
    · exact isWord_of_mem_words hw
    · exact hreferences
    · exact hdefault
  classified := by
    intro s hm
    obtain ⟨w, -, hw⟩ := mem_tokens_parse.mp hm
    exact Token.text_ne_of_ofText_eq_other hw
  referenced := by
    intro hm
    obtain ⟨w, hw, hon⟩ := mem_tokens_parse.mp hm
    -- the default reference is added by spelling, before words become tokens
    have hword : Token.on.text.toList = w := by rw [← hon, text_toList_ofText]
    rw [← hword] at hw
    refine mem_tokens_parse.mpr ⟨_, references_mem_withReference hw, ?_⟩
    rw [String.ofList_toList]
    rfl

/-- A definition is the parse of some text exactly when its tokens are words of the grammar,
none of them a modifier under another name, and a foreign key comes with its reference. The
texts of its tokens, joined in any order, are such a text. Hence parsing the tokens of a
parse changes nothing. -/
theorem parse_image (grammar : Grammar)
    (hreferences : grammar.clauseSeparator ∉ Token.references.text.toList ∧
      grammar.optionSeparator ∉ Token.references.text.toList)
    (hdefault : grammar.clauseSeparator ∉ defaultReference.toList ∧
      grammar.optionSeparator ∉ defaultReference.toList) :
    (∀ definition, (∃ text, grammar.parse text = definition) ↔ grammar.CanExpress definition) ∧
    (∀ definition, grammar.CanExpress definition → ∀ tokens : List Token,
      tokens.Perm definition.tokens → grammar.parse (grammar.join tokens) = definition) ∧
    ∀ text, grammar.parse (grammar.join (grammar.parse text).tokens) = grammar.parse text := by
  have himage := canExpress_parse (isWord_references hreferences.1 hreferences.2)
    (isWord_defaultReference hdefault.1 hdefault.2)
  refine ⟨?_, ?_, ?_⟩
  · intro definition
    constructor
    · rintro ⟨text, rfl⟩
      exact himage text
    · intro h
      exact ⟨_, parse_join h (List.Perm.refl definition.tokens)⟩
  · intro definition h tokens hp
    exact parse_join h hp
  · intro text
    exact parse_join (himage text) (List.Perm.refl _)

/-- A grammar that was never checked: a letter between clauses, a blank between values. -/
def unchecked : Grammar := ⟨'x', '=', ' '⟩

/-- Tokens out of order, with blanks and a colon of their own, one of them twice. -/
def scattered : List Token := [.references, .other "a b", .on, .other "a b", .other ":", .unique]

theorem parse_image_unchecked :
    (unchecked.clauseSeparator ∉ Token.references.text.toList ∧
      unchecked.optionSeparator ∉ Token.references.text.toList) ∧
    (unchecked.clauseSeparator ∉ defaultReference.toList ∧
      unchecked.optionSeparator ∉ defaultReference.toList) ∧
    unchecked.CanExpress (.ofTokens scattered) ∧
    unchecked.parse (unchecked.join scattered) = .ofTokens scattered ∧
    ¬ ∃ text, unchecked.parse text = .ofTokens [.on] := by
  have hreferences : unchecked.clauseSeparator ∉ Token.references.text.toList ∧
      unchecked.optionSeparator ∉ Token.references.text.toList := by decide
  have hdefault : unchecked.clauseSeparator ∉ defaultReference.toList ∧
      unchecked.optionSeparator ∉ defaultReference.toList := by decide
  obtain ⟨himage, hjoin, -⟩ := parse_image unchecked hreferences hdefault
  have hwords : ∀ token ∈ scattered, unchecked.IsWord token.text.toList := by decide
  have hclassified : ∀ token ∈ scattered, ∀ known ∈ Token.vocabulary,
      known.text = token.text → known = token := by decide
  have hexpress : unchecked.CanExpress (.ofTokens scattered) :=
    { words := fun token hm => hwords token (Definition.mem_ofTokens.mp hm)
      classified := by
        intro s hm known hknown htext
        have heq := hclassified _ (Definition.mem_ofTokens.mp hm) known hknown htext
        exact Token.ne_other_of_mem_vocabulary hknown s heq
      referenced := fun _ => Definition.mem_ofTokens.mpr (by decide) }
  refine ⟨hreferences, hdefault, hexpress,
    hjoin _ hexpress scattered (Definition.perm_ofTokens scattered).symm, ?_⟩
  intro h
  have hreferenced := ((himage _).mp h).referenced (Definition.mem_ofTokens.mpr (by decide))
  exact absurd (Definition.mem_ofTokens.mp hreferenced) (by decide)

end Grammar

end TableDelta
