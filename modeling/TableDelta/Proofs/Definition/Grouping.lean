import TableDelta.Proofs.Definition.Clauses
import TableDelta.Proofs.Definition.Image
/-!
# Definitions put together

Definitions can be put together with a separator of clauses between them. The words of the
whole are the words of its parts, so neither the order of the parts nor blank ones among them
make a difference. The tokens add up in the same way, except that the whole shares one default
reference.
-/
namespace TableDelta.Grammar

/-- Definitions put together, with a clause separator between neighbours. -/
def joinTexts (grammar : Grammar) (texts : List String) : String :=
  String.intercalate (String.singleton grammar.clauseSeparator) texts

variable {grammar : Grammar} {text : String} {token : Token}

private theorem words_intercalate_clause (grammar : Grammar) (texts : List (List Char)) :
    grammar.words ([grammar.clauseSeparator].intercalate texts) =
      texts.flatMap grammar.words := by
  induction texts with
  | nil => rfl
  | cons text texts ih =>
    cases texts with
    | nil => rw [List.intercalate_singleton, List.flatMap_singleton]
    | cons next texts =>
      rw [List.intercalate_cons_cons, List.append_assoc, List.singleton_append,
        words_append_clause, ih]
      exact List.flatMap_cons.symm

private theorem words_joinTexts (grammar : Grammar) (texts : List String) :
    grammar.words (grammar.joinTexts texts).toList =
      texts.flatMap fun text => grammar.words text.toList := by
  rw [joinTexts, String.toList_intercalate, String.toList_singleton, words_intercalate_clause,
    List.flatMap_map]

theorem parse_eq_of_words_perm {other : String}
    (h : (grammar.words text.toList).Perm (grammar.words other.toList)) :
    grammar.parse text = grammar.parse other := by
  have hread := (withReference_perm h).map fun word => Token.ofText (String.ofList word)
  exact Definition.ofTokens_eq_of_perm (hread.trans (Definition.perm_ofTokens _).symm)

/-! ## Blank texts -/

private theorem words_of_isBlankText (h : Text.isBlankText text = true) :
    grammar.words text.toList = [] :=
  words_eq_nil_of_blank (Text.trim_eq_nil_iff.mp (List.isEmpty_iff.mp h))

private theorem words_joinTexts_filter (grammar : Grammar) (texts : List String) :
    grammar.words (grammar.joinTexts (texts.filter fun text => !Text.isBlankText text)).toList =
      grammar.words (grammar.joinTexts texts).toList := by
  rw [words_joinTexts, words_joinTexts]
  induction texts with
  | nil => rfl
  | cons text texts ih =>
    by_cases hblank : Text.isBlankText text = true
    · rw [List.filter_cons_of_neg (by simp [hblank]), ih, List.flatMap_cons,
        words_of_isBlankText hblank, List.nil_append]
    · rw [List.filter_cons_of_pos (by simp [hblank]), List.flatMap_cons, ih, List.flatMap_cons]

/-! ## Tokens -/

private theorem count_tokens_parse (grammar : Grammar) (text : String) (token : Token) :
    (grammar.parse text).tokens.count token =
      ((withReference (grammar.words text.toList)).map
        fun word => Token.ofText (String.ofList word)).count token :=
  (Definition.perm_ofTokens _).count_eq token

private theorem count_withReference (hreferences : token ≠ .references)
    (hdefault : token ≠ .other defaultReference) (ws : List (List Char)) :
    ((withReference ws).map fun word => Token.ofText (String.ofList word)).count token =
      (ws.map fun word => Token.ofText (String.ofList word)).count token := by
  unfold withReference
  split
  · have hadded : [Token.references.text.toList, defaultReference.toList].map
        (fun word => Token.ofText (String.ofList word)) =
          [.references, .other defaultReference] := by decide
    have hnone : [Token.references, .other defaultReference].count token = 0 := by
      simp [List.count_eq_zero, hreferences, hdefault]
    rw [List.map_append, hadded, List.count_append, hnone, Nat.add_zero]
  · rfl

private theorem words_joinTexts_pair (grammar : Grammar) (x y : String) :
    grammar.words (grammar.joinTexts [x, y]).toList =
      grammar.words x.toList ++ grammar.words y.toList := by
  simp [words_joinTexts]

/-- Of definitions that are put together neither the order matters nor blank ones among them.
Two definitions that are put together have the tokens of both, but for a default reference
that they may share, and just those where neither declares a foreign key. -/
theorem parse_joinTexts (grammar : Grammar) :
    (∀ texts others : List String, texts.Perm others →
      grammar.parse (grammar.joinTexts texts) = grammar.parse (grammar.joinTexts others)) ∧
    (∀ texts others : List String,
      (texts.filter fun text => !Text.isBlankText text) =
        (others.filter fun text => !Text.isBlankText text) →
      grammar.parse (grammar.joinTexts texts) = grammar.parse (grammar.joinTexts others)) ∧
    (∀ (x y : String) (token : Token), token ≠ .references → token ≠ .other "id" →
      (grammar.parse (grammar.joinTexts [x, y])).tokens.count token =
        (grammar.parse x).tokens.count token + (grammar.parse y).tokens.count token) ∧
    ∀ x y : String, .on ∉ (grammar.parse x).tokens → .on ∉ (grammar.parse y).tokens →
      ∀ token : Token, (grammar.parse (grammar.joinTexts [x, y])).tokens.count token =
        (grammar.parse x).tokens.count token + (grammar.parse y).tokens.count token := by
  refine ⟨?_, ?_, ?_, ?_⟩
  · intro texts others hperm
    apply parse_eq_of_words_perm
    rw [words_joinTexts, words_joinTexts]
    exact hperm.flatMap_right fun text => grammar.words text.toList
  · intro texts others hfilter
    apply parse_eq_of_words_eq
    rw [← words_joinTexts_filter grammar texts, hfilter, words_joinTexts_filter]
  · intro x y token hreferences hdefault
    have hcount := count_withReference hreferences hdefault
    simp only [count_tokens_parse, words_joinTexts_pair, hcount, List.map_append,
      List.count_append]
  · intro x y hx hy token
    have hxon : Token.on.text.toList ∉ grammar.words x.toList := text_not_mem_words rfl hx
    have hyon : Token.on.text.toList ∉ grammar.words y.toList := text_not_mem_words rfl hy
    have hwritten : ∀ ws : List (List Char), Token.on.text.toList ∉ ws → withReference ws = ws :=
      fun ws hws => withReference_of_mem fun hm => absurd hm hws
    rw [count_tokens_parse, count_tokens_parse, count_tokens_parse, words_joinTexts_pair,
      hwritten _ hxon, hwritten _ hyon, hwritten _ (List.not_mem_append hxon hyon),
      List.map_append, List.count_append]

/-- Two foreign keys share a reference; texts with separators of their own, in any order. -/
theorem parse_joinTexts_foreignKeys :
    ["on:users|index", " ", "on:teams"].Perm ["on:teams", "on:users|index", " "] ∧
    Grammar.pipe.parse "on:users|index| |on:teams" =
      Grammar.pipe.parse "on:teams|on:users|index| " ∧
    Grammar.pipe.parse "on:users|index| |on:teams" =
      Grammar.pipe.parse "\u2003|on:users|index|on:teams" ∧
    (Grammar.pipe.parse "on:users|on:teams").tokens.count .on =
      (Grammar.pipe.parse "on:users").tokens.count .on +
        (Grammar.pipe.parse "on:teams").tokens.count .on ∧
    (.on ∉ (Grammar.pipe.parse "references").tokens ∧
      .on ∉ (Grammar.pipe.parse "references:id").tokens) ∧
    (Grammar.pipe.parse "references|references:id").tokens.count .references =
      (Grammar.pipe.parse "references").tokens.count .references +
        (Grammar.pipe.parse "references:id").tokens.count .references := by
  obtain ⟨horder, hblank, hadd, hall⟩ := parse_joinTexts .pipe
  have hperm : ["on:users|index", " ", "on:teams"].Perm ["on:teams", "on:users|index", " "] := by
    decide
  have hfilter : (["on:users|index", " ", "on:teams"].filter fun text => !Text.isBlankText text) =
      ["\u2003", "on:users|index", "on:teams"].filter fun text => !Text.isBlankText text := by
    decide
  have hon : .on ∉ (Grammar.pipe.parse "references").tokens ∧
      .on ∉ (Grammar.pipe.parse "references:id").tokens := by
    rw [parse, parse, Definition.mem_ofTokens, Definition.mem_ofTokens]
    decide
  -- the joined texts, spelled out
  have htext : Grammar.pipe.joinTexts ["on:users|index", " ", "on:teams"] =
      "on:users|index| |on:teams" := by decide
  have hturned : Grammar.pipe.joinTexts ["on:teams", "on:users|index", " "] =
      "on:teams|on:users|index| " := by decide
  have hmoved : Grammar.pipe.joinTexts ["\u2003", "on:users|index", "on:teams"] =
      "\u2003|on:users|index|on:teams" := by decide
  have hkeys : Grammar.pipe.joinTexts ["on:users", "on:teams"] = "on:users|on:teams" := by decide
  have hplain : Grammar.pipe.joinTexts ["references", "references:id"] =
      "references|references:id" := by decide
  have hsame := horder _ _ hperm
  rw [htext, hturned] at hsame
  have hspread := hblank _ _ hfilter
  rw [htext, hmoved] at hspread
  have hcounted := hadd "on:users" "on:teams" .on (by decide) (by decide)
  rw [hkeys] at hcounted
  have hadded := hall _ _ hon.1 hon.2 .references
  rw [hplain] at hadded
  exact ⟨hperm, hsame, hspread, hcounted, hon, hadded⟩

end TableDelta.Grammar
