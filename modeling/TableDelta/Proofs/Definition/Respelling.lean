import Mathlib.Data.List.Basic
import Mathlib.Logic.Equiv.Basic
import TableDelta.Proofs.Definition.Image
import TableDelta.Proofs.Definition.Scan
/-!
# Respelling definitions

Which characters separate clauses, options and values is a matter of spelling. When characters
are exchanged one for another, in a definition and in the separators alike, it has the same
tokens as before, spelled with the exchanged characters. Letters have to stay as they are, since
modifiers are told by their spelling, and blanks have to stay blanks. A scan of the respelled
definition then keeps in step with a scan of the definition.
-/
namespace TableDelta

/-- An exchange of characters that leaves letters alone and keeps blanks among themselves. -/
structure Respelling where
  char : Equiv.Perm Char
  letter : ∀ c : Char, c.isAlpha = true → char c = c
  blank : ∀ c, Text.isBlank (char c) = Text.isBlank c

namespace Respelling

open Grammar

def onText (s : Respelling) (text : String) : String :=
  String.ofList (text.toList.map s.char)

/-- Modifiers are written with letters, so only other tokens are spelled anew. -/
def onToken (s : Respelling) : Token → Token
  | .other text => .other (s.onText text)
  | token => token

def onDefinition (s : Respelling) (definition : Definition) : Definition :=
  .ofTokens (definition.tokens.map s.onToken)

def onGrammar (s : Respelling) (grammar : Grammar) : Grammar where
  clauseSeparator := s.char grammar.clauseSeparator
  optionSeparator := s.char grammar.optionSeparator
  valueSeparator := s.char grammar.valueSeparator

def onScan (s : Respelling) (scan : Scan) : Scan where
  part := scan.part
  buffer := scan.buffer.map s.char
  words := scan.words.map (List.map s.char)

variable (s : Respelling) {grammar : Grammar}

/-! ## Scans in step -/

private theorem trimStart_map (cs : List Char) :
    Text.trimStart (cs.map s.char) = (Text.trimStart cs).map s.char := by
  have hblank : Text.isBlank ∘ s.char = Text.isBlank := funext s.blank
  rw [Text.trimStart, List.dropWhile_map, hblank, Text.trimStart]

private theorem trim_map (cs : List Char) :
    Text.trim (cs.map s.char) = (Text.trim cs).map s.char := by
  have hend : ∀ cs, Text.trimEnd (cs.map s.char) = (Text.trimEnd cs).map s.char := by
    intro cs
    have hstart := s.trimStart_map cs.reverse
    rw [List.map_reverse] at hstart
    rw [Text.trimEnd, ← Text.trimStart, hstart, ← List.map_reverse]
    rfl
  rw [Text.trim, trimStart_map, hend, Text.trim]

private theorem flush_onScan (scan : Scan) (part : Part) :
    (s.onScan scan).flush part = s.onScan (scan.flush part) := by
  simp only [Scan.flush, onScan, trim_map, List.map_eq_nil_iff, List.map_nil]
  split
  · rfl
  · rw [List.map_append]
    rfl

private theorem step_onScan (scan : Scan) (c : Char) :
    (s.onScan scan).step (s.onGrammar grammar) (s.char c) = s.onScan (scan.step grammar c) := by
  have hpart : (s.onScan scan).part = scan.part := rfl
  simp only [Scan.step, onGrammar, s.char.injective.eq_iff, s.blank, hpart, flush_onScan]
  split
  · rfl
  split
  · rfl
  split
  · rfl
  · simp [onScan]

private theorem foldl_onScan (grammar : Grammar) (scan : Scan) (text : List Char) :
    (text.map s.char).foldl (Scan.step (s.onGrammar grammar)) (s.onScan scan) =
      s.onScan (text.foldl (Scan.step grammar) scan) := by
  induction text generalizing scan with
  | nil => rfl
  | cons c text ih => rw [List.map_cons, List.foldl_cons, List.foldl_cons, step_onScan, ih]

theorem words_onGrammar (text : List Char) :
    (s.onGrammar grammar).words (text.map s.char) =
      (grammar.words text).map (List.map s.char) := by
  have hstart : s.onScan Scan.start = Scan.start := rfl
  have hrun : Scan.run (s.onGrammar grammar) (text.map s.char) =
      s.onScan (Scan.run grammar text) := by
    have hscan := s.foldl_onScan grammar Scan.start text
    rw [hstart] at hscan
    rw [Scan.run, hscan, flush_onScan]
    rfl
  rw [← Scan.words_run, hrun, ← Scan.words_run]
  rfl

/-! ## Words and tokens -/

private theorem map_of_letters {word : List Char} (h : word.all Char.isAlpha = true) :
    word.map s.char = word := by
  rw [List.map_congr_left fun c hc => s.letter c (List.all_eq_true.mp h c hc), List.map_id']

private theorem contains_map {word : List Char} (h : word.all Char.isAlpha = true)
    (ws : List (List Char)) :
    (ws.map (List.map s.char)).contains word = ws.contains word := by
  have hinjective := List.map_injective_iff.mpr s.char.injective
  rw [Bool.eq_iff_iff, List.contains_iff_mem, List.contains_iff_mem]
  conv => lhs; rw [← s.map_of_letters h]
  exact List.mem_map_of_injective hinjective

private theorem withReference_map (ws : List (List Char)) :
    withReference (ws.map (List.map s.char)) = (withReference ws).map (List.map s.char) := by
  have hon : Token.on.text.toList.all Char.isAlpha = true := by decide
  have hreferences : Token.references.text.toList.all Char.isAlpha = true := by decide
  have hdefault : defaultReference.toList.all Char.isAlpha = true := by decide
  simp only [withReference, s.contains_map hon, s.contains_map hreferences]
  split
  · rw [List.map_append, List.map_cons, List.map_singleton, s.map_of_letters hreferences,
      s.map_of_letters hdefault]
  · rfl

private theorem onText_of_mem_vocabulary {token : Token} (h : token ∈ Token.vocabulary) :
    s.onText token.text = token.text := by
  have hletters : ∀ token ∈ Token.vocabulary, token.text.toList.all Char.isAlpha = true := by
    decide
  rw [onText, s.map_of_letters (hletters token h), String.ofList_toList]

private theorem text_onToken (token : Token) : (s.onToken token).text = s.onText token.text := by
  cases token with
  | other text => rfl
  | _ =>
    rw [s.onText_of_mem_vocabulary]
    · rfl
    · decide

private theorem onText_injective : Function.Injective s.onText := by
  intro a b h
  have hlists := String.ofList_injective h
  exact String.toList_inj.mp (List.map_injective_iff.mpr s.char.injective hlists)

private theorem ofText_onText (text : String) :
    Token.ofText (s.onText text) = s.onToken (.ofText text) := by
  have hread : Token.ofText (s.onToken (.ofText text)).text = s.onToken (.ofText text) := by
    apply Token.ofText_text
    intro spelled hother known hknown htext
    cases htoken : Token.ofText text with
    | other plain =>
      rw [htoken] at hother
      have hspelled : s.onText plain = spelled := Token.other.inj hother
      rw [← hspelled, ← s.onText_of_mem_vocabulary hknown] at htext
      exact Token.text_ne_of_ofText_eq_other htoken known hknown (s.onText_injective htext)
    | _ =>
      rw [htoken] at hother
      exact Token.noConfusion hother
  rwa [text_onToken, Token.text_ofText] at hread

theorem parse_onText (grammar : Grammar) (text : String) :
    (s.onGrammar grammar).parse (s.onText text) = s.onDefinition (grammar.parse text) := by
  have hwords : (s.onGrammar grammar).words (s.onText text).toList =
      (grammar.words text.toList).map (List.map s.char) := by
    rw [onText, String.toList_ofList, words_onGrammar]
  have hread : ∀ ws : List (List Char),
      ((ws.map (List.map s.char)).map fun word => Token.ofText (String.ofList word)) =
        (ws.map fun word => Token.ofText (String.ofList word)).map s.onToken := by
    intro ws
    rw [List.map_map, List.map_map]
    apply List.map_congr_left
    intro word _
    rw [Function.comp_apply, Function.comp_apply, ← ofText_onText, onText, String.toList_ofList]
  apply Definition.ofTokens_eq_of_perm
  rw [hwords, withReference_map, hread]
  have hperm := (Definition.perm_ofTokens ((withReference (grammar.words text.toList)).map
    fun word => Token.ofText (String.ofList word))).map s.onToken
  exact hperm.symm.trans (Definition.perm_ofTokens _).symm

private theorem onDefinition_of_fixed {definition : Definition}
    (h : ∀ token ∈ definition.tokens, ∀ c ∈ token.text.toList, s.char c = c) :
    s.onDefinition definition = definition := by
  have hfixed : ∀ token ∈ definition.tokens, s.onToken token = token := by
    intro token hm
    cases token with
    | other text =>
      have htext : text.toList.map s.char = text.toList :=
        (List.map_congr_left (h _ hm)).trans (List.map_id' _)
      rw [onToken, onText, htext, String.ofList_toList]
    | _ => rfl
  rw [onDefinition, List.map_congr_left hfixed, List.map_id']
  exact Definition.ofTokens_eq_of_perm (List.Perm.refl definition.tokens)

/-! ## From one preset to the other -/

/-- The separators of both presets. -/
def presetSeparators : List Char := ['|', ':', ',', ';', '=']

/-- Exchanges the separators of one preset for those of the other, and the two characters that
they free in turn: `|`, `,` and `;` each become the next one, `:` and `=` one another. -/
def exchange : Equiv.Perm Char :=
  (Equiv.swap ':' '=').trans ((Equiv.swap ',' ';').trans (Equiv.swap '|' ','))

private theorem exchange_of_not_mem {c : Char} (h : c ∉ presetSeparators) : exchange c = c := by
  simp only [presetSeparators, List.mem_cons, List.not_mem_nil, or_false, not_or] at h
  obtain ⟨hbar, hcolon, hcomma, hsemicolon, hequals⟩ := h
  simp [exchange, Equiv.swap_apply_of_ne_of_ne, hbar, hcolon, hcomma, hsemicolon, hequals]

def pipeToComma : Respelling where
  char := exchange
  letter := by
    intro c hc
    refine exchange_of_not_mem fun hm => ?_
    have hnone : presetSeparators.any Char.isAlpha = false := by decide
    exact List.any_eq_false.mp hnone c hm hc
  blank := by
    intro c
    by_cases hm : c ∈ presetSeparators
    · have hsame : (presetSeparators.all fun c =>
          Text.isBlank (exchange c) == Text.isBlank c) = true := by decide
      exact beq_iff_eq.mp (List.all_eq_true.mp hsame c hm)
    · rw [exchange_of_not_mem hm]

/-- A definition can be carried over to other separators by exchanging characters, which leads
from one preset to the other and leaves a definition as it is if it names none of theirs. -/
theorem parse_respelled :
    (∀ (s : Respelling) (grammar : Grammar) (text : String),
      (s.onGrammar grammar).parse (s.onText text) = s.onDefinition (grammar.parse text)) ∧
    presetSeparators.map pipeToComma.char = [',', '=', ';', '|', ':'] ∧
    (∀ text : String, Grammar.comma.parse (pipeToComma.onText text) =
      pipeToComma.onDefinition (Grammar.pipe.parse text)) ∧
    ∀ text : String,
      (∀ token ∈ (Grammar.pipe.parse text).tokens, ∀ c ∈ presetSeparators,
        c ∉ token.text.toList) →
      Grammar.comma.parse (pipeToComma.onText text) = Grammar.pipe.parse text := by
  have hcomma : pipeToComma.onGrammar Grammar.pipe = Grammar.comma := by decide
  have hpreset : ∀ text : String, Grammar.comma.parse (pipeToComma.onText text) =
      pipeToComma.onDefinition (Grammar.pipe.parse text) := by
    intro text
    rw [← hcomma, parse_onText]
  refine ⟨fun s grammar text => s.parse_onText grammar text, by decide, hpreset, ?_⟩
  intro text h
  rw [hpreset]
  apply onDefinition_of_fixed
  intro token hm c hc
  exact exchange_of_not_mem fun hseparator => h token hm c hseparator hc

/-- A foreign key reads the same in both presets, its default reference included. -/
theorem parse_respelled_foreignKey :
    (∀ token ∈ (Grammar.pipe.parse "foreignId|on:users, nullable").tokens,
      ∀ c ∈ presetSeparators, c ∉ token.text.toList) ∧
    Grammar.comma.parse "foreignId,on=users; nullable" =
      Grammar.pipe.parse "foreignId|on:users, nullable" := by
  have hspelled : pipeToComma.onText "foreignId|on:users, nullable" =
      "foreignId,on=users; nullable" := by decide
  have hwords : ((withReference (Grammar.pipe.words "foreignId|on:users, nullable".toList)).all
      fun word => presetSeparators.all fun c => !word.contains c) = true := by decide
  have hplain : ∀ token ∈ (Grammar.pipe.parse "foreignId|on:users, nullable").tokens,
      ∀ c ∈ presetSeparators, c ∉ token.text.toList := by
    intro token hm
    obtain ⟨word, hword, rfl⟩ := mem_tokens_parse.mp hm
    rw [text_toList_ofText]
    simpa using List.all_eq_true.mp hwords word hword
  have hsame := parse_respelled.2.2.2 _ hplain
  rw [hspelled] at hsame
  exact ⟨hplain, hsame⟩

end Respelling

end TableDelta
