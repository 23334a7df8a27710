import TableDelta.Proofs.Definition.Clauses
/-!
# Definitions in one pass

A definition can be read character by character: a scan keeps the part of a clause that it is
in and the text since the last separator, and each separator ends a word and says how to go
on. `parse_eq_scanned` shows that this reads what splitting the text into clauses, options
and values reads, under any separators.
-/
namespace TableDelta.Grammar

/-- A scan of a definition between two of its characters. -/
structure Scan where
  /-- The part of a clause that the scan is in. -/
  part : Part
  /-- The text since the last separator. -/
  buffer : List Char
  /-- The words that were ended. -/
  words : List (List Char)

namespace Scan

def start : Scan := ⟨.key, [], []⟩

/-- Ends a word, unless there is nothing but blanks, and goes on in some part. -/
def flush (scan : Scan) (part : Part) : Scan where
  part := part
  buffer := []
  words :=
    if Text.trim scan.buffer = [] then scan.words else scan.words ++ [Text.trim scan.buffer]

/-- Reads one character. -/
def step (grammar : Grammar) (scan : Scan) (c : Char) : Scan :=
  if c = grammar.clauseSeparator then scan.flush .key
  else if c = grammar.optionSeparator then scan.flush .values
  else if scan.part = .values ∧ (c = grammar.valueSeparator ∨ Text.isBlank c = true) then
    scan.flush .values
  else { scan with buffer := scan.buffer ++ [c] }

/-- Reads a text to its end, which ends a word too. -/
def run (grammar : Grammar) (text : List Char) : Scan :=
  let scan := text.foldl (step grammar) start
  scan.flush scan.part

end Scan

/-- The definition that one scan of a text reads. -/
def scanned (grammar : Grammar) (text : String) : Definition :=
  let words := (Scan.run grammar text.toList).words.map String.ofList
  .ofTokens <| List.map Token.ofText <|
    if "on" ∈ words ∧ "references" ∉ words then words ++ ["references", "id"] else words

namespace Scan

variable {grammar : Grammar} {scan : Scan} {c : Char}

private theorem words_flush (scan : Scan) (part : Part) :
    (scan.flush part).words = scan.words ++ word scan.buffer := by
  unfold flush word
  cases Text.trim scan.buffer with
  | nil => simp
  | cons c cs => simp

/-- What a scan keeps in its buffer holds no separator of the part that it is in. -/
structure Clean (grammar : Grammar) (scan : Scan) : Prop where
  noClause : grammar.clauseSeparator ∉ scan.buffer
  noOption : grammar.optionSeparator ∉ scan.buffer
  noValue : scan.part = .values → ∀ c ∈ scan.buffer, grammar.partsValues c = false

private theorem clean_flush (grammar : Grammar) (scan : Scan) (part : Part) :
    (scan.flush part).Clean grammar where
  noClause := List.not_mem_nil
  noOption := List.not_mem_nil
  noValue := fun _ _ hc => absurd hc List.not_mem_nil

/-- The words that there will be at the end if some text is still to be read. -/
def upTo (grammar : Grammar) (scan : Scan) (rest : List Char) : List (List Char) :=
  scan.words ++ grammar.wordsFrom scan.part (scan.buffer ++ rest)

private theorem Clean.wordsFrom_buffer (h : scan.Clean grammar) :
    grammar.wordsFrom scan.part scan.buffer = word scan.buffer := by
  rw [wordsFrom_of_not_mem h.noClause]
  cases hpart : scan.part with
  | key => exact clauseWords_of_not_mem h.noOption
  | values =>
    rw [partWords_values_of_not_mem h.noOption, valueWords_of_forall (h.noValue hpart)]

private theorem upTo_flush (scan : Scan) (part : Part) (rest : List Char) :
    (scan.flush part).upTo grammar rest =
      scan.words ++ (word scan.buffer ++ grammar.wordsFrom part rest) := by
  rw [upTo, words_flush, List.append_assoc]
  rfl

theorem Clean.keep (h : scan.Clean grammar) (hclause : c ≠ grammar.clauseSeparator)
    (hoption : c ≠ grammar.optionSeparator)
    (hvalue : scan.part = .values → grammar.partsValues c = false) :
    Clean grammar { scan with buffer := scan.buffer ++ [c] } where
  noClause := by simpa [h.noClause] using hclause.symm
  noOption := by simpa [h.noOption] using hoption.symm
  noValue := by
    intro hpart d hd
    rcases List.mem_append.mp hd with hd | hd
    · exact h.noValue hpart d hd
    · rw [List.mem_singleton.mp hd]
      exact hvalue hpart

/-- Reading a character changes nothing about the words that there will be at the end. -/
theorem Clean.step (h : scan.Clean grammar) (c : Char) (rest : List Char) :
    (scan.step grammar c).Clean grammar ∧
      (scan.step grammar c).upTo grammar rest = scan.upTo grammar (c :: rest) := by
  unfold Scan.step
  split
  · next hclause =>
    subst hclause
    refine ⟨clean_flush grammar scan .key, ?_⟩
    rw [upTo_flush, upTo, wordsFrom_append_clause, h.wordsFrom_buffer, wordsFrom_key]
  next hclause =>
  split
  · next hoption =>
    subst hoption
    refine ⟨clean_flush grammar scan .values, ?_⟩
    rw [upTo_flush, upTo, wordsFrom_append_option hclause, h.wordsFrom_buffer]
  next hoption =>
  split
  · next hvalue =>
    obtain ⟨hpart, hvalue⟩ := hvalue
    refine ⟨clean_flush grammar scan .values, ?_⟩
    have hparts : grammar.partsValues c = true := by simpa [partsValues] using hvalue
    have hnoClause : grammar.clauseSeparator ∉ scan.buffer ++ [c] := by
      simpa [h.noClause] using fun he => hclause he.symm
    have hnoOption : grammar.optionSeparator ∉ scan.buffer ++ [c] := by
      simpa [h.noOption] using fun he => hoption he.symm
    rw [upTo_flush, upTo, hpart, wordsFrom_values_append hnoClause hnoOption hparts,
      valueWords_of_forall (h.noValue hpart)]
  · next hvalue =>
    refine ⟨h.keep hclause hoption fun hpart => ?_, ?_⟩
    · simpa [partsValues, hpart] using hvalue
    · rw [upTo, upTo, ← List.append_cons]

theorem Clean.foldl (h : scan.Clean grammar) (text : List Char) :
    (text.foldl (Scan.step grammar) scan).Clean grammar ∧
      (text.foldl (Scan.step grammar) scan).upTo grammar [] = scan.upTo grammar text := by
  induction text generalizing scan with
  | nil => exact ⟨h, rfl⟩
  | cons c rest ih =>
    obtain ⟨hclean, hstep⟩ := h.step c rest
    obtain ⟨hend, hrest⟩ := ih hclean
    exact ⟨hend, hrest.trans hstep⟩

theorem words_run (grammar : Grammar) (text : List Char) :
    (run grammar text).words = grammar.words text := by
  have hstart : start.Clean grammar := clean_flush grammar start .key
  obtain ⟨hclean, hwords⟩ := hstart.foldl text
  rw [run, words_flush, ← hclean.wordsFrom_buffer]
  rw [upTo, List.append_nil] at hwords
  rw [hwords, upTo, ← wordsFrom_key]
  rfl

end Scan

private theorem map_withReference (ws : List (List Char)) :
    (withReference ws).map String.ofList =
      if "on" ∈ ws.map String.ofList ∧ "references" ∉ ws.map String.ofList then
        ws.map String.ofList ++ ["references", "id"]
      else ws.map String.ofList := by
  have hmem : ∀ s : String, s ∈ ws.map String.ofList ↔ s.toList ∈ ws := by
    intro s
    constructor
    · intro hs
      obtain ⟨w, hw, rfl⟩ := List.mem_map.mp hs
      rwa [String.toList_ofList]
    · intro hs
      exact List.mem_map.mpr ⟨s.toList, hs, String.ofList_toList⟩
  unfold withReference
  rw [apply_ite (List.map String.ofList)]
  refine ite_congr (propext ?_) (fun _ => ?_) fun _ => rfl
  · rw [hmem, hmem, Bool.and_eq_true, List.contains_iff_mem, Bool.not_eq_true',
      ← Bool.not_eq_true, List.contains_iff_mem]
    rfl
  · rw [List.map_append]
    rfl

/-- Parsing reads a definition as one scan of its characters does, for all separators. -/
theorem parse_eq_scanned (grammar : Grammar) (text : String) :
    grammar.parse text = grammar.scanned text := by
  have hwords : (Scan.run grammar text.toList).words = grammar.words text.toList :=
    Scan.words_run grammar text.toList
  simp only [scanned, hwords, ← map_withReference, List.map_map]
  rfl

/-- A blank that stands between clauses ends the values of a list, so a key comes next. -/
example : (Scan.run ⟨' ', ':', ','⟩ "a:b,c d,e".toList).words.map String.ofList =
    ["a", "b", "c", "d,e"] := by
  decide

end TableDelta.Grammar
