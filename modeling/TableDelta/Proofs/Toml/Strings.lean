import TableDelta.Config.File
/-!
# Reading back single characters

A character is written in one of five forms: in apostrophes, on a line of its own, or in
quotes as itself or as one of two kinds of escape. Main statement: whatever the character,
the form that is chosen for it is read as the string of that character.
-/
namespace TableDelta.Toml

/-- The forms in which a character can be written. -/
inductive Writes (c : Char) : List Char → Prop
  | literal (h : c = '"' ∨ c = '\\') : Writes c ['\'', c, '\'']
  | line (h : c = '\n') : Writes c ['"', '"', '"', '\n', '\n', '"', '"', '"']
  | short (letter : Char) (hu : letter ≠ 'u') (hU : letter ≠ 'U')
      (h : shortEscape? letter = some c) : Writes c ['"', '\\', letter, '"']
  | hex {x y : Char} (h : hexEscape? ['0', '0', x, y] = some c) :
      Writes c ['"', '\\', 'u', '0', '0', x, y, '"']
  | plain (h : isBasicChar c = true) : Writes c ['"', c, '"']

private theorem hexEscape?_control {n : Nat} (h : n < 0x20 ∨ n = 0x7F) :
    hexEscape? ['0', '0', Text.upperHexDigit (n / 16), Text.upperHexDigit (n % 16)] =
      some (Char.ofNat n) := by
  have hlow : ∀ n < 0x20, hexEscape? ['0', '0', Text.upperHexDigit (n / 16),
      Text.upperHexDigit (n % 16)] = some (Char.ofNat n) := by decide
  rcases h with h | rfl
  · exact hlow n h
  · decide

private theorem isBasicChar_of_not_control {c : Char} (hquote : c ≠ '"') (hslash : c ≠ '\\')
    (h : ¬ (c.toNat < 0x20 ∨ c.toNat = 0x7F)) : isBasicChar c = true := by
  have hle : 0x20 ≤ c.toNat := by omega
  have hne : c.toNat ≠ 0x7F := by omega
  simp [isBasicChar, isCommentChar, hquote, hslash, hle, hne]

theorem writes_writeChar (c : Char) : Writes c (writeChar c) := by
  by_cases hquoted : c = '"' ∨ c = '\\'
  · have hwrite : writeChar c = ['\'', c, '\''] := by simp [writeChar, hquoted]
    rw [hwrite]
    exact .literal hquoted
  rw [not_or] at hquoted
  by_cases hline : c = '\n'
  · rw [hline]
    exact .line rfl
  by_cases hbackspace : c = '\x08'
  · rw [hbackspace]
    exact .short 'b' (by decide) (by decide) rfl
  by_cases htab : c = '\t'
  · rw [htab]
    exact .short 't' (by decide) (by decide) rfl
  by_cases hpage : c = '\x0c'
  · rw [hpage]
    exact .short 'f' (by decide) (by decide) rfl
  by_cases hreturn : c = '\r'
  · rw [hreturn]
    exact .short 'r' (by decide) (by decide) rfl
  have hdelete : c = '\x7f' ↔ c.toNat = 0x7F := by rw [← Char.toNat_inj]; rfl
  by_cases hcontrol : c.toNat < 0x20 ∨ c.toNat = 0x7F
  · have hwrite : writeChar c = ['"', '\\', 'u', '0', '0', Text.upperHexDigit (c.toNat / 16),
        Text.upperHexDigit (c.toNat % 16), '"'] := by
      simp [writeChar, hquoted, hline, hbackspace, htab, hpage, hreturn, hdelete, hcontrol]
    have hread := hexEscape?_control hcontrol
    rw [Char.ofNat_toNat] at hread
    rw [hwrite]
    exact .hex hread
  · have hwrite : writeChar c = ['"', c, '"'] := by
      simp [writeChar, hquoted, hline, hbackspace, htab, hpage, hreturn, hdelete, hcontrol]
    rw [hwrite]
    exact .plain (isBasicChar_of_not_control hquoted.1 hquoted.2 hcontrol)

private theorem readBasic_quote (rest : List Char) : readBasic ('"' :: rest) = some ([], rest) := by
  rw [readBasic]

private theorem readBasic_of_isBasicChar {c : Char} (h : isBasicChar c = true) (rest : List Char) :
    readBasic (c :: rest) = prepend (some c) (readBasic rest) := by
  have hc := h
  simp only [isBasicChar, Bool.and_eq_true, bne_iff_ne, ne_eq] at hc
  rw [readBasic, if_pos h]
  · exact hc.1.2
  · intro a b d e tail hslash
    exact absurd hslash hc.2
  · intro a b d e f g i j tail hslash
    exact absurd hslash hc.2
  · intro letter tail hslash
    exact absurd hslash hc.2

private theorem readBasic_of_shortEscape? {letter c : Char} (hu : letter ≠ 'u') (hU : letter ≠ 'U')
    (h : shortEscape? letter = some c) (rest : List Char) :
    readBasic ('\\' :: letter :: rest) = prepend (some c) (readBasic rest) := by
  rw [readBasic, h]
  · intro a b d e tail heq
    exact absurd heq hu
  · intro a b d e f g i j tail heq
    exact absurd heq hU

private theorem readString_quote {c : Char} (h : c ≠ '"') (rest : List Char) :
    readString ('"' :: c :: rest) =
      (readBasic (c :: rest)).map fun (text, rest) => (String.ofList text, rest) := by
  unfold readString
  split
  · next heq => exact absurd (List.cons.inj (List.cons.inj heq).2).1 h
  · next heq => rw [(List.cons.inj heq).2]
  · next heq => exact absurd (List.cons.inj heq).1 (by decide)
  · next heq => exact absurd (List.cons.inj heq).1 (by decide)
  · next hother _ _ => exact absurd rfl (hother _)

/-- A form in which a character can be written is read as that character, in front of any
further lines. -/
theorem Writes.readString {c : Char} {cs : List Char} (h : Writes c cs) (rest : List Char) :
    readString (cs ++ '\n' :: rest) = some (String.singleton c, '\n' :: rest) := by
  cases h with
  | literal h =>
    rcases h with rfl | rfl
    · rfl
    · rfl
  | line h =>
    rw [h]
    rfl
  | short letter hu hU h =>
    have hread := readBasic_of_shortEscape? hu hU h ('"' :: '\n' :: rest)
    rw [readBasic_quote] at hread
    simp only [List.cons_append, List.nil_append]
    rw [readString_quote (by decide), hread]
    rfl
  | hex h =>
    simp only [List.cons_append, List.nil_append]
    rw [readString_quote (by decide), readBasic, h, readBasic_quote]
    rfl
  | plain h =>
    have hquote : c ≠ '"' := by
      rintro rfl
      exact absurd h (by decide)
    have hread := readBasic_of_isBasicChar h ('"' :: '\n' :: rest)
    rw [readBasic_quote] at hread
    simp only [List.cons_append, List.nil_append]
    rw [readString_quote hquote, hread]
    rfl

theorem Writes.exists_eq_cons {c : Char} {cs : List Char} (h : Writes c cs) :
    ∃ quote tail, cs = quote :: tail ∧ (quote = '"' ∨ quote = '\'') := by
  cases h with
  | literal => exact ⟨_, _, rfl, .inr rfl⟩
  | line => exact ⟨_, _, rfl, .inl rfl⟩
  | short => exact ⟨_, _, rfl, .inl rfl⟩
  | hex => exact ⟨_, _, rfl, .inl rfl⟩
  | plain => exact ⟨_, _, rfl, .inl rfl⟩

theorem Writes.isSpace_of_mem_head? {c first : Char} {cs : List Char} (h : Writes c cs)
    (hfirst : first ∈ cs.head?) : isSpace first = false := by
  obtain ⟨quote, tail, rfl, hquote⟩ := h.exists_eq_cons
  cases hfirst
  rcases hquote with rfl | rfl
  · decide
  · decide

private theorem readValue_quote {quote : Char} (h : quote = '"' ∨ quote = '\'') (depth : Nat)
    (rest : List Char) : readValue depth (quote :: rest) =
      (readString (quote :: rest)).map fun (text, rest) => (.string text, rest) := by
  rcases h with rfl | rfl
  · rw [readValue]
  · rw [readValue]

theorem Writes.readValue {c : Char} {cs : List Char} (h : Writes c cs) (depth : Nat)
    (rest : List Char) : readValue depth (cs ++ '\n' :: rest) =
      some (.string (String.singleton c), '\n' :: rest) := by
  have hstring := h.readString rest
  obtain ⟨quote, tail, rfl, hquote⟩ := h.exists_eq_cons
  rw [List.cons_append] at hstring ⊢
  rw [readValue_quote hquote, hstring]
  rfl

end TableDelta.Toml
