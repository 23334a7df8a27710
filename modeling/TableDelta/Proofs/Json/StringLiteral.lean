import TableDelta.Json.StringLiteral
/-!
# Reading back string literals

Each character is read back from the way it is written, whatever stands behind it; so a
literal gives back its text, also one with quotes, backslashes and control characters.
-/
namespace TableDelta.Json

private theorem hexValue?_control {n : Nat} (h : n < 0x20) :
    Text.hexValue? ['0', '0', Text.lowerHexDigit (n / 16), Text.lowerHexDigit (n % 16)] =
      some n := by
  have hall : ∀ n < 0x20, Text.hexValue? ['0', '0', Text.lowerHexDigit (n / 16),
      Text.lowerHexDigit (n % 16)] = some n := by decide
  exact hall n h

private theorem assemble_control {c : Char} (h : c.toNat < 0x20) (parts : List LiteralPart) :
    assemble none (.unit c.toNat :: parts) = (assemble none parts).map (c :: ·) := by
  have hhigh : isHighSurrogate c.toNat = false := by
    simp only [isHighSurrogate, Bool.and_eq_false_iff]
    left
    rw [← Bool.not_eq_true, Nat.ble_eq]
    omega
  have hlow : isLowSurrogate c.toNat = false := by
    simp only [isLowSurrogate, Bool.and_eq_false_iff]
    left
    rw [← Bool.not_eq_true, Nat.ble_eq]
    omega
  rw [assemble, hhigh, hlow, Char.ofNat_toNat]
  rfl

private theorem readLiteral_shortEscape {letter c : Char} (hletter : letter ≠ 'u')
    (h : shortEscape? letter = some c) (rest : List Char) :
    readLiteral ('\\' :: letter :: rest) =
      (readLiteral rest).map fun r => (.char c :: r.1, r.2) := by
  rw [readLiteral, h]
  · cases readLiteral rest with
    | none => rfl
    | some r => rfl
  · intro a b c d tail hl
    exact absurd hl hletter

private theorem readLiteral_control {c : Char} (h : c.toNat < 0x20) (rest : List Char) :
    readLiteral ('\\' :: 'u' :: '0' :: '0' :: Text.lowerHexDigit (c.toNat / 16) ::
      Text.lowerHexDigit (c.toNat % 16) :: rest) =
      (readLiteral rest).map fun r => (.unit c.toNat :: r.1, r.2) := by
  rw [readLiteral, hexValue?_control h]
  cases readLiteral rest with
  | none => rfl
  | some r => rfl

private theorem readLiteral_plain {c : Char} (hquote : c ≠ '"') (hslash : c ≠ '\\')
    (h : 0x20 ≤ c.toNat) (rest : List Char) :
    readLiteral (c :: rest) = (readLiteral rest).map fun r => (.char c :: r.1, r.2) := by
  have hc : (Nat.blt c.toNat 0x20 || c == '\\') = false := by
    rw [Bool.or_eq_false_iff]
    constructor
    · rw [← Bool.not_eq_true, Nat.blt_eq]
      omega
    · exact beq_false_of_ne hslash
  rw [readLiteral, hc]
  · cases readLiteral rest with
    | none => rfl
    | some r => rfl
  · exact hquote
  · intro a b d e tail hslash'
    exact absurd hslash' hslash
  · intro letter tail hslash'
    exact absurd hslash' hslash

private theorem escape_cases (c : Char) :
    (∃ letter, letter ≠ 'u' ∧ shortEscape? letter = some c ∧ escape c = ['\\', letter]) ∨
    (c.toNat < 0x20 ∧ escape c = ['\\', 'u', '0', '0', Text.lowerHexDigit (c.toNat / 16),
      Text.lowerHexDigit (c.toNat % 16)]) ∨
    (c ≠ '"' ∧ c ≠ '\\' ∧ 0x20 ≤ c.toNat ∧ escape c = [c]) := by
  by_cases hquote : c = '"'
  · exact .inl ⟨'"', by decide, by rw [hquote]; rfl, by rw [hquote]; rfl⟩
  by_cases hslash : c = '\\'
  · exact .inl ⟨'\\', by decide, by rw [hslash]; rfl, by rw [hslash]; rfl⟩
  by_cases hbackspace : c = '\x08'
  · exact .inl ⟨'b', by decide, by rw [hbackspace]; rfl, by rw [hbackspace]; rfl⟩
  by_cases htab : c = '\t'
  · exact .inl ⟨'t', by decide, by rw [htab]; rfl, by rw [htab]; rfl⟩
  by_cases hline : c = '\n'
  · exact .inl ⟨'n', by decide, by rw [hline]; rfl, by rw [hline]; rfl⟩
  by_cases hpage : c = '\x0c'
  · exact .inl ⟨'f', by decide, by rw [hpage]; rfl, by rw [hpage]; rfl⟩
  by_cases hreturn : c = '\r'
  · exact .inl ⟨'r', by decide, by rw [hreturn]; rfl, by rw [hreturn]; rfl⟩
  have hescape : escape c = if Nat.blt c.toNat 0x20 then
      ['\\', 'u', '0', '0', Text.lowerHexDigit (c.toNat / 16), Text.lowerHexDigit (c.toNat % 16)]
      else [c] := by
    rw [escape, if_neg hquote, if_neg hslash, if_neg hbackspace, if_neg htab, if_neg hline,
      if_neg hpage, if_neg hreturn]
  by_cases hcontrol : c.toNat < 0x20
  · rw [if_pos (Nat.blt_eq.mpr hcontrol)] at hescape
    exact .inr (.inl ⟨hcontrol, hescape⟩)
  · rw [if_neg (fun h => hcontrol (Nat.blt_eq.mp h))] at hescape
    exact .inr (.inr ⟨hquote, hslash, Nat.le_of_not_lt hcontrol, hescape⟩)

private theorem readLiteral_escape (c : Char) :
    ∃ part, (∀ parts, assemble none (part :: parts) = (assemble none parts).map (c :: ·)) ∧
      ∀ rest, readLiteral (escape c ++ rest) =
        (readLiteral rest).map fun r => (part :: r.1, r.2) := by
  rcases escape_cases c with ⟨letter, hletter, hc, hescape⟩ | ⟨hcontrol, hescape⟩ |
    ⟨hquote, hslash, hc, hescape⟩
  · refine ⟨.char c, fun parts => rfl, ?_⟩
    intro rest
    rw [hescape]
    exact readLiteral_shortEscape hletter hc rest
  · refine ⟨.unit c.toNat, assemble_control hcontrol, ?_⟩
    intro rest
    rw [hescape]
    exact readLiteral_control hcontrol rest
  · refine ⟨.char c, fun parts => rfl, ?_⟩
    intro rest
    rw [hescape]
    exact readLiteral_plain hquote hslash hc rest

theorem readLiteral_flatMap_escape (cs rest : List Char) :
    ∃ parts, readLiteral (cs.flatMap escape ++ '"' :: rest) = some (parts, rest) ∧
      assemble none parts = some cs := by
  induction cs with
  | nil => exact ⟨[], by simp [readLiteral], rfl⟩
  | cons c cs ih =>
    obtain ⟨parts, hparts, hcs⟩ := ih
    obtain ⟨part, hpart, hc⟩ := readLiteral_escape c
    refine ⟨part :: parts, ?_, ?_⟩
    · rw [List.flatMap_cons, List.append_assoc, hc, hparts]
      rfl
    · rw [hpart, hcs]
      rfl

end TableDelta.Json
