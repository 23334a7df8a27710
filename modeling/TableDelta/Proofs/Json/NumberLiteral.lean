import TableDelta.Json.NumberLiteral
import TableDelta.Proofs.Text.Numeral
/-!
# Reading back whole numbers

A whole number is read back from its literal, whatever follows it that cannot be part
of the literal.
-/
namespace TableDelta.Json

/-- Whether a text cannot go on with a number that stands before it. -/
def endsNumber : List Char → Bool
  | [] => true
  | c :: _ => !(c.isDigit || c == '.' || c == 'e' || c == 'E')

private theorem readFraction_of_endsNumber {rest : List Char} (h : endsNumber rest = true) :
    readFraction rest = some (none, rest) := by
  unfold readFraction
  split
  · simp [endsNumber] at h
  · rfl

private theorem readExponent_of_endsNumber {rest : List Char} (h : endsNumber rest = true) :
    readExponent rest = some (none, rest) := by
  unfold readExponent
  split
  · rfl
  · next c rest =>
    have hc : (c == 'e' || c == 'E') = false := by
      simp only [endsNumber, Bool.not_eq_true', Bool.or_eq_false_iff] at h
      simp [h.1.2, h.2]
    rw [hc]
    rfl

private theorem readMagnitude_decimalDigits (negative : Bool) (n : Nat) {rest : List Char}
    (h : endsNumber rest = true) :
    readMagnitude negative (Text.decimalDigits n ++ rest) =
      some (⟨negative, n, none, none⟩, rest) := by
  have hrest : ∀ c ∈ rest.head?, c.isDigit = false := by
    cases rest with
    | nil => simp
    | cons c rest =>
      simp only [endsNumber, Bool.not_eq_true', Bool.or_eq_false_iff] at h
      simp [h.1.1.1]
  have htake := Text.takeDigits?_append (fun c => Text.isDigit_of_mem_decimalDigits (n := n))
    (Text.decimalDigits_ne_nil n) hrest
  -- a literal that begins with a zero may not go on with further digits
  have hzero : (Text.decimalDigits n).head? = some '0' → (Text.decimalDigits n).length = 1 := by
    intro hh
    rw [Text.eq_zero_of_head?_decimalDigits hh]
    decide
  simpa [readMagnitude, htake, readFraction_of_endsNumber h, readExponent_of_endsNumber h,
    Text.decimalValue_decimalDigits] using hzero

theorem Number.eq_natural_of_natural? {value : Number} {n : Nat} (h : value.natural? = some n) :
    value = .natural n := by
  unfold Number.natural? at h
  split at h
  · rw [Option.some.inj h]
    rfl
  · exact absurd h (by simp)

theorem Number.write_natural (n : Nat) : (Number.natural n).write = Text.decimalDigits n := by
  simp [Number.write, Number.natural, Number.writeDigits]

theorem readNumber_write_natural (n : Nat) {rest : List Char} (h : endsNumber rest = true) :
    readNumber ((Number.natural n).write ++ rest) = some (.natural n, rest) := by
  rw [Number.write_natural]
  have hmagnitude := readMagnitude_decimalDigits false n h
  obtain ⟨digit, digits, hd, hdigit⟩ := Text.exists_decimalDigits_eq_cons n
  have hminus : digit ≠ '-' := by
    rintro rfl
    exact absurd hdigit (by decide)
  rw [hd] at hmagnitude ⊢
  unfold readNumber
  split
  · next heq =>
    rw [List.cons_append, List.cons.injEq] at heq
    exact absurd heq.1 hminus
  · exact hmagnitude

end TableDelta.Json
