import TableDelta.Proofs.List.Runs
import TableDelta.Text.Numeral
/-!
# Reading back decimal digits

The digits that are written for a number are digits, one of them at least, with a zero
in front for zero alone; and what follows them in a text is left for the next reader.
-/
namespace TableDelta.Text

theorem takeDigits?_append {digits rest : List Char} (hd : ∀ c ∈ digits, c.isDigit = true)
    (hn : digits ≠ []) (hr : ∀ c ∈ rest.head?, c.isDigit = false) :
    takeDigits? (digits ++ rest) = some (digits, rest) := by
  rw [takeDigits?, Runs.takeWhile_append hd hr, Runs.dropWhile_append hd hr]
  cases digits with
  | nil => exact absurd rfl hn
  | cons digit digits => rfl

theorem isDigit_of_mem_decimalDigits {n : Nat} {c : Char} (h : c ∈ decimalDigits n) :
    c.isDigit = true :=
  Nat.isDigit_of_mem_toDigits (by decide) (by decide) h

theorem decimalDigits_ne_nil (n : Nat) : decimalDigits n ≠ [] := Nat.toDigits_ne_nil

theorem exists_decimalDigits_eq_cons (n : Nat) :
    ∃ digit digits, decimalDigits n = digit :: digits ∧ digit.isDigit = true := by
  cases hd : decimalDigits n with
  | nil => exact absurd hd (decimalDigits_ne_nil n)
  | cons digit digits =>
    have hmem : digit ∈ decimalDigits n := by
      rw [hd]
      exact List.mem_cons_self
    exact ⟨digit, digits, rfl, isDigit_of_mem_decimalDigits hmem⟩

theorem decimalValue_decimalDigits (n : Nat) : decimalValue (decimalDigits n) = n :=
  Nat.ofDigitChars_ten_toDigits

theorem eq_zero_of_head?_decimalDigits {n : Nat} (h : (decimalDigits n).head? = some '0') :
    n = 0 := by
  induction n using Nat.strongRecOn with
  | ind n ih =>
    by_cases hn : n < 10
    · rw [decimalDigits, Nat.toDigits_of_lt_base hn] at h
      simpa using h
    · have hle : 10 ≤ n := Nat.le_of_not_lt hn
      rw [decimalDigits, Nat.toDigits_of_base_le (by decide) hle] at h
      have hq : n / 10 = 0 := by
        apply ih (n / 10) (by omega)
        cases hd : Nat.toDigits 10 (n / 10) with
        | nil => exact absurd hd Nat.toDigits_ne_nil
        | cons digit digits =>
          rw [hd] at h
          rw [decimalDigits, hd]
          exact h
      omega

end TableDelta.Text
