/-!
# Decimal and hexadecimal digits

Runs of digits, their values, and how the digits of a number are written.
-/
namespace TableDelta.Text

/-- The value of a run of decimal digits. -/
def decimalValue (digits : List Char) : Nat := Nat.ofDigitChars 10 digits 0

/-- The decimal digits of a number, without leading zeros. -/
def decimalDigits (n : Nat) : List Char := Nat.toDigits 10 n

/-- Splits off the decimal digits at the start, of which there must be one at least. -/
def takeDigits? (cs : List Char) : Option (List Char × List Char) :=
  match cs.takeWhile Char.isDigit with
  | [] => none
  | digit :: digits => some (digit :: digits, cs.dropWhile Char.isDigit)

theorem length_takeDigits? {cs digits rest : List Char}
    (h : takeDigits? cs = some (digits, rest)) : rest.length < cs.length := by
  unfold takeDigits? at h
  split at h
  · simp at h
  · next digit tail ht =>
    simp only [Option.some.injEq, Prod.mk.injEq] at h
    have hcs := congrArg List.length (List.takeWhile_append_dropWhile (p := Char.isDigit) (l := cs))
    simp only [List.length_append, ht, List.length_cons, h.2] at hcs
    omega

/-- The value of a hexadecimal digit of either case. -/
def hexDigit? (c : Char) : Option Nat :=
  if c.isDigit then some (c.toNat - '0'.toNat)
  else if Nat.ble 'a'.toNat c.toNat && Nat.ble c.toNat 'f'.toNat then some (c.toNat - 'a'.toNat + 10)
  else if Nat.ble 'A'.toNat c.toNat && Nat.ble c.toNat 'F'.toNat then some (c.toNat - 'A'.toNat + 10)
  else none

/-- The value of a run of hexadecimal digits, the most significant first. -/
def hexValue? (digits : List Char) : Option Nat :=
  digits.foldlM (fun value digit => (hexDigit? digit).map (16 * value + ·)) 0

/-- The hexadecimal digit of a value below sixteen, in lower case. -/
def lowerHexDigit (n : Nat) : Char := Nat.digitChar n

/-- The hexadecimal digit of a value below sixteen, in upper case. -/
def upperHexDigit (n : Nat) : Char := (Nat.digitChar n).toUpper

end TableDelta.Text
