import TableDelta.Json.Basic
import TableDelta.Text.Double
/-!
# Magnitude of JSON numbers

The magnitude of a number is estimated: its leading digits, as many as 64 bits hold, and
the power of ten that goes with them are each rounded to double precision, and a number
is out of range when their product rounds to infinity. Close to the limit the estimate
may lie on the other side of it than the number. Main statement: an integer literal
of 64 bits is in range.
-/
namespace TableDelta.Json.Number

/-- The least number that does not fit in 64 bits. -/
def leadingLimit : Nat := 0x10000000000000000

/-- Leaves out the last digits of `digits * 10 ^ exponent` until the others fit in 64 bits. -/
def leading (digits : Nat) (exponent : Int) : Nat × Int :=
  if digits < leadingLimit then (digits, exponent) else leading (digits / 10) (exponent + 1)
termination_by digits
decreasing_by
  simp only [leadingLimit] at *
  omega

/-- The greatest power of ten within the range of double precision. -/
def maxTenPower : Nat := 308

/-- Whether digits and a power of ten, both rounded, have a product that does not round to
infinity. Digits of 64 bits can reach it with a positive power only. -/
def isProductInRange (digits : Nat) (exponent : Int) : Bool :=
  digits == 0 || decide (exponent ≤ 0) ||
    Nat.ble exponent.toNat maxTenPower &&
      Nat.blt (Text.roundToDouble digits * Text.roundToDouble (Nat.pow 10 exponent.toNat))
        Text.doubleLimit

def isInRange (number : Number) : Bool :=
  let (digits, exponent) :=
    leading number.digits (number.exponent.getD 0 - (number.places.getD 0 : Nat))
  isProductInRange digits exponent

private theorem leading_of_lt {digits : Nat} (exponent : Int) (h : digits < leadingLimit) :
    leading digits exponent = (digits, exponent) := by
  rw [leading, if_pos h]

theorem isInRange_natural {n : Nat} (h : n < leadingLimit) : (natural n).isInRange = true := by
  have hn := leading_of_lt 0 h
  simp [isInRange, natural, hn, isProductInRange]

end TableDelta.Json.Number
