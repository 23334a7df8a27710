/-!
# Double precision

Whole numbers are rounded to double precision by taking the nearest multiple of the
last of 53 bits. A magnitude is beyond the range when rounding carries it to infinity.
Main statements: rounding moves a number by half a unit at most, and to an even
multiple when two are equally near.
-/
namespace TableDelta.Text

/-- The multiple of a unit that is nearest to a number; of two it is the even one. -/
def nearestMultiple (unit n : Nat) : Nat :=
  let quotient := n / unit
  let twice := 2 * (n % unit)
  if twice < unit ∨ (twice = unit ∧ quotient % 2 = 0) then quotient * unit
  else (quotient + 1) * unit

/-- A whole number rounded to the 53 bits of double precision, whatever its size. -/
def roundToDouble (n : Nat) : Nat := nearestMultiple (Nat.pow 2 (Nat.log2 n - 52)) n

/-- The least magnitude that rounds to infinity. -/
def doubleLimit : Nat := Nat.pow 2 1024 - Nat.pow 2 970

/-- Whether `digits * 10 ^ exponent` is within the range of double precision. A tenth
power beyond all digits need not be computed in full. -/
def fitsDouble (digits : Nat) (exponent : Int) : Bool :=
  if digits = 0 then true
  else if 0 ≤ exponent then
    Nat.ble exponent.toNat 308 && Nat.blt (digits * Nat.pow 10 exponent.toNat) doubleLimit
  else Nat.blt digits (doubleLimit * Nat.pow 10 (Nat.min (-exponent).toNat (Nat.log2 digits + 1)))

theorem nearestMultiple_near (unit n : Nat) (h : 0 < unit) :
    2 * nearestMultiple unit n ≤ 2 * n + unit ∧ 2 * n ≤ 2 * nearestMultiple unit n + unit := by
  have hn := Nat.div_add_mod n unit
  have hr := Nat.mod_lt n h
  have hs : (n / unit + 1) * unit = unit * (n / unit) + unit := by
    rw [Nat.succ_mul, Nat.mul_comm]
  have hq : n / unit * unit = unit * (n / unit) := Nat.mul_comm _ _
  simp only [nearestMultiple]
  split <;> omega

theorem nearestMultiple_tie (unit n : Nat) (h : 2 * (n % unit) = unit) :
    ∃ k, nearestMultiple unit n = 2 * k * unit := by
  simp only [nearestMultiple]
  split
  · next hc => exact ⟨n / unit / 2, by congr 1; omega⟩
  · next hc => exact ⟨(n / unit + 1) / 2, by congr 1; omega⟩

end TableDelta.Text
