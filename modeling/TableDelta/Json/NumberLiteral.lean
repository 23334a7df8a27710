import TableDelta.Json.Basic
import TableDelta.Text.Numeral
/-!
# Number literals of JSON texts

A literal is an optional minus, digits without a needless zero in front, and an
optional fraction and exponent.
-/
namespace TableDelta.Json

/-- Reads a sign, which is true when negative. -/
def readSign : List Char → Bool × List Char
  | '-' :: rest => (true, rest)
  | '+' :: rest => (false, rest)
  | rest => (false, rest)

/-- Reads the digits behind a point, if there is a point. -/
def readFraction : List Char → Option (Option (List Char) × List Char)
  | '.' :: rest => (Text.takeDigits? rest).map fun (digits, rest) => (some digits, rest)
  | rest => some (none, rest)

/-- Reads the exponent behind an `e` of either case, if there is one. -/
def readExponent : List Char → Option (Option Int × List Char)
  | [] => some (none, [])
  | e :: rest =>
    if e == 'e' || e == 'E' then
      let (negative, rest) := readSign rest
      (Text.takeDigits? rest).map fun (digits, rest) =>
        let value : Int := (Text.decimalValue digits : Nat)
        (some (if negative then -value else value), rest)
    else some (none, e :: rest)

/-- Reads a number without its sign; a zero at the start is the only digit before the point. -/
def readMagnitude (negative : Bool) (cs : List Char) : Option (Number × List Char) := do
  let (whole, rest) ← Text.takeDigits? cs
  if whole.head? == some '0' && whole.length != 1 then none
  let (fraction, rest) ← readFraction rest
  let (exponent, rest) ← readExponent rest
  return (⟨negative, Text.decimalValue (whole ++ fraction.getD []), fraction.map List.length,
    exponent⟩, rest)

/-- Reads a number, to which only a minus may be put as a sign. -/
def readNumber : List Char → Option (Number × List Char)
  | '-' :: rest => readMagnitude true rest
  | cs => readMagnitude false cs

def Number.writeDigits (number : Number) : List Char :=
  match number.places with
  | none => Text.decimalDigits number.digits
  | some places =>
    Text.decimalDigits (number.digits / Nat.pow 10 places) ++
      '.' :: ((Text.decimalDigits
        (Nat.pow 10 places + number.digits % Nat.pow 10 places)).drop 1)

def Number.write (number : Number) : List Char :=
  (if number.negative then ['-'] else []) ++ number.writeDigits ++
    match number.exponent with
    | none => []
    | some exponent => 'e' :: (if exponent < 0 then ['-'] else []) ++
      Text.decimalDigits exponent.natAbs

private theorem length_readSign (cs : List Char) : (readSign cs).2.length ≤ cs.length := by
  unfold readSign
  split <;> simp

private theorem length_readFraction {cs rest : List Char} {fraction : Option (List Char)}
    (h : readFraction cs = some (fraction, rest)) : rest.length ≤ cs.length := by
  unfold readFraction at h
  split at h
  · simp only [Option.map_eq_some_iff, Prod.mk.injEq] at h
    obtain ⟨r, hr, _, rfl⟩ := h
    have := Text.length_takeDigits? hr
    simp only [List.length_cons]
    omega
  · simp only [Option.some.injEq, Prod.mk.injEq] at h
    simp [h.2]

private theorem length_readExponent {cs rest : List Char} {exponent : Option Int}
    (h : readExponent cs = some (exponent, rest)) : rest.length ≤ cs.length := by
  unfold readExponent at h
  split at h
  · simp only [Option.some.injEq, Prod.mk.injEq] at h
    simp [← h.2]
  · next e tail =>
    split at h
    · simp only [Option.map_eq_some_iff, Prod.mk.injEq] at h
      obtain ⟨r, hr, _, rfl⟩ := h
      have := Text.length_takeDigits? hr
      have := length_readSign tail
      simp only [List.length_cons]
      omega
    · simp only [Option.some.injEq, Prod.mk.injEq] at h
      simp [← h.2]

private theorem length_readMagnitude {negative : Bool} {cs rest : List Char} {number : Number}
    (h : readMagnitude negative cs = some (number, rest)) : rest.length < cs.length := by
  simp only [readMagnitude, bind, Option.bind_eq_some_iff, pure] at h
  obtain ⟨w, hw, h⟩ := h
  split at h
  · simp at h
  · simp only [Option.bind_eq_some_iff, Option.some.injEq, Prod.mk.injEq] at h
    obtain ⟨f, hf, e, he, _, rfl⟩ := h
    have := Text.length_takeDigits? hw
    have := length_readFraction hf
    have := length_readExponent he
    omega

theorem length_readNumber {cs rest : List Char} {number : Number}
    (h : readNumber cs = some (number, rest)) : rest.length < cs.length := by
  unfold readNumber at h
  split at h
  · have := length_readMagnitude h
    simp only [List.length_cons]
    omega
  · exact length_readMagnitude h

end TableDelta.Json
