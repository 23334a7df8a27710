import TableDelta.Text.Double
import TableDelta.Text.Numeral
import TableDelta.Toml.Layout
import TableDelta.Toml.Value
/-!
# Numbers of TOML texts

Digits may be parted by single underscores. Integers are of 64 bits, and a float must
not exceed double precision upwards.
-/
namespace TableDelta.Toml

/-- Skips digits with single underscores between them, the first of which was read. -/
def skipDigits (isDigit : Char → Bool) : List Char → List Char
  | [] => []
  | '_' :: c :: rest => if isDigit c then skipDigits isDigit rest else '_' :: c :: rest
  | c :: rest => if isDigit c then skipDigits isDigit rest else c :: rest

/-- Skips a run of digits, leading zeros included. -/
def skipRun? (isDigit : Char → Bool) : List Char → Option (List Char)
  | c :: rest => if isDigit c then some (skipDigits isDigit rest) else none
  | [] => none

def skipSign : List Char → List Char
  | '+' :: rest => rest
  | '-' :: rest => rest
  | cs => cs

/-- Skips a decimal integer with its sign; a leading zero is the only digit. -/
def skipDecimal? (cs : List Char) : Option (List Char) :=
  match skipSign cs with
  | '0' :: rest => some rest
  | cs => skipRun? Char.isDigit cs

/-- The value of decimal digits, signs and underscores left aside. -/
def digitsValue (cs : List Char) : Nat := Text.decimalValue (cs.filter Char.isDigit)

def skipExponent? : List Char → Option (List Char)
  | c :: rest => if c == 'e' || c == 'E' then skipRun? Char.isDigit (skipSign rest) else none
  | [] => none

/-- Skips the point and the digits behind it, if there is a point. -/
def skipFraction? : List Char → Option (List Char)
  | '.' :: rest => skipRun? Char.isDigit rest
  | _ => none

/-- The value of an exponent. -/
def exponentValue (cs : List Char) : Int :=
  let value : Int := (digitsValue cs : Nat)
  if cs.contains '-' then -value else value

/-- Reads a float in digits: a fraction, an exponent or both. -/
def readDigitFloat : Reader Toml := fun cs => do
  let whole ← skipDecimal? cs
  let fraction := (skipFraction? whole).getD whole
  let rest := (skipExponent? fraction).getD fraction
  let places := ((consumed whole fraction).filter Char.isDigit).length
  if rest.length == whole.length then none
  else if cs.head? == some '-' ||
      Text.fitsDouble (digitsValue (consumed cs fraction))
        (exponentValue (consumed fraction rest) - (places : Nat)) then
    some (.float (String.ofList (consumed cs rest)), rest)
  else none

/-- Reads infinity or what is no number, with or without a sign. -/
def readSpecialFloat : Reader Toml := fun cs =>
  match skipSign cs with
  | 'i' :: 'n' :: 'f' :: rest => some (.float (String.ofList (consumed cs rest)), rest)
  | 'n' :: 'a' :: 'n' :: rest => some (.float (String.ofList (consumed cs rest)), rest)
  | _ => none

/-- An integer of 64 bits. -/
def integer? (value : Int) : Option Toml :=
  if -0x8000000000000000 ≤ value ∧ value < 0x8000000000000000 then some (.integer value) else none

/-- Reads the digits of an integer to a base. -/
def readBased (base : Nat) : Reader Toml := fun cs => do
  let isDigit := fun c => (Text.hexDigit? c).any (Nat.blt · base)
  let rest ← skipRun? isDigit cs
  let value := ((consumed cs rest).filterMap Text.hexDigit?).foldl (base * · + ·) 0
  return (← integer? (value : Nat), rest)

def readInteger : Reader Toml
  | '0' :: 'x' :: rest => readBased 16 rest
  | '0' :: 'o' :: rest => readBased 8 rest
  | '0' :: 'b' :: rest => readBased 2 rest
  | cs => do
    let rest ← skipDecimal? cs
    let value : Int := (digitsValue (consumed cs rest) : Nat)
    return (← integer? (if cs.head? == some '-' then -value else value), rest)

/-- Reads a number. A float is tried first, since an integer may be its beginning. -/
def readNumber : Reader Toml := fun cs =>
  readDigitFloat cs <|> readSpecialFloat cs <|> readInteger cs

end TableDelta.Toml
