import TableDelta.Text.Numeral
/-!
# String literals of JSON texts

A literal holds characters and units of four hexadecimal digits, of which two may
form one character. It is written with as few escapes as the format allows.
-/
namespace TableDelta.Json

/-- A part of a string literal: a character, or a unit written as four hexadecimal digits. -/
inductive LiteralPart where
  | char (value : Char)
  | unit (value : Nat)
  deriving DecidableEq, Repr

def shortEscape? : Char → Option Char
  | '"' => some '"'
  | '\\' => some '\\'
  | '/' => some '/'
  | 'b' => some '\x08'
  | 'f' => some '\x0c'
  | 'n' => some '\n'
  | 'r' => some '\r'
  | 't' => some '\t'
  | _ => none

/-- Reads a string literal from behind its opening quote up to its closing one. -/
def readLiteral : List Char → Option (List LiteralPart × List Char)
  | [] => none
  | '"' :: rest => some ([], rest)
  | '\\' :: 'u' :: a :: b :: c :: d :: rest => do
    let unit ← Text.hexValue? [a, b, c, d]
    let (parts, rest) ← readLiteral rest
    return (.unit unit :: parts, rest)
  | '\\' :: letter :: rest => do
    let c ← shortEscape? letter
    let (parts, rest) ← readLiteral rest
    return (.char c :: parts, rest)
  | c :: rest =>
    if Nat.blt c.toNat 0x20 || c == '\\' then none
    else do
      let (parts, rest) ← readLiteral rest
      return (.char c :: parts, rest)

/-- Whether a unit is the first half of a surrogate pair. -/
def isHighSurrogate (unit : Nat) : Bool := Nat.ble 0xD800 unit && Nat.ble unit 0xDBFF

/-- Whether a unit is the second half of a surrogate pair. -/
def isLowSurrogate (unit : Nat) : Bool := Nat.ble 0xDC00 unit && Nat.ble unit 0xDFFF

/-- The character of a surrogate pair. -/
def ofSurrogates (high low : Nat) : Char :=
  Char.ofNat (0x10000 + (high - 0xD800) * 0x400 + (low - 0xDC00))

/-- Joins the halves of surrogate pairs. The first half of a pair whose second half is
still to come, if any, is given along; a half without the other spoils the literal. -/
def assemble : Option Nat → List LiteralPart → Option (List Char)
  | none, [] => some []
  | some _, [] => none
  | none, .char c :: parts => (assemble none parts).map (c :: ·)
  | some _, .char _ :: _ => none
  | none, .unit unit :: parts =>
    if isHighSurrogate unit then assemble (some unit) parts
    else if isLowSurrogate unit then none
    else (assemble none parts).map (Char.ofNat unit :: ·)
  | some high, .unit unit :: parts =>
    if isLowSurrogate unit then (assemble none parts).map (ofSurrogates high unit :: ·)
    else none

/-- How a character is written in a string literal. Only the quote, the backslash and
the control characters below U+0020 are escaped. -/
def escape (c : Char) : List Char :=
  if c = '"' then ['\\', '"']
  else if c = '\\' then ['\\', '\\']
  else if c = '\x08' then ['\\', 'b']
  else if c = '\t' then ['\\', 't']
  else if c = '\n' then ['\\', 'n']
  else if c = '\x0c' then ['\\', 'f']
  else if c = '\r' then ['\\', 'r']
  else if Nat.blt c.toNat 0x20 then
    ['\\', 'u', '0', '0', Text.lowerHexDigit (c.toNat / 16), Text.lowerHexDigit (c.toNat % 16)]
  else [c]

def writeLiteral (value : String) : List Char :=
  '"' :: value.toList.flatMap escape ++ ['"']

theorem length_readLiteral {cs rest : List Char} {parts : List LiteralPart}
    (h : readLiteral cs = some (parts, rest)) : rest.length < cs.length := by
  fun_induction readLiteral cs generalizing parts rest with
  | case1 => simp at h
  | case2 tail =>
    simp only [Option.some.injEq, Prod.mk.injEq] at h
    simp [h.2]
  | case3 a b c d tail ih =>
    simp only [bind, Option.bind_eq_some_iff, pure, Option.some.injEq, Prod.mk.injEq] at h
    obtain ⟨_, _, r, hr, _, rfl⟩ := h
    have := ih hr
    simp only [List.length_cons]
    omega
  | case4 letter tail _ ih =>
    simp only [bind, Option.bind_eq_some_iff, pure, Option.some.injEq, Prod.mk.injEq] at h
    obtain ⟨_, _, r, hr, _, rfl⟩ := h
    have := ih hr
    simp only [List.length_cons]
    omega
  | case5 => simp at h
  | case6 c tail _ _ _ _ ih =>
    simp only [bind, Option.bind_eq_some_iff, pure, Option.some.injEq, Prod.mk.injEq] at h
    obtain ⟨r, hr, _, rfl⟩ := h
    have := ih hr
    simp only [List.length_cons]
    omega

end TableDelta.Json
