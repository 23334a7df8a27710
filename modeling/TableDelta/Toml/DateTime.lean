import TableDelta.Text.Numeral
import TableDelta.Toml.Layout
import TableDelta.Toml.Value
/-!
# Dates and times of TOML texts

A date is checked against the calendar and a time against the clock, which knows leap
seconds. A time may follow a date, and its distance from universal time may follow both.
-/
namespace TableDelta.Toml

/-- The value of digits, all of which must be decimal. -/
def field? (digits : List Char) : Option Nat :=
  if digits.all Char.isDigit then some (Text.decimalValue digits) else none

/-- The number of days of a month. -/
def daysOfMonth (year month : Nat) : Nat :=
  if month == 2 then
    if year % 4 == 0 && (year % 100 != 0 || year % 400 == 0) then 29 else 28
  else if month == 4 || month == 6 || month == 9 || month == 11 then 30
  else 31

/-- Skips a date. -/
def skipDate? : List Char → Option (List Char)
  | y₁ :: y₂ :: y₃ :: y₄ :: '-' :: m₁ :: m₂ :: '-' :: d₁ :: d₂ :: rest => do
    let year ← field? [y₁, y₂, y₃, y₄]
    let month ← field? [m₁, m₂]
    let day ← field? [d₁, d₂]
    if Nat.ble 1 month && Nat.ble month 12 && Nat.ble 1 day &&
      Nat.ble day (daysOfMonth year month) then some rest else none
  | _ => none

/-- Skips the hours and minutes of a time. -/
def skipMinutes? : List Char → Option (List Char)
  | h₁ :: h₂ :: ':' :: m₁ :: m₂ :: rest => do
    let hour ← field? [h₁, h₂]
    let minute ← field? [m₁, m₂]
    if Nat.ble hour 23 && Nat.ble minute 59 then some rest else none
  | _ => none

/-- Skips a time, which has seconds and may have a fraction of one. -/
def skipTime? (cs : List Char) : Option (List Char) := do
  match ← skipMinutes? cs with
  | ':' :: s₁ :: s₂ :: rest =>
    let second ← field? [s₁, s₂]
    if Nat.ble second 60 then
      match rest with
      | '.' :: more => match Text.takeDigits? more with
        | some (_, rest) => some rest
        | none => some rest
      | _ => some rest
    else none
  | _ => none

/-- Skips the distance from universal time, if there is one. -/
def skipOffset (cs : List Char) : List Char :=
  match cs with
  | 'Z' :: rest => rest
  | 'z' :: rest => rest
  | '+' :: rest => (skipMinutes? rest).getD cs
  | '-' :: rest => (skipMinutes? rest).getD cs
  | _ => cs

/-- Skips the time behind a date, if there is one. -/
def skipTimeOfDay (cs : List Char) : List Char :=
  match cs with
  | c :: rest =>
    if c == 'T' || c == 't' || c == ' ' then ((skipTime? rest).map skipOffset).getD cs else cs
  | [] => []

/-- Reads a date, a time or both. -/
def readDateTime : Reader Toml := fun cs => do
  let rest ← match skipDate? cs with
    | some rest => some (skipTimeOfDay rest)
    | none => skipTime? cs
  return (.dateTime (String.ofList (consumed cs rest)), rest)

end TableDelta.Toml
