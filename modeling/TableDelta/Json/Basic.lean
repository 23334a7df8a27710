/-!
# JSON values

A number keeps what its literal says, so an integer is told from a fraction that has
the same value. An object keeps its members in order, also repeated ones. What is well
formed in a text and yet stands for no value is `unusable`: it may be skipped where it
is of no interest, and is refused wherever a value is asked for.
-/
namespace TableDelta

namespace Json

/-- The number `digits * 10 ^ (exponent - places)`, or its negative, as it was written. -/
structure Number where
  negative : Bool
  /-- The digits before and after the point, read as one number. -/
  digits : Nat
  /-- How many digits stand after the point, if there is a point. -/
  places : Option Nat
  exponent : Option Int
  deriving DecidableEq, Repr

namespace Number

/-- The number written with digits only. -/
def natural (n : Nat) : Number := ⟨false, n, none, none⟩

/-- The value of a number written with digits only. -/
def natural? : Number → Option Nat
  | ⟨false, n, none, none⟩ => some n
  | _ => none

end Number

end Json

inductive Json where
  | null
  | bool (value : Bool)
  | number (value : Json.Number)
  | string (value : String)
  | array (items : List Json)
  | object (members : List (String × Json))
  | unusable

namespace Json

/-- The number written with digits only. -/
def natural (n : Nat) : Json := .number (.natural n)

def strings (values : List String) : Json := .array (values.map .string)

def string? : Json → Option String
  | .string value => some value
  | _ => none

def items? : Json → Option (List Json)
  | .array items => some items
  | _ => none

/-- The value of an integer literal below a bound; `-0` and `1.0` are no such literals. -/
def natBelow? (bound : Nat) : Json → Option Nat
  | .number value => value.natural?.filter (Nat.blt · bound)
  | _ => none

/-- The strings of an array of strings. -/
def strings? (json : Json) : Option (List String) := do
  (← json.items?).mapM string?

/-- The character of a string that holds exactly one. -/
def char? : Json → Option Char
  | .string value => match value.toList with
    | [c] => some c
    | _ => none
  | _ => none

def isNull : Json → Bool
  | .null => true
  | _ => false

mutual

/-- Whether nothing in the value is unusable. -/
def isUsable : Json → Bool
  | .array items => allUsable items
  | .object members => allMembersUsable members
  | .unusable => false
  | _ => true

def allUsable : List Json → Bool
  | [] => true
  | item :: items => item.isUsable && allUsable items

def allMembersUsable : List (String × Json) → Bool
  | [] => true
  | (_, value) :: members => value.isUsable && allMembersUsable members

end

end Json

end TableDelta
