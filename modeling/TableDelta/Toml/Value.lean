/-!
# TOML values

The values that a TOML document gives to its keys. Of floats and of dates only the
text is kept. A table lists its members in the order in which they were defined.
-/
namespace TableDelta

inductive Toml where
  | string (value : String)
  | integer (value : Int)
  | float (text : String)
  | bool (value : Bool)
  | dateTime (text : String)
  | array (items : List Toml)
  | table (members : List (String × Toml))

namespace Toml

/-- The value of a table's first member with a name. -/
def lookup (name : String) (members : List (String × Toml)) : Option Toml :=
  (members.find? fun member => member.1 == name).map Prod.snd

/-- The values of a record's members in their order, each of which may be missing. A
record is a table, in which further members are skipped, or an array that begins with the
members in their order, however long it is. A date has no members. -/
def slots? (names : List String) : Toml → Option (List (Option Toml))
  | .table members => some (names.map fun name => lookup name members)
  | .array items =>
    some ((items.take names.length).map some ++
      List.replicate (names.length - items.length) none)
  | .dateTime _ => some (names.map fun _ => none)
  | _ => none

/-- The name of a variant without payload: a string, or a table whose only member has
that name and an empty table or array as its value. -/
def variant? : Toml → Option String
  | .string name => some name
  | .table [(name, .table [])] => some name
  | .table [(name, .array [])] => some name
  | _ => none

/-- The character of a string that holds exactly one. -/
def char? : Toml → Option Char
  | .string value => match value.toList with
    | [c] => some c
    | _ => none
  | _ => none

end Toml

end TableDelta
