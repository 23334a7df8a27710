import TableDelta.Json.Basic
/-!
# Members of a record

A record is written as an object, or as an array of its members in their order. An
object may hold further members, which are skipped; one of the record's own that is
there twice spoils it. An array may stop early, which leaves its last members out.
-/
namespace TableDelta.Json

/-- The values of the members with a name. -/
def valuesNamed (name : String) (members : List (String × Json)) : List Json :=
  (members.filter fun member => member.1 == name).map Prod.snd

/-- The value of a member, or that there is none; it may not be there twice. -/
def member? (name : String) (members : List (String × Json)) : Option (Option Json) :=
  match valuesNamed name members with
  | [] => some none
  | [value] => some (some value)
  | _ => none

/-- The values of a record's members in their order, each of which may be missing. -/
def slots? (names : List String) : Json → Option (List (Option Json))
  | .object members => names.mapM fun name => member? name members
  | .array items =>
    if Nat.ble items.length names.length then
      some (items.map some ++ List.replicate (names.length - items.length) none)
    else none
  | _ => none

/-- The name of a variant without payload: a string, or an object whose only member has
that name and a vacant value. -/
def variant? (isVacant : Json → Bool) : Json → Option String
  | .string name => some name
  | .object [(name, value)] => if isVacant value then some name else none
  | _ => none

end TableDelta.Json
