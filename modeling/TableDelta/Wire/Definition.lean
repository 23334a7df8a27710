import TableDelta.Definition.Grammar
import TableDelta.Json.Members
/-!
# JSON form of definitions and grammars

A recognized token is the string of its name, any other token an object around its
text. A definition is the array of its tokens, which may be read in any order.
-/
namespace TableDelta

/-- The name of a recognized token in JSON. -/
def Token.jsonName : Token → String
  | .nullableMorphs => "nullable_morphs"
  | token => token.text

def Token.toJson : Token → Json
  | .other text => .object [("other", .string text)]
  | token => .string token.jsonName

/-- Reads a token; the given values count as the missing payload of a recognized one. -/
def Token.decode? (isVacant : Json → Bool) : Json → Option Token
  | .object [("other", text)] => text.string?.map .other
  | json => do
    let name ← json.variant? isVacant
    vocabulary.find? fun token => token.jsonName == name

/-- Reads a token, for whose payload only null may stand. -/
def Token.ofJson? (json : Json) : Option Token := Token.decode? Json.isNull json

namespace Definition

def toJson (definition : Definition) : Json :=
  .array (definition.tokens.map Token.toJson)

/-- Reads a definition from its tokens in any order. -/
def decode? (isVacant : Json → Bool) (json : Json) : Option Definition := do
  return .ofTokens (← (← json.items?).mapM (Token.decode? isVacant))

/-- Reads a definition, for the payload of whose tokens only null may stand. -/
def ofJson? (json : Json) : Option Definition := decode? Json.isNull json

end Definition

namespace Grammar

def memberNames : List String := ["clause_separator", "option_separator", "value_separator"]

def toJson (grammar : Grammar) : Json :=
  .object [("clause_separator", .string (String.singleton grammar.clauseSeparator)),
    ("option_separator", .string (String.singleton grammar.optionSeparator)),
    ("value_separator", .string (String.singleton grammar.valueSeparator))]

/-- Reads a grammar, valid or not. -/
def ofJson? (json : Json) : Option Grammar := do
  match ← json.slots? memberNames with
  | [some clause, some option, some value] =>
    return ⟨← clause.char?, ← option.char?, ← value.char?⟩
  | _ => none

end Grammar

end TableDelta
