import TableDelta.Definition.Basic
import TableDelta.Text.Blank
/-!
# The grammar of column definitions

A definition is a row of clauses. A clause is a key and lists of values, and every
key and value is a token. Reading is total: any text has a parse under any three
separators, also under separators that coincide or are blank.
-/
namespace TableDelta

/-- The three separators of the definition grammar. -/
structure Grammar where
  /-- Stands between clauses. -/
  clauseSeparator : Char
  /-- Stands between the key of a clause and its lists of values. -/
  optionSeparator : Char
  /-- Stands between the values of a list. -/
  valueSeparator : Char
  deriving DecidableEq, Repr

namespace Grammar

/-- Clauses as in `string|nullable`, options as in `on:users`, values as in `a,b`. -/
def pipe : Grammar := ⟨'|', ':', ','⟩

/-- Clauses as in `string,nullable`, options as in `on=users`, values as in `a;b`. -/
def comma : Grammar := ⟨',', '=', ';'⟩

/-- Whether the separators differ pairwise and none is blank. -/
def isValid (grammar : Grammar) : Bool :=
  !Text.isBlank grammar.clauseSeparator && !Text.isBlank grammar.optionSeparator &&
    !Text.isBlank grammar.valueSeparator &&
    grammar.clauseSeparator != grammar.optionSeparator &&
    grammar.clauseSeparator != grammar.valueSeparator &&
    grammar.optionSeparator != grammar.valueSeparator

/-- The word of a segment: what is left of it once trimmed, if that is anything. -/
def word (segment : List Char) : List (List Char) :=
  match Text.trim segment with
  | [] => []
  | c :: cs => [c :: cs]

/-- The values of a list, which are parted by the value separator and by blanks. -/
def valueWords (grammar : Grammar) (values : List Char) : List (List Char) :=
  (values.splitOnP fun c => c == grammar.valueSeparator || Text.isBlank c).flatMap word

/-- The words of a clause: its key, then the values of each list that follows it. -/
def clauseWords (grammar : Grammar) (clause : List Char) : List (List Char) :=
  match clause.splitOnP (· == grammar.optionSeparator) with
  | [] => []
  | key :: lists => word key ++ lists.flatMap grammar.valueWords

/-- The words of a definition, clause by clause. -/
def words (grammar : Grammar) (definition : List Char) : List (List Char) :=
  (definition.splitOnP (· == grammar.clauseSeparator)).flatMap grammar.clauseWords

/-- The column that a foreign key refers to unless its definition says otherwise. -/
def defaultReference : String := "id"

/-- Spells out the default reference of a foreign key that names none. -/
def withReference (words : List (List Char)) : List (List Char) :=
  if words.contains Token.on.text.toList && !words.contains Token.references.text.toList then
    words ++ [Token.references.text.toList, defaultReference.toList]
  else words

/-- Reads the text of a column definition. -/
def parse (grammar : Grammar) (definition : String) : Definition :=
  .ofTokens ((withReference (grammar.words definition.toList)).map
    fun word => .ofText (String.ofList word))

end Grammar

end TableDelta
