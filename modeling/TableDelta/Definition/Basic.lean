import TableDelta.Definition.Token
/-!
# Parsed definitions

A parsed definition is a multiset of tokens. It holds them in canonical order, so
two definitions are equal exactly when the same tokens occur equally often in
both, and membership is decided by halving the list.
-/
namespace TableDelta

/-- The tokens of a column definition, repetitions included, in canonical order. -/
structure Definition where
  tokens : List Token
  sorted : tokens.Pairwise fun a b => a.atMost b = true
  deriving DecidableEq

namespace Definition

/-- The definition made of some tokens, given in any order. -/
def ofTokens (tokens : List Token) : Definition where
  tokens := tokens.mergeSort Token.atMost
  sorted := List.pairwise_mergeSort Token.atMost_trans Token.atMost_total tokens

def empty : Definition := ⟨[], .nil⟩

/-- Looks a token up in a list in canonical order by comparing it with the middle entry. -/
def bisect (token : Token) (tokens : List Token) : Bool :=
  match _h : tokens.drop (tokens.length / 2) with
  | [] => false
  | middle :: after =>
    if middle = token then true
    else if token.atMost middle then bisect token (tokens.take (tokens.length / 2))
    else bisect token after
termination_by tokens.length
decreasing_by
  · have := congrArg List.length _h
    simp only [List.length_drop, List.length_cons, List.length_take] at this ⊢
    omega
  · have := congrArg List.length _h
    simp only [List.length_drop, List.length_cons] at this
    omega

/-- Whether a token occurs at least once. -/
def contains (definition : Definition) (token : Token) : Bool :=
  bisect token definition.tokens

/-- The number of tokens, repetitions included. -/
def size (definition : Definition) : Nat := definition.tokens.length

def isEmpty (definition : Definition) : Bool := definition.tokens.isEmpty

/-- Whether the definition declares a foreign key. -/
def hasForeignKey (definition : Definition) : Bool := definition.contains .on

/-- Whether the definition declares a polymorphic relationship. -/
def hasMorphs (definition : Definition) : Bool :=
  definition.contains .morphs || definition.contains .nullableMorphs

/-- The texts of the tokens in canonical order, one space between neighbours. -/
def text (definition : Definition) : String :=
  String.intercalate " " (definition.tokens.map Token.text)

theorem perm_ofTokens (tokens : List Token) : (ofTokens tokens).tokens.Perm tokens :=
  List.mergeSort_perm tokens Token.atMost

end Definition

end TableDelta
