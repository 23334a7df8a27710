import TableDelta.Proofs.Json.Members
import TableDelta.Proofs.Json.Stable
import TableDelta.Wire.Definition
/-!
# Reading back definitions and grammars

A token and a definition are read back from their JSON form, whatever may stand for the
missing payload of a recognized token. A grammar is read back whether it is valid or not.
-/
namespace TableDelta

theorem Token.decode?_toJson (isVacant : Json → Bool) (token : Token) :
    Token.decode? isVacant token.toJson = some token := by
  cases token with
  | other text => rfl
  | _ => rfl

theorem Token.isStableAt_toJson {depth : Nat} (hd : depth < Json.maxDepth) (token : Token) :
    token.toJson.isStableAt depth = true := by
  cases token with
  | other text =>
    rw [toJson, Json.isStableAt, Bool.and_eq_true]
    exact ⟨Nat.blt_eq.mpr hd, rfl⟩
  | _ => rfl

namespace Definition

theorem ofTokens_tokens (definition : Definition) : ofTokens definition.tokens = definition := by
  obtain ⟨tokens, hsorted⟩ := definition
  have hsort : tokens.mergeSort Token.atMost = tokens := List.mergeSort_of_pairwise hsorted
  simp only [ofTokens, hsort]

theorem decode?_toJson (isVacant : Json → Bool) (definition : Definition) :
    decode? isVacant definition.toJson = some definition := by
  have htokens : (definition.tokens.map Token.toJson).mapM (Token.decode? isVacant) =
      some definition.tokens :=
    Json.mapM_map fun token _ => Token.decode?_toJson isVacant token
  rw [decode?, toJson, Json.items?]
  show (do return ofTokens (← (definition.tokens.map Token.toJson).mapM _)) = some definition
  rw [htokens]
  exact congrArg some (ofTokens_tokens definition)

theorem isStableAt_toJson {depth : Nat} (hd : depth + 1 < Json.maxDepth)
    (definition : Definition) : definition.toJson.isStableAt depth = true :=
  Json.isStableAt_array_map (Nat.lt_of_succ_lt hd) fun token _ => token.isStableAt_toJson hd

end Definition

theorem Json.char?_singleton (c : Char) : (Json.string (String.singleton c)).char? = some c := by
  rw [char?, String.toList_singleton]

namespace Grammar

theorem ofJson?_toJson (grammar : Grammar) : ofJson? grammar.toJson = some grammar := by
  have hslots : Json.slots? memberNames grammar.toJson =
      some [some (.string (String.singleton grammar.clauseSeparator)),
        some (.string (String.singleton grammar.optionSeparator)),
        some (.string (String.singleton grammar.valueSeparator))] :=
    Json.provides_object (show memberNames.Nodup by decide)
  rw [ofJson?, hslots]
  simp [Json.char?_singleton]

theorem isStableAt_toJson {depth : Nat} (hd : depth < Json.maxDepth) (grammar : Grammar) :
    grammar.toJson.isStableAt depth = true := by
  apply Json.isStableAt_object hd
  intro member hmember
  simp only [List.mem_cons, List.not_mem_nil, or_false] at hmember
  rcases hmember with rfl | rfl | rfl
  · rfl
  · rfl
  · rfl

end Grammar

end TableDelta
