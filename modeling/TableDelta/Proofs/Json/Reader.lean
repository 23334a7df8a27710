import TableDelta.Json.Writer
import TableDelta.Proofs.Json.NumberLiteral
import TableDelta.Proofs.Json.Stable
/-!
# Reading values from their lexemes

The lexemes of a value that survives, in front of further lexemes, bring the reader
behind that value: at any place, and with any containers open.
-/
namespace TableDelta.Json

private theorem ofNumber_of_stable {value : Number} {depth : Nat}
    (h : (Json.number value).isStableAt depth = true) : ofNumber value = .number value := by
  rw [isStableAt, Option.any_eq_true] at h
  obtain ⟨n, hn, hlimit⟩ := h
  have hrange : value.isInRange = true := by
    rw [Number.eq_natural_of_natural? hn]
    exact Number.isInRange_natural (Nat.blt_eq.mp hlimit)
  rw [ofNumber, if_pos hrange]

private theorem within_of_blt {stack : List Frame} (h : Nat.blt stack.length maxDepth = true)
    (json : Json) : within stack json = json := by
  rw [within, if_pos h]

/-- Members with names, in the form in which a frame holds them. -/
def named (members : List (String × Json)) : List (Option String × Json) :=
  members.map fun (name, value) => (some name, value)

private theorem ofMembers_named (members : List (String × Json)) :
    ofMembers (named members) = .object members := by
  have h : namedMembers? (named members) = some members := by
    induction members with
    | nil => rfl
    | cons member members ih =>
      rw [namedMembers?] at ih ⊢
      rw [named, List.map_cons, List.mapM_cons]
      rw [named] at ih
      rw [ih]
      rfl
  rw [ofMembers, h]

private theorem exists_lexemes_eq_cons (json : Json) :
    ∃ first rest, json.lexemes = first :: rest ∧ first ≠ .closeBracket := by
  unfold lexemes
  split
  all_goals exact ⟨_, _, rfl, by simp⟩

private theorem readValue_openBracket {stack : List Frame} {item : Json} {rest : List Lexeme} :
    readValue stack (.openBracket :: (item.lexemes ++ rest)) =
      readValue (.array [] :: stack) (item.lexemes ++ rest) := by
  obtain ⟨first, others, hlexemes, hfirst⟩ := exists_lexemes_eq_cons item
  rw [hlexemes, List.cons_append, readValue]
  -- the bracket would be that of an empty array if the first lexeme closed it
  intro tail heq
  exact hfirst (List.cons.inj heq).1

mutual

/-- The lexemes of a value that survives bring the reader behind the value. -/
theorem readValue_lexemes :
    ∀ (json : Json) (stack : List Frame) (rest : List Lexeme),
      json.isStableAt stack.length = true →
        readValue stack (json.lexemes ++ rest) = readAfter json stack rest
  | .null, stack, rest, _ => by
    rw [lexemes, List.cons_append, readValue]
    rfl
  | .bool value, stack, rest, _ => by
    rw [lexemes, List.cons_append, readValue]
    rfl
  | .number value, stack, rest, h => by
    rw [lexemes, List.cons_append, readValue, ofNumber_of_stable h]
    rfl
  | .string value, stack, rest, _ => by
    rw [lexemes, List.cons_append, readValue]
    rfl
  | .array [], stack, rest, h => by
    rw [isStableAt, Bool.and_eq_true] at h
    rw [lexemes, List.cons_append, List.cons_append, readValue, within_of_blt h.1]
    rfl
  | .array (item :: items), stack, rest, h => by
    rw [isStableAt, Bool.and_eq_true, allStableAt, Bool.and_eq_true] at h
    rw [lexemes, List.cons_append, List.append_assoc, readValue_openBracket]
    rw [readValue_lexemes item (.array [] :: stack) _ h.2.1]
    exact readAfter_itemLexemes items item [] stack rest h.1 h.2.2
  | .object [], stack, rest, h => by
    rw [isStableAt, Bool.and_eq_true] at h
    rw [lexemes, List.cons_append, List.cons_append, readValue, within_of_blt h.1]
    rfl
  | .object ((name, value) :: members), stack, rest, h => by
    rw [isStableAt, Bool.and_eq_true, allMembersStableAt, Bool.and_eq_true] at h
    rw [lexemes, List.cons_append, List.cons_append, List.cons_append, List.append_assoc,
      readValue]
    rw [readValue_lexemes value (.object [] (some name) :: stack) _ h.2.1]
    exact readAfter_memberLexemes members name value [] stack rest h.1 h.2.2
  | .unusable, stack, rest, h => absurd h Bool.false_ne_true

private theorem readAfter_itemLexemes :
    ∀ (items : List Json) (item : Json) (before : List Json) (stack : List Frame)
      (rest : List Lexeme), Nat.blt stack.length maxDepth = true →
        allStableAt (stack.length + 1) items = true →
        readAfter item (.array before :: stack) (itemLexemes items ++ rest) =
          readAfter (.array (before.reverse ++ item :: items)) stack rest
  | [], item, before, stack, rest, hd, _ => by
    rw [itemLexemes, List.cons_append, readAfter, within_of_blt hd, List.reverse_cons]
    rfl
  | next :: items, item, before, stack, rest, hd, h => by
    rw [allStableAt, Bool.and_eq_true] at h
    rw [itemLexemes, List.cons_append, List.append_assoc, readAfter,
      readValue_lexemes next (.array (item :: before) :: stack) _ h.1,
      readAfter_itemLexemes items next (item :: before) stack rest hd h.2,
      List.reverse_cons, List.append_assoc]
    rfl

private theorem readAfter_memberLexemes :
    ∀ (members : List (String × Json)) (name : String) (value : Json)
      (before : List (String × Json)) (stack : List Frame) (rest : List Lexeme),
        Nat.blt stack.length maxDepth = true →
        allMembersStableAt (stack.length + 1) members = true →
        readAfter value (.object (named before) (some name) :: stack)
            (memberLexemes members ++ rest) =
          readAfter (.object (before.reverse ++ (name, value) :: members)) stack rest
  | [], name, value, before, stack, rest, hd, _ => by
    have hnamed : ((some name, value) :: named before).reverse =
        named (before.reverse ++ [(name, value)]) := by
      simp [named]
    rw [memberLexemes, List.cons_append, readAfter, within_of_blt hd, hnamed, ofMembers_named]
    rfl
  | (next, nextValue) :: members, name, value, before, stack, rest, hd, h => by
    rw [allMembersStableAt, Bool.and_eq_true] at h
    have hnamed : (some name, value) :: named before = named ((name, value) :: before) := rfl
    rw [memberLexemes, List.cons_append, List.cons_append, List.cons_append, List.append_assoc,
      readAfter, hnamed,
      readValue_lexemes nextValue
        (.object (named ((name, value) :: before)) (some next) :: stack) _ h.1,
      readAfter_memberLexemes members next nextValue ((name, value) :: before) stack rest hd h.2,
      List.reverse_cons, List.append_assoc]
    rfl

end

end TableDelta.Json
