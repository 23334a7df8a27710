import TableDelta.Json.Writer
import TableDelta.Proofs.Json.Lexeme
import TableDelta.Proofs.Json.Reader
/-!
# Reading back written values

The compact and the indented text of a value spell the lexemes of the value, the one without
and the other with white space between them. Main statement: a value that survives is read
back from any text that spells its lexemes.
-/
namespace TableDelta.Json

/-! ## Lexemes of a value -/

private theorem head?_itemLexemes (items : List Json) (after : List Lexeme) :
    (itemLexemes items ++ after).head?.any Lexeme.isNumber = false := by
  cases items <;> rfl

private theorem head?_memberLexemes (members : List (String × Json)) (after : List Lexeme) :
    (memberLexemes members ++ after).head?.any Lexeme.isNumber = false := by
  rcases members with _ | ⟨⟨name, value⟩, members⟩ <;> rfl

mutual

/-- No two numbers stand side by side in a value: there is a comma, a colon or a bracket
between them. -/
theorem areReadable_lexemes {depth : Nat} :
    ∀ (json : Json) (after : List Lexeme), json.isStableAt depth = true →
      after.head?.any Lexeme.isNumber = false → areReadable after = true →
      areReadable (json.lexemes ++ after) = true
  | .null, after, _, _, hafter => hafter
  | .bool value, after, _, _, hafter => hafter
  | .number value, after, h, hn, hafter => by
    rw [isStableAt, Option.any_eq_true] at h
    obtain ⟨n, hvalue, -⟩ := h
    have hexact : (Lexeme.number value).isExact = true := by
      rw [Lexeme.isExact, hvalue]
      rfl
    rw [lexemes, List.singleton_append, areReadable, hexact, hn, hafter]
    rfl
  | .string value, after, _, _, hafter => hafter
  | .array [], after, _, _, hafter => hafter
  | .array (item :: items), after, h, _, hafter => by
    rw [isStableAt, Bool.and_eq_true, allStableAt, Bool.and_eq_true] at h
    have hitems := areReadable_itemLexemes items after h.2.2 hafter
    rw [lexemes, List.cons_append, List.append_assoc]
    exact areReadable_lexemes item _ h.2.1 (head?_itemLexemes items after) hitems
  | .object [], after, _, _, hafter => hafter
  | .object ((name, value) :: members), after, h, _, hafter => by
    rw [isStableAt, Bool.and_eq_true, allMembersStableAt, Bool.and_eq_true] at h
    have hmembers := areReadable_memberLexemes members after h.2.2 hafter
    rw [lexemes, List.cons_append, List.cons_append, List.cons_append, List.append_assoc]
    exact areReadable_lexemes value _ h.2.1 (head?_memberLexemes members after) hmembers
  | .unusable, after, h, _, _ => absurd h Bool.false_ne_true

private theorem areReadable_itemLexemes {depth : Nat} :
    ∀ (items : List Json) (after : List Lexeme), allStableAt depth items = true →
      areReadable after = true → areReadable (itemLexemes items ++ after) = true
  | [], after, _, hafter => hafter
  | item :: items, after, h, hafter => by
    rw [allStableAt, Bool.and_eq_true] at h
    have hitems := areReadable_itemLexemes items after h.2 hafter
    rw [itemLexemes, List.cons_append, List.append_assoc]
    exact areReadable_lexemes item _ h.1 (head?_itemLexemes items after) hitems

private theorem areReadable_memberLexemes {depth : Nat} :
    ∀ (members : List (String × Json)) (after : List Lexeme),
      allMembersStableAt depth members = true → areReadable after = true →
      areReadable (memberLexemes members ++ after) = true
  | [], after, _, hafter => hafter
  | (name, value) :: members, after, h, hafter => by
    rw [allMembersStableAt, Bool.and_eq_true] at h
    have hmembers := areReadable_memberLexemes members after h.2 hafter
    rw [memberLexemes, List.cons_append, List.cons_append, List.cons_append, List.append_assoc]
    exact areReadable_lexemes value _ h.1 (head?_memberLexemes members after) hmembers

end

/-- A value that survives is read back from any text that spells its lexemes. -/
theorem ofText?_of_spells {json : Json} {text : List Char} (hj : json.isStableAt 0 = true)
    (h : Spells text json.lexemes) : ofText? (String.ofList text) = some json := by
  have hreadable := areReadable_lexemes json [] hj rfl rfl
  have hread := readValue_lexemes json [] [] hj
  rw [List.append_nil] at hreadable hread
  rw [ofText?, String.toList_ofList, lexemes?_of_spells h hreadable]
  exact hread

/-! ## Compact and indented texts -/

theorem ofText?_compact {json : Json} (h : json.isStableAt 0 = true) :
    ofText? json.compact = some json := by
  have hspells := Spells.nil.append_write json.lexemes
  rw [List.append_nil, List.append_nil] at hspells
  exact ofText?_of_spells h hspells

theorem Spells.newLine {text : List Char} {lexemes : List Lexeme} (h : Spells text lexemes)
    (depth : Nat) : Spells (Json.newLine depth ++ text) lexemes := by
  apply h.append_spaces
  intro c hc
  rcases List.mem_cons.mp hc with rfl | hc
  · rfl
  · rw [List.eq_of_mem_replicate hc]
    rfl

theorem Spells.member {text : List Char} {lexemes : List Lexeme} (h : Spells text lexemes)
    (name : String) :
    Spells (writeLiteral name ++ ':' :: ' ' :: text)
      (.string (some name) :: .colon :: lexemes) := by
  have hblank : Spells (' ' :: text) lexemes := .space rfl h
  exact .lexeme (.string (some name)) (.lexeme .colon hblank)

mutual

theorem spells_indentedAt (depth : Nat) :
    ∀ (json : Json) (rest : List Char) (after : List Lexeme), Spells rest after →
      Spells (indentedAt depth json ++ rest) (json.lexemes ++ after)
  | .null, _, _, h => h.append_write [.null]
  | .bool value, _, _, h => h.append_write [.bool value]
  | .number value, _, _, h => h.append_write [.number value]
  | .string value, _, _, h => h.append_write [.string (some value)]
  | .array [], _, _, h => h.append_write [.openBracket, .closeBracket]
  | .array (item :: items), rest, after, h => by
    have hitems := spells_indentedItems depth items rest after h
    have hitem := spells_indentedAt (depth + 1) item _ _ hitems
    have hopen := Spells.lexeme .openBracket (hitem.newLine (depth + 1))
    simpa [indentedAt, lexemes, Lexeme.write] using hopen
  | .object [], _, _, h => h.append_write [.openBrace, .closeBrace]
  | .object ((name, value) :: members), rest, after, h => by
    have hmembers := spells_indentedMembers depth members rest after h
    have hvalue := spells_indentedAt (depth + 1) value _ _ hmembers
    have hopen := Spells.lexeme .openBrace ((hvalue.member name).newLine (depth + 1))
    simpa [indentedAt, lexemes, Lexeme.write] using hopen
  | .unusable, _, _, h => h.append_write [.null]

private theorem spells_indentedItems (depth : Nat) :
    ∀ (items : List Json) (rest : List Char) (after : List Lexeme), Spells rest after →
      Spells (indentedItems depth items ++ rest) (itemLexemes items ++ after)
  | [], rest, after, h => by
    have hclose := (Spells.lexeme .closeBracket h).newLine depth
    simpa [indentedItems, itemLexemes, Lexeme.write] using hclose
  | item :: items, rest, after, h => by
    have hitems := spells_indentedItems depth items rest after h
    have hitem := spells_indentedAt (depth + 1) item _ _ hitems
    have hcomma := Spells.lexeme .comma (hitem.newLine (depth + 1))
    simpa [indentedItems, itemLexemes, Lexeme.write] using hcomma

private theorem spells_indentedMembers (depth : Nat) :
    ∀ (members : List (String × Json)) (rest : List Char) (after : List Lexeme),
      Spells rest after →
      Spells (indentedMembers depth members ++ rest) (memberLexemes members ++ after)
  | [], rest, after, h => by
    have hclose := (Spells.lexeme .closeBrace h).newLine depth
    simpa [indentedMembers, memberLexemes, Lexeme.write] using hclose
  | (name, value) :: members, rest, after, h => by
    have hmembers := spells_indentedMembers depth members rest after h
    have hvalue := spells_indentedAt (depth + 1) value _ _ hmembers
    have hcomma := Spells.lexeme .comma ((hvalue.member name).newLine (depth + 1))
    simpa [indentedMembers, memberLexemes, Lexeme.write] using hcomma

end

theorem ofText?_indented {json : Json} (h : json.isStableAt 0 = true) :
    ofText? json.indented = some json := by
  have hspells := spells_indentedAt 0 json [] [] .nil
  rw [List.append_nil, List.append_nil] at hspells
  exact ofText?_of_spells h hspells

end TableDelta.Json
