import TableDelta.Json.Reader
/-!
# Values that survive a text

A value survives being written and read if its numbers are whole and of 64 bits, it does
not nest too deep and nothing in it is unusable. How deep it may nest depends on the
containers around it.
-/
namespace TableDelta.Json

mutual

/-- Whether a value is read back as it is below some open containers. -/
def isStableAt (depth : Nat) : Json → Bool
  | .number value => value.natural?.any (Nat.blt · Number.leadingLimit)
  | .array items => Nat.blt depth maxDepth && allStableAt (depth + 1) items
  | .object members => Nat.blt depth maxDepth && allMembersStableAt (depth + 1) members
  | .unusable => false
  | _ => true

def allStableAt (depth : Nat) : List Json → Bool
  | [] => true
  | item :: items => item.isStableAt depth && allStableAt depth items

def allMembersStableAt (depth : Nat) : List (String × Json) → Bool
  | [] => true
  | (_, value) :: members => value.isStableAt depth && allMembersStableAt depth members

end

theorem isStableAt_natural (depth : Nat) {n : Nat} (h : n < Number.leadingLimit) :
    (natural n).isStableAt depth = true := by
  rw [natural, isStableAt]
  exact Nat.blt_eq.mpr h

theorem isStableAt_array_map {α : Type} {depth : Nat} (hd : depth < maxDepth) {values : List α}
    {f : α → Json} (h : ∀ value ∈ values, (f value).isStableAt (depth + 1) = true) :
    (Json.array (values.map f)).isStableAt depth = true := by
  rw [isStableAt, Bool.and_eq_true]
  refine ⟨Nat.blt_eq.mpr hd, ?_⟩
  induction values with
  | nil => rfl
  | cons value values ih =>
    rw [List.map_cons, allStableAt, Bool.and_eq_true]
    constructor
    · exact h value List.mem_cons_self
    · apply ih
      intro value hvalue
      exact h value (List.mem_cons_of_mem _ hvalue)

theorem isStableAt_strings {depth : Nat} (hd : depth < maxDepth) (values : List String) :
    (strings values).isStableAt depth = true :=
  isStableAt_array_map hd fun _ _ => rfl

theorem isStableAt_object {depth : Nat} (hd : depth < maxDepth) {members : List (String × Json)}
    (h : ∀ member ∈ members, member.2.isStableAt (depth + 1) = true) :
    (Json.object members).isStableAt depth = true := by
  rw [isStableAt, Bool.and_eq_true]
  refine ⟨Nat.blt_eq.mpr hd, ?_⟩
  induction members with
  | nil => rfl
  | cons member members ih =>
    rw [allMembersStableAt, Bool.and_eq_true]
    constructor
    · exact h member List.mem_cons_self
    · apply ih
      intro member hmember
      exact h member (List.mem_cons_of_mem _ hmember)

mutual

theorem isUsable_of_isStableAt {depth : Nat} :
    ∀ json : Json, json.isStableAt depth = true → json.isUsable = true
  | .null, _ => rfl
  | .bool _, _ => rfl
  | .number _, _ => rfl
  | .string _, _ => rfl
  | .array items, h => by
    rw [isStableAt, Bool.and_eq_true] at h
    rw [isUsable]
    exact allUsable_of_allStableAt items h.2
  | .object members, h => by
    rw [isStableAt, Bool.and_eq_true] at h
    rw [isUsable]
    exact allMembersUsable_of_allMembersStableAt members h.2
  | .unusable, h => absurd h Bool.false_ne_true

private theorem allUsable_of_allStableAt {depth : Nat} :
    ∀ items : List Json, allStableAt depth items = true → allUsable items = true
  | [], _ => rfl
  | item :: items, h => by
    rw [allStableAt, Bool.and_eq_true] at h
    rw [allUsable, Bool.and_eq_true]
    exact ⟨isUsable_of_isStableAt item h.1, allUsable_of_allStableAt items h.2⟩

private theorem allMembersUsable_of_allMembersStableAt {depth : Nat} :
    ∀ members : List (String × Json), allMembersStableAt depth members = true →
      allMembersUsable members = true
  | [], _ => rfl
  | (name, value) :: members, h => by
    rw [allMembersStableAt, Bool.and_eq_true] at h
    rw [allMembersUsable, Bool.and_eq_true]
    exact ⟨isUsable_of_isStableAt value h.1, allMembersUsable_of_allMembersStableAt members h.2⟩

end

end TableDelta.Json
