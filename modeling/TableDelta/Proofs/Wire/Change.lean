import TableDelta.Proofs.Wire.Definition
import TableDelta.Wire.Change
/-!
# Reading back changes

A change is read back from any object that holds its kind and its payload, and from an
array of them. The only number in a change is the index of a redefinition, and whatever was
read has one that fits.
-/
namespace TableDelta

theorem ChangeKind.ofJson?_toJson (kind : ChangeKind) : ofJson? kind.toJson = some kind :=
  kind.ofCode?_code

namespace Rename

theorem ofJson?_of_provides {json : Json} {rename : Rename} (h : json.Provides rename.members) :
    ofJson? json = some rename := by
  have hslots : Json.slots? ["from", "to"] json = _ := h
  rw [ofJson?, hslots]
  rfl

theorem ofJson?_toJson (rename : Rename) : ofJson? rename.toJson = some rename :=
  ofJson?_of_provides (Json.provides_object (show ["from", "to"].Nodup by decide))

theorem isStableAt_of_mem_members {depth : Nat} (rename : Rename) {member : String × Json}
    (h : member ∈ rename.members) : member.2.isStableAt depth = true := by
  simp only [members, List.mem_cons, List.not_mem_nil, or_false] at h
  rcases h with rfl | rfl
  · rfl
  · rfl

end Rename

namespace Redefinition

private theorem decode?_of_provides (isVacant : Json → Bool) {json : Json} {r : Redefinition}
    (hindex : r.index < countLimit) (h : json.Provides r.members) :
    decode? isVacant json = some r := by
  have hslots : Json.slots? ["index", "previous_column", "column", "previous", "current"]
      json = _ := h
  have hdecode := Definition.decode?_toJson isVacant
  rw [decode?, hslots]
  simp [Redefinition.members, Json.natBelow?_natural hindex, hdecode, Json.string?]

theorem index_lt_of_decode? {isVacant : Json → Bool} {json : Json} {r : Redefinition}
    (h : decode? isVacant json = some r) : r.index < countLimit := by
  simp only [decode?, Option.bind_eq_bind, Option.bind_eq_some_iff] at h
  obtain ⟨slots, -, h⟩ := h
  split at h
  · simp only [Option.bind_eq_some_iff, Option.pure_def, Option.some.injEq] at h
    obtain ⟨index, hindex, previousColumn, -, column, -, previous, -, current, -, rfl⟩ := h
    exact Json.lt_of_natBelow? hindex
  · exact absurd h (by simp)

theorem ofJson?_toJson {r : Redefinition} (h : r.index < countLimit) :
    ofJson? r.toJson = some r :=
  decode?_of_provides Json.isNull h (Json.provides_object
    (show ["index", "previous_column", "column", "previous", "current"].Nodup by decide))

theorem isStableAt_of_mem_members {depth : Nat} (hd : depth + 1 < Json.maxDepth)
    {r : Redefinition} (hindex : r.index < countLimit) {member : String × Json}
    (h : member ∈ r.members) : member.2.isStableAt depth = true := by
  simp only [members, List.mem_cons, List.not_mem_nil, or_false] at h
  rcases h with rfl | rfl | rfl | rfl | rfl
  · exact Json.isStableAt_natural depth hindex
  · rfl
  · rfl
  · exact r.previous.isStableAt_toJson hd
  · exact r.current.isStableAt_toJson hd

end Redefinition

namespace Change

/-- Whether the numbers in a change fit into 64 bits. -/
def IsEncodable : Change → Prop
  | definitionChanged r => r.index < countLimit
  | _ => True

private theorem columns?_of_provides {json : Json} {columns : List String}
    (h : json.Provides [("columns", .strings columns)]) : columns? json = some columns := by
  have hslots : Json.slots? ["columns"] json = _ := h
  rw [columns?, hslots]
  exact Json.strings?_strings columns

private theorem column?_of_provides {json : Json} {column : String}
    (h : json.Provides [("column", .string column)]) : column? json = some column := by
  have hslots : Json.slots? ["column"] json = _ := h
  rw [column?, hslots]
  rfl

private theorem ofPayload?_of_provides {json : Json} {change : Change} (hc : change.IsEncodable)
    (h : json.Provides change.payload) : ofPayload? change.kind json = some change := by
  cases change with
  | tableRenamed rename =>
    rw [kind, ofPayload?, Rename.ofJson?_of_provides h]
    rfl
  | columnRenamed rename =>
    rw [kind, ofPayload?, Rename.ofJson?_of_provides h]
    rfl
  | columnsDropped columns =>
    rw [kind, ofPayload?, columns?_of_provides h]
    rfl
  | columnsAdded columns =>
    rw [kind, ofPayload?, columns?_of_provides h]
    rfl
  | definitionChanged r =>
    rw [kind, ofPayload?, Redefinition.decode?_of_provides isVacant hc h]
    rfl
  | _ =>
    rw [kind, ofPayload?, column?_of_provides h]
    rfl

theorem ofJson?_of_holds {members : List (String × Json)} {change : Change}
    (hc : change.IsEncodable) (husable : (Json.object members).isUsable = true)
    (h : Json.Holds members (("kind", change.kind.toJson) :: change.payload)) :
    ofJson? (.object members) = some change := by
  have hkind : Json.member? "kind" members = some (some (.string change.kind.code)) :=
    h.member? List.mem_cons_self
  have hpayload : Json.Holds members change.payload := by
    intro entry hentry
    exact h entry (List.mem_cons_of_mem _ hentry)
  rw [ofJson?, if_pos husable]
  simp [hkind, Json.string?, ChangeKind.ofCode?_code, ofPayload?_of_provides hc hpayload.provides]

private theorem isStableAt_of_mem_payload {depth : Nat} (hd : depth + 1 < Json.maxDepth)
    {change : Change} (hc : change.IsEncodable) {member : String × Json}
    (h : member ∈ change.payload) : member.2.isStableAt depth = true := by
  cases change with
  | tableRenamed rename | columnRenamed rename => exact rename.isStableAt_of_mem_members h
  | columnsDropped columns | columnsAdded columns =>
    rw [List.mem_singleton.mp h]
    exact Json.isStableAt_strings (Nat.lt_of_succ_lt hd) columns
  | definitionChanged r => exact r.isStableAt_of_mem_members hd hc h
  | _ =>
    rw [List.mem_singleton.mp h]
    rfl

theorem isStableAt_toJson {depth : Nat} (hd : depth + 2 < Json.maxDepth) {change : Change}
    (hc : change.IsEncodable) : change.toJson.isStableAt depth = true := by
  apply Json.isStableAt_object (Nat.lt_of_succ_lt (Nat.lt_of_succ_lt hd))
  intro member hmember
  rcases List.mem_cons.mp hmember with rfl | hmember
  · rfl
  · exact isStableAt_of_mem_payload hd hc hmember

theorem nodup_toJson (change : Change) :
    ((("kind", change.kind.toJson) :: change.payload).map Prod.fst).Nodup := by
  cases change with
  | tableRenamed rename | columnRenamed rename => exact (by decide : ["kind", "from", "to"].Nodup)
  | columnsDropped columns | columnsAdded columns => exact (by decide : ["kind", "columns"].Nodup)
  | definitionChanged r =>
    exact (by decide : ["kind", "index", "previous_column", "column", "previous", "current"].Nodup)
  | _ => exact (by decide : ["kind", "column"].Nodup)

theorem ofJson?_toJson {change : Change} (hc : change.IsEncodable) :
    ofJson? change.toJson = some change := by
  have hstable : change.toJson.isStableAt 0 = true := isStableAt_toJson (by decide) hc
  apply ofJson?_of_holds hc (Json.isUsable_of_isStableAt _ hstable)
  exact Json.holds_of_nodup change.nodup_toJson

/-- The kind and the payload of a change, without the names of their members. -/
def toArray (change : Change) : Json :=
  .array (change.kind.toJson :: change.payload.map Prod.snd)

theorem ofJson?_toArray {change : Change} (hc : change.IsEncodable) :
    ofJson? change.toArray = some change := by
  have husable : change.toArray.isUsable = true := by
    rw [toArray, Json.isUsable_array_iff, List.forall_mem_cons, List.forall_mem_map]
    refine ⟨rfl, ?_⟩
    intro member hmember
    have hstable : member.2.isStableAt 0 = true := isStableAt_of_mem_payload (by decide) hc hmember
    exact Json.isUsable_of_isStableAt _ hstable
  have hpayload := ofPayload?_of_provides hc (Json.provides_array change.payload)
  rw [toArray] at husable ⊢
  rw [ofJson?, if_pos husable]
  simp [ChangeKind.toJson, Json.string?, ChangeKind.ofCode?_code, hpayload]

private theorem isEncodable_of_ofPayload? {kind : ChangeKind} {payload : Json} {change : Change}
    (h : ofPayload? kind payload = some change) : change.IsEncodable := by
  cases kind with
  | definitionChanged =>
    rw [ofPayload?, Option.map_eq_some_iff] at h
    obtain ⟨r, hr, rfl⟩ := h
    exact Redefinition.index_lt_of_decode? hr
  | _ =>
    rw [ofPayload?, Option.map_eq_some_iff] at h
    obtain ⟨_, _, rfl⟩ := h
    trivial

theorem isEncodable_of_ofJson? {json : Json} {change : Change} (h : ofJson? json = some change) :
    change.IsEncodable := by
  unfold ofJson? at h
  split at h
  · split at h
    · simp only [Option.bind_eq_bind, Option.bind_eq_some_iff] at h
      obtain ⟨_, _, _, _, _, _, kind, _, hpayload⟩ := h
      exact isEncodable_of_ofPayload? hpayload
    · simp only [Option.bind_eq_bind, Option.bind_eq_some_iff] at h
      obtain ⟨_, _, kind, _, hpayload⟩ := h
      exact isEncodable_of_ofPayload? hpayload
    · exact absurd h (by simp)
  · exact absurd h (by simp)

end Change

end TableDelta
