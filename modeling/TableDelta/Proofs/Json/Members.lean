import Mathlib.Data.List.Forall2
import TableDelta.Json.Members
/-!
# Reading back records

A record is read from an object as soon as each of its members is there exactly once;
what else the object holds and in which order does not matter. So an object may be widened:
its members may be written in another order and others may be added.
-/
namespace TableDelta.Json

/-- Whether an object has each of some members, and no other member of the same name. -/
def Holds (members entries : List (String × Json)) : Prop :=
  ∀ entry ∈ entries, valuesNamed entry.1 members = [entry.2]

/-- Whether a value is read as a record with some members, all of which are there. -/
def Provides (json : Json) (entries : List (String × Json)) : Prop :=
  slots? (entries.map Prod.fst) json = some (entries.map fun entry => some entry.2)

/-- Whether an object has the members of another one in any order, and besides them only
members of other names, whose values are allowed. -/
inductive Widens (allowed : Json → Prop) : Json → Json → Prop
  | object {members added all : List (String × Json)} (hall : all.Perm (members ++ added))
      (hnames : ∀ member ∈ added, member.1 ∉ members.map Prod.fst)
      (hvalues : ∀ member ∈ added, allowed member.2) :
      Widens allowed (.object members) (.object all)

theorem valuesNamed_cons_self (name : String) (value : Json) (members : List (String × Json)) :
    valuesNamed name ((name, value) :: members) = value :: valuesNamed name members := by
  simp [valuesNamed]

theorem valuesNamed_cons_of_ne {name other : String} (h : other ≠ name) (value : Json)
    (members : List (String × Json)) :
    valuesNamed name ((other, value) :: members) = valuesNamed name members := by
  simp [valuesNamed, h]

private theorem valuesNamed_of_not_mem {name : String} {members : List (String × Json)}
    (h : name ∉ members.map Prod.fst) : valuesNamed name members = [] := by
  induction members with
  | nil => rfl
  | cons member members ih =>
    rw [List.map_cons, List.mem_cons, not_or] at h
    obtain ⟨other, value⟩ := member
    rw [valuesNamed_cons_of_ne (Ne.symm h.1)]
    exact ih h.2

theorem valuesNamed_append (name : String) (first second : List (String × Json)) :
    valuesNamed name (first ++ second) = valuesNamed name first ++ valuesNamed name second := by
  rw [valuesNamed, List.filter_append, List.map_append]
  rfl

private theorem valuesNamed_perm (name : String) {first second : List (String × Json)}
    (h : first.Perm second) : (valuesNamed name first).Perm (valuesNamed name second) :=
  (h.filter _).map Prod.snd

theorem holds_of_nodup {members : List (String × Json)} (h : (members.map Prod.fst).Nodup) :
    Holds members members := by
  induction members with
  | nil =>
    intro entry hentry
    exact absurd hentry List.not_mem_nil
  | cons member members ih =>
    obtain ⟨name, value⟩ := member
    rw [List.map_cons, List.nodup_cons] at h
    intro entry hentry
    rcases List.mem_cons.mp hentry with rfl | hentry
    · rw [valuesNamed_cons_self, valuesNamed_of_not_mem h.1]
    · have hne : name ≠ entry.1 := by
        intro heq
        apply h.1
        show name ∈ members.map Prod.fst
        rw [heq]
        exact List.mem_map_of_mem hentry
      rw [valuesNamed_cons_of_ne hne]
      exact ih h.2 entry hentry

theorem Holds.member? {members entries : List (String × Json)} (h : Holds members entries)
    {entry : String × Json} (hentry : entry ∈ entries) :
    member? entry.1 members = some (some entry.2) := by
  rw [Json.member?, h entry hentry]

theorem Holds.provides {members entries : List (String × Json)} (h : Holds members entries) :
    (object members).Provides entries := by
  rw [Provides, slots?]
  induction entries with
  | nil => rfl
  | cons entry entries ih =>
    have hrest : Holds members entries := by
      intro other hother
      exact h other (List.mem_cons_of_mem _ hother)
    rw [List.map_cons, List.mapM_cons, h.member? List.mem_cons_self, ih hrest]
    rfl

theorem provides_object {members : List (String × Json)} (h : (members.map Prod.fst).Nodup) :
    (object members).Provides members :=
  (holds_of_nodup h).provides

theorem provides_array (entries : List (String × Json)) :
    (array (entries.map Prod.snd)).Provides entries := by
  rw [Provides, slots?, List.length_map, List.length_map, if_pos (Nat.ble_eq.mpr (Nat.le_refl _)),
    Nat.sub_self, List.replicate_zero, List.append_nil, List.map_map]
  rfl

theorem isUsable_array_iff {items : List Json} :
    (array items).isUsable = true ↔ ∀ item ∈ items, item.isUsable = true := by
  rw [isUsable]
  induction items with
  | nil => simp [allUsable]
  | cons item items ih => rw [allUsable, Bool.and_eq_true, ih, List.forall_mem_cons]

theorem isUsable_object_iff {members : List (String × Json)} :
    (object members).isUsable = true ↔ ∀ member ∈ members, member.2.isUsable = true := by
  rw [isUsable]
  induction members with
  | nil => simp [allMembersUsable]
  | cons member members ih => rw [allMembersUsable, Bool.and_eq_true, ih, List.forall_mem_cons]

namespace Widens

variable {allowed : Json → Prop} {members : List (String × Json)} {json : Json}

protected theorem refl (members : List (String × Json)) :
    Widens allowed (.object members) (.object members) := by
  refine @Widens.object allowed members [] members ?_ ?_ ?_
  · rw [List.append_nil]
  · intro member hmember
    exact absurd hmember List.not_mem_nil
  · intro member hmember
    exact absurd hmember List.not_mem_nil

/-- No member is lost by widening and none gets a namesake. -/
theorem exists_holds (h : Widens allowed (.object members) json)
    (hn : (members.map Prod.fst).Nodup) : ∃ all, json = .object all ∧ Holds all members := by
  cases h with
  | @object _ added all hall hnames _ =>
    refine ⟨all, rfl, ?_⟩
    intro entry hentry
    have hadded : entry.1 ∉ added.map Prod.fst := by
      intro hname
      obtain ⟨member, hmember, heq⟩ := List.mem_map.mp hname
      apply hnames member hmember
      rw [heq]
      exact List.mem_map_of_mem hentry
    have hvalues := valuesNamed_perm entry.1 hall
    rw [valuesNamed_append, valuesNamed_of_not_mem hadded, List.append_nil,
      holds_of_nodup hn entry hentry] at hvalues
    exact List.perm_singleton.mp hvalues

theorem provides (h : Widens allowed (.object members) json)
    (hn : (members.map Prod.fst).Nodup) : json.Provides members := by
  obtain ⟨all, rfl, hall⟩ := h.exists_holds hn
  exact hall.provides

theorem isUsable {wide : Json} (h : Widens (·.isUsable = true) json wide)
    (hjson : json.isUsable = true) : wide.isUsable = true := by
  cases h with
  | object hall _ hvalues =>
    rw [isUsable_object_iff] at hjson ⊢
    intro member hmember
    rcases List.mem_append.mp (hall.mem_iff.mp hmember) with hmember | hmember
    · exact hjson member hmember
    · exact hvalues member hmember

end Widens

theorem natBelow?_natural {bound n : Nat} (h : n < bound) :
    (natural n).natBelow? bound = some n := by
  have hn : (Number.natural n).natural? = some n := rfl
  rw [natural, natBelow?, hn, Option.filter_some, if_pos (Nat.blt_eq.mpr h)]

theorem lt_of_natBelow? {bound n : Nat} {json : Json} (h : json.natBelow? bound = some n) :
    n < bound := by
  cases json with
  | number value =>
    rw [natBelow?, Option.filter_eq_some_iff] at h
    exact Nat.blt_eq.mp h.2
  | _ => simp [natBelow?] at h

theorem mapM_of_forall₂ {α : Type} {form : α → Json → Prop} {decode : Json → Option α}
    {values : List α} {items : List Json} (hitems : List.Forall₂ form values items)
    (h : ∀ value ∈ values, ∀ item, form value item → decode item = some value) :
    items.mapM decode = some values := by
  induction hitems with
  | nil => rfl
  | @cons value item values items hitem _ ih =>
    have hrest : ∀ other ∈ values, ∀ item, form other item → decode item = some other := by
      intro other hother
      exact h other (List.mem_cons_of_mem _ hother)
    rw [List.mapM_cons, h value List.mem_cons_self item hitem, ih hrest]
    rfl

theorem forall₂_map {α : Type} (encode : α → Json) (values : List α) :
    List.Forall₂ (fun value item => item = encode value) values (values.map encode) :=
  List.forall₂_map_right_iff.mpr (List.forall₂_same.mpr fun _ _ => rfl)

theorem mapM_map {α : Type} {encode : α → Json} {decode : Json → Option α} {values : List α}
    (h : ∀ value ∈ values, decode (encode value) = some value) :
    (values.map encode).mapM decode = some values := by
  apply mapM_of_forall₂ (forall₂_map encode values)
  rintro value hvalue item rfl
  exact h value hvalue

theorem mapM_eq_some_iff {α β : Type} {decode : α → Option β} {items : List α} {values : List β} :
    items.mapM decode = some values ↔
      List.Forall₂ (fun item value => decode item = some value) items values := by
  induction items generalizing values with
  | nil => simp [eq_comm]
  | cons item items ih =>
    rw [List.mapM_cons, List.forall₂_cons_left_iff]
    simp only [Option.bind_eq_bind, Option.bind_eq_some_iff, ih, Option.pure_def,
      Option.some.injEq]
    constructor
    · rintro ⟨value, hvalue, rest, hrest, rfl⟩
      exact ⟨value, rest, hvalue, hrest, rfl⟩
    · rintro ⟨value, rest, hvalue, hrest, rfl⟩
      exact ⟨value, hvalue, rest, hrest, rfl⟩

theorem exists_of_mem_mapM {α β : Type} {decode : α → Option β} {items : List α}
    {values : List β} (h : items.mapM decode = some values) {value : β} (hv : value ∈ values) :
    ∃ item ∈ items, decode item = some value := by
  induction mapM_eq_some_iff.mp h with
  | nil => exact absurd hv List.not_mem_nil
  | cons hitem hrest ih =>
    rcases List.mem_cons.mp hv with rfl | hv
    · exact ⟨_, List.mem_cons_self, hitem⟩
    · obtain ⟨item, hm, hvalue⟩ := ih (mapM_eq_some_iff.mpr hrest) hv
      exact ⟨item, List.mem_cons_of_mem _ hm, hvalue⟩

theorem strings?_strings (values : List String) : (strings values).strings? = some values :=
  mapM_map fun _ _ => rfl

end TableDelta.Json
