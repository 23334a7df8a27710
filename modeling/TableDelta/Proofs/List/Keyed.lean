import Mathlib.Data.List.Basic
import Mathlib.Data.List.Induction
import Mathlib.Data.List.Nodup
/-!
# Look-up by key

In a list whose entries have distinct keys, a key finds the one entry that has it, and
still does after some of the other entries were left out. Keys that are listed repeatedly
are told apart by their first places. What looks at keys alone sees no difference between
lists with the same keys.
-/
namespace TableDelta.Keyed

variable {α β : Type} [DecidableEq β] {key : α → β}

theorem find?_key {xs : List α} (h : (xs.map key).Nodup) {x : α} (hx : x ∈ xs) :
    xs.find? (fun y => key y == key x) = some x := by
  induction xs with
  | nil => exact absurd hx List.not_mem_nil
  | cons first rest ih =>
    simp only [List.map_cons, List.nodup_cons] at h
    rcases List.mem_cons.mp hx with rfl | hx
    · simp
    · have hne : key first ≠ key x := by
        intro he
        exact h.1 (he ▸ List.mem_map_of_mem hx)
      rw [List.find?_cons_of_neg (by simpa using hne)]
      exact ih h.2 hx

omit [DecidableEq β] in
/-- Lists with the same keys give the same results where only keys are looked at. -/
theorem flatMap_eq_of_map_eq {γ : Type} {f g : α → List γ}
    (h : ∀ x y, key x = key y → f x = g y) {xs ys : List α} (hkeys : xs.map key = ys.map key) :
    xs.flatMap f = ys.flatMap g := by
  induction xs generalizing ys with
  | nil =>
    rw [List.map_nil, eq_comm, List.map_eq_nil_iff] at hkeys
    rw [hkeys]
    rfl
  | cons x xs ih =>
    cases ys with
    | nil => exact absurd hkeys (List.cons_ne_nil _ _)
    | cons y ys =>
      rw [List.map_cons, List.map_cons, List.cons.injEq] at hkeys
      rw [List.flatMap_cons, List.flatMap_cons, h x y hkeys.1, ih hkeys.2]

theorem find?_key_filter {xs : List α} (h : (xs.map key).Nodup) {x : α} (hx : x ∈ xs)
    (keep : α → Bool) :
    (xs.filter keep).find? (fun y => key y == key x) = if keep x then some x else none := by
  cases hk : keep x with
  | true =>
    have hsub : ((xs.filter keep).map key).Nodup := (List.filter_sublist.map key).nodup h
    rw [if_pos rfl]
    exact find?_key hsub (List.mem_filter.mpr ⟨hx, hk⟩)
  | false =>
    rw [if_neg Bool.false_ne_true, List.find?_eq_none]
    intro y hy he
    obtain ⟨hy, hkeep⟩ := List.mem_filter.mp hy
    rw [List.inj_on_of_nodup_map h hy hx (beq_iff_eq.mp he), hk] at hkeep
    exact Bool.false_ne_true hkeep

/-- Where the keys of a list are the first keys of another one, looking each of them up there
finds the entry at the same place. -/
theorem zip_eq_filterMap_find? {xs ys : List α} (hn : (ys.map key).Nodup)
    (h : xs.map key <+: ys.map key) :
    xs.zip ys = xs.filterMap fun x => (ys.find? fun y => key y == key x).map fun y => (x, y) := by
  induction xs generalizing ys with
  | nil => rfl
  | cons x xs ih =>
    cases ys with
    | nil => exact absurd (List.prefix_nil.mp h) (List.cons_ne_nil _ _)
    | cons y ys =>
      rw [List.map_cons, List.map_cons, List.cons_prefix_cons] at h
      obtain ⟨hnew, hn⟩ := List.nodup_cons.mp hn
      have hfirst : (y :: ys).find? (fun z => key z == key x) = some y :=
        List.find?_cons_of_pos (beq_iff_eq.mpr h.1.symm)
      have hrest : ∀ other ∈ xs, ((y :: ys).find? fun z => key z == key other).map
            (fun z => (other, z)) =
          (ys.find? fun z => key z == key other).map fun z => (other, z) := by
        intro other hother
        have hne : ¬ (key y == key other) = true := by
          intro he
          exact hnew (beq_iff_eq.mp he ▸ h.2.subset (List.mem_map_of_mem hother))
        have hskip : (y :: ys).find? (fun z => key z == key other) =
            ys.find? fun z => key z == key other := List.find?_cons_of_neg hne
        rw [hskip]
      rw [List.zip_cons_cons, List.filterMap_cons, hfirst, List.filterMap_congr hrest, ih hn h.2]
      rfl

theorem eraseDups_append_singleton (keys : List β) (key : β) :
    (keys ++ [key]).eraseDups =
      if key ∈ keys then keys.eraseDups else keys.eraseDups ++ [key] := by
  rw [List.eraseDups_append]
  by_cases h : key ∈ keys
  · have hnone : [key].removeAll keys = [] := by simp [List.removeAll, h]
    rw [hnone, if_pos h, List.eraseDups_nil, List.append_nil]
  · have hone : [key].removeAll keys = [key] := by simp [List.removeAll, h]
    rw [hone, if_neg h]
    rfl

theorem eraseDups_filter (keep : β → Bool) (keys : List β) :
    (keys.filter keep).eraseDups = keys.eraseDups.filter keep := by
  -- from the end: whether a key comes up depends on the keys in front of it alone
  induction keys using List.reverseRecOn with
  | nil => rfl
  | append_singleton keys key ih =>
    cases hk : keep key with
    | false =>
      rw [List.filter_append, List.filter_cons_of_neg (by simp [hk]), List.filter_nil,
        List.append_nil, ih, eraseDups_append_singleton]
      split
      · rfl
      · rw [List.filter_append, List.filter_cons_of_neg (by simp [hk]), List.filter_nil,
          List.append_nil]
    | true =>
      have hm : key ∈ keys.filter keep ↔ key ∈ keys := by simp [hk]
      rw [List.filter_append, List.filter_cons_of_pos hk, List.filter_nil,
        eraseDups_append_singleton, eraseDups_append_singleton, ih]
      by_cases h : key ∈ keys
      · rw [if_pos (hm.mpr h), if_pos h]
      · rw [if_neg (fun hf => h (hm.mp hf)), if_neg h, List.filter_append,
          List.filter_cons_of_pos hk, List.filter_nil]

theorem eraseDups_append (keys more : List β) :
    (keys ++ more).eraseDups = keys.eraseDups ++ more.eraseDups.filter fun key => key ∉ keys := by
  have hnew : more.removeAll keys = more.filter fun key => key ∉ keys := by simp [List.removeAll]
  rw [List.eraseDups_append, hnew, eraseDups_filter]

end TableDelta.Keyed
