/-!
# Runs at the start of a list

A run of entries with some property ends where an entry without it begins, so what stands
there divides a list at the end of the run.
-/
namespace TableDelta.Runs

variable {α : Type} {p : α → Bool} {run rest : List α}

theorem takeWhile_append (hrun : ∀ x ∈ run, p x = true) (hrest : ∀ x ∈ rest.head?, p x = false) :
    (run ++ rest).takeWhile p = run := by
  rw [List.takeWhile_append_of_pos hrun]
  cases rest with
  | nil => rw [List.takeWhile_nil, List.append_nil]
  | cons x rest =>
    have hx := hrest x rfl
    rw [List.takeWhile_cons_of_neg (by simp [hx]), List.append_nil]

theorem dropWhile_append (hrun : ∀ x ∈ run, p x = true) (hrest : ∀ x ∈ rest.head?, p x = false) :
    (run ++ rest).dropWhile p = rest := by
  rw [List.dropWhile_append_of_pos hrun]
  cases rest with
  | nil => rfl
  | cons x rest =>
    have hx := hrest x rfl
    rw [List.dropWhile_cons_of_neg (by simp [hx])]

end TableDelta.Runs
