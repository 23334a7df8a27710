import TableDelta.Proofs.List.Runs
import TableDelta.Proofs.Toml.Strings
/-!
# Reading back lines

A line that gives a value to a bare key is read as that entry, and a text of such lines is
read line by line, whatever stands behind them.
-/
namespace TableDelta.Toml

/-- Whether a key can be written without quotes. -/
structure IsBare (key : String) : Prop where
  nonempty : key.toList ≠ []
  bare : ∀ c ∈ key.toList, isBareChar c = true

instance (key : String) : Decidable (IsBare key) :=
  decidable_of_iff (key.toList ≠ [] ∧ key.toList.all isBareChar = true) <| by
    rw [List.all_eq_true]
    exact ⟨fun h => ⟨h.1, h.2⟩, fun h => ⟨h.nonempty, h.bare⟩⟩

theorem IsBare.exists_eq_cons {key : String} (h : IsBare key) :
    ∃ c cs, key.toList = c :: cs ∧ isBareChar c = true := by
  cases hkey : key.toList with
  | nil => exact absurd hkey h.nonempty
  | cons c cs =>
    have hc : c ∈ key.toList := by rw [hkey]; exact List.mem_cons_self
    exact ⟨c, cs, rfl, h.bare c hc⟩

private theorem skipSpaces_of_not_isSpace {c : Char} (h : isSpace c = false) (rest : List Char) :
    skipSpaces (c :: rest) = c :: rest := by
  rw [skipSpaces, List.dropWhile_cons_of_neg (by simp [h])]

private theorem ne_of_isBareChar {c d : Char} (h : isBareChar c = true)
    (hd : isBareChar d = false) : c ≠ d := by
  rintro rfl
  rw [hd] at h
  exact absurd h (by decide)

private theorem isSpace_of_isBareChar {c : Char} (h : isBareChar c = true) : isSpace c = false := by
  have hblank : c ≠ ' ' := ne_of_isBareChar h (by decide)
  have htab : c ≠ '\t' := ne_of_isBareChar h (by decide)
  simp [isSpace, hblank, htab]

private theorem many_of_none {α : Type} {read : Reader α} {cs : List Char} (h : read cs = none) :
    many read cs = ([], cs) := by
  rw [many, h]

private theorem many_of_some {α : Type} {read : Reader α} {cs rest : List Char} {a : α}
    (h : read cs = some (a, rest)) (hlt : rest.length < cs.length) :
    many read cs = (a :: (many read rest).1, (many read rest).2) := by
  rw [many, h]
  exact dif_pos hlt

private theorem readKey_of_isBare {key : String} (hkey : IsBare key) {rest : List Char}
    (hrest : ∀ c ∈ rest.head?, isBareChar c = false) :
    readKey (key.toList ++ rest) = some (key, skipSpaces rest) := by
  have htake := Runs.takeWhile_append hkey.bare hrest
  have hdrop := Runs.dropWhile_append hkey.bare hrest
  obtain ⟨c, cs, hcs, hc⟩ := hkey.exists_eq_cons
  have hskip : skipSpaces (key.toList ++ rest) = key.toList ++ rest := by
    rw [hcs, List.cons_append]
    exact skipSpaces_of_not_isSpace (isSpace_of_isBareChar hc) _
  unfold readKey
  rw [hskip]
  split
  · next heq =>
    rw [hcs, List.cons_append, List.cons.injEq] at heq
    exact absurd heq.1 (ne_of_isBareChar hc (by decide))
  · next heq =>
    rw [hcs, List.cons_append, List.cons.injEq] at heq
    exact absurd heq.1 (ne_of_isBareChar hc (by decide))
  · rw [htake, hdrop]
    split
    · next heq => exact absurd heq hkey.nonempty
    · simp

private theorem readPath_of_isBare {key : String} (hkey : IsBare key) {c d : Char}
    {rest tail : List Char} (hc : isBareChar c = false)
    (hskip : skipSpaces (c :: rest) = d :: tail) (hd : d ≠ '.') :
    readPath (key.toList ++ c :: rest) = some ([key], d :: tail) := by
  have hrest : ∀ e ∈ (c :: rest).head?, isBareChar e = false := by
    intro e he
    cases he
    exact hc
  unfold readPath
  rw [readKey_of_isBare hkey hrest, hskip]
  simp only [Option.bind_eq_bind, Option.bind_some]
  rw [many_of_none]
  · rfl
  · split
    · next heq => exact absurd (List.cons.inj heq).1 hd
    · rfl

private theorem endLine?_of_isBareChar {c : Char} (h : isBareChar c = true) (rest : List Char) :
    endLine? (c :: rest) = none := by
  have hcomment : skipComment (c :: rest) = c :: rest := by
    unfold skipComment
    split
    · next heq => exact absurd (List.cons.inj heq).1 (ne_of_isBareChar h (by decide))
    · rfl
  have hnewLine : readNewLine? (c :: rest) = none := by
    unfold readNewLine?
    split
    · next heq => exact absurd (List.cons.inj heq).1 (ne_of_isBareChar h (by decide))
    · next heq => exact absurd (List.cons.inj heq).1 (ne_of_isBareChar h (by decide))
    · rfl
  rw [endLine?, skipSpaces_of_not_isSpace (isSpace_of_isBareChar h), hcomment]
  exact hnewLine

private theorem readEntry_of_isBare {read : Reader Toml} {key : String} (hkey : IsBare key)
    {value rest : List Char} {toml : Toml} (hspace : ∀ c ∈ value.head?, isSpace c = false)
    (hread : read (value ++ '\n' :: rest) = some (toml, '\n' :: rest)) :
    readEntry read (key.toList ++ ' ' :: '=' :: ' ' :: (value ++ '\n' :: rest)) =
      some (([key], toml), '\n' :: rest) := by
  have hvalue : skipSpaces (' ' :: (value ++ '\n' :: rest)) = value ++ '\n' :: rest := by
    cases value with
    | nil => rfl
    | cons c cs => exact skipSpaces_of_not_isSpace (hspace c rfl) _
  have hpath : readPath (key.toList ++ ' ' :: '=' :: ' ' :: (value ++ '\n' :: rest)) =
      some ([key], '=' :: ' ' :: (value ++ '\n' :: rest)) :=
    readPath_of_isBare hkey (by decide) rfl (by decide)
  rw [readEntry, hpath]
  simp only [Option.bind_eq_bind, Option.bind_some, hvalue, hread]
  rfl

private theorem readLine_writeLine {key : String} (hkey : IsBare key) {value rest : List Char}
    {toml : Toml} (hspace : ∀ c ∈ value.head?, isSpace c = false)
    (hvalue : readValue maxDepth (value ++ '\n' :: rest) = some (toml, '\n' :: rest)) :
    readLine (writeLine key value ++ rest) = some (.entry [key] toml, rest) := by
  have hline : writeLine key value ++ rest =
      key.toList ++ ' ' :: '=' :: ' ' :: (value ++ '\n' :: rest) := by simp [writeLine]
  have hentry := readEntry_of_isBare hkey hspace hvalue
  obtain ⟨c, cs, hcs, hc⟩ := hkey.exists_eq_cons
  rw [hline]
  rw [hcs, List.cons_append] at hentry ⊢
  unfold readLine
  rw [skipSpaces_of_not_isSpace (isSpace_of_isBareChar hc)]
  split
  · next heq => exact absurd heq (List.cons_ne_nil _ _)
  · next heq => exact absurd (List.cons.inj heq).1 (ne_of_isBareChar hc (by decide))
  · next heq => exact absurd (List.cons.inj heq).1 (ne_of_isBareChar hc (by decide))
  · rw [endLine?_of_isBareChar hc, hentry]
    rfl

private theorem readLine_heading {key : String} (hkey : IsBare key) (rest : List Char) :
    readLine ('[' :: (key.toList ++ ']' :: '\n' :: rest)) = some (.table [key], rest) := by
  have hpath : readPath (key.toList ++ ']' :: '\n' :: rest) =
      some ([key], ']' :: '\n' :: rest) :=
    readPath_of_isBare hkey (by decide) rfl (by decide)
  obtain ⟨c, cs, hcs, hc⟩ := hkey.exists_eq_cons
  rw [hcs, List.cons_append] at hpath ⊢
  unfold readLine
  rw [skipSpaces_of_not_isSpace (by decide)]
  split
  · next heq => exact absurd heq (List.cons_ne_nil _ _)
  · next heq =>
    have hbracket := (List.cons.inj (List.cons.inj heq).2).1
    exact absurd hbracket (ne_of_isBareChar hc (by decide))
  · next heq =>
    rw [← (List.cons.inj heq).2, hpath]
    rfl
  · next hother => exact absurd rfl (hother _)

theorem lines?_nil : lines? [] = some [] := by
  rw [lines?, many_of_none rfl]
  rfl

private theorem lines?_append {cs rest : List Char} {line : Line} {lines : List Line}
    (hcs : cs ≠ [])
    (hline : readLine (cs ++ rest) = some (line, rest)) (hrest : lines? rest = some lines) :
    lines? (cs ++ rest) = some (line :: lines) := by
  have hlt : rest.length < (cs ++ rest).length := by
    have hpos := List.length_pos_iff.mpr hcs
    rw [List.length_append]
    omega
  rw [lines?, Option.ite_none_right_eq_some] at hrest
  rw [lines?, many_of_some hline hlt, ← Option.some.inj hrest.2]
  exact if_pos hrest.1

theorem lines?_writeLine {key : String} (hkey : IsBare key) {value rest : List Char} {toml : Toml}
    {lines : List Line} (hspace : ∀ c ∈ value.head?, isSpace c = false)
    (hvalue : readValue maxDepth (value ++ '\n' :: rest) = some (toml, '\n' :: rest))
    (hrest : lines? rest = some lines) :
    lines? (writeLine key value ++ rest) = some (.entry [key] toml :: lines) := by
  have hcs : writeLine key value ≠ [] := by simp [writeLine]
  exact lines?_append hcs (readLine_writeLine hkey hspace hvalue) hrest

theorem lines?_heading {key : String} (hkey : IsBare key) {rest : List Char} {lines : List Line}
    (hrest : lines? rest = some lines) :
    lines? ('[' :: (key.toList ++ ']' :: '\n' :: rest)) = some (.table [key] :: lines) := by
  have hsplit : '[' :: (key.toList ++ ']' :: '\n' :: rest) =
      ('[' :: (key.toList ++ [']', '\n'])) ++ rest := by simp
  have hread := readLine_heading hkey rest
  rw [hsplit] at hread ⊢
  exact lines?_append (List.cons_ne_nil _ _) hread hrest

end TableDelta.Toml
