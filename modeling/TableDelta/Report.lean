import TableDelta.Diff
/-!
# Reports

A report is the versioned form in which a change set is handed on: the changes with
their changelog, and a summary that counts them. `Tally` holds the counts by kind,
in the order of the kinds and at most one for each.
-/
namespace TableDelta

/-- Counts by kind of change, in the order of the kinds. -/
structure Tally where
  entries : List (ChangeKind × Nat)
  sorted : entries.Pairwise fun a b => Nat.blt a.1.rank b.1.rank = true
  deriving DecidableEq

namespace Tally

def empty : Tally := ⟨[], .nil⟩

/-- Puts a count in its place, over the former count of the kind if there is one. -/
def place (kind : ChangeKind) (count : Nat) : List (ChangeKind × Nat) → List (ChangeKind × Nat)
  | [] => [(kind, count)]
  | first :: rest =>
    if Nat.blt kind.rank first.1.rank then (kind, count) :: first :: rest
    else if kind = first.1 then (kind, count) :: rest
    else first :: place kind count rest

theorem mem_place {kind : ChangeKind} {count : Nat} {entries : List (ChangeKind × Nat)}
    {entry : ChangeKind × Nat} (h : entry ∈ place kind count entries) :
    entry = (kind, count) ∨ entry ∈ entries := by
  induction entries with
  | nil => simpa [place] using h
  | cons first rest ih =>
    unfold place at h
    split at h
    · simpa using h
    · split at h
      · rcases List.mem_cons.mp h with h | h
        · exact Or.inl h
        · exact Or.inr (List.mem_cons_of_mem _ h)
      · rcases List.mem_cons.mp h with h | h
        · exact Or.inr (h ▸ List.mem_cons_self)
        · exact (ih h).imp_right (List.mem_cons_of_mem _)

private theorem pairwise_place (kind : ChangeKind) (count : Nat) (entries : List (ChangeKind × Nat))
    (h : entries.Pairwise fun a b => Nat.blt a.1.rank b.1.rank = true) :
    (place kind count entries).Pairwise fun a b => Nat.blt a.1.rank b.1.rank = true := by
  induction entries with
  | nil => simp [place]
  | cons first rest ih =>
    obtain ⟨hfirst, hrest⟩ := List.pairwise_cons.mp h
    unfold place
    split
    · next hlt =>
      refine List.pairwise_cons.mpr ⟨fun e he => ?_, h⟩
      rcases List.mem_cons.mp he with rfl | he
      · exact hlt
      · have := hfirst e he
        simp only [Nat.blt_eq] at this hlt ⊢
        omega
    · next hlt =>
      split
      · next heq =>
        subst heq
        exact List.pairwise_cons.mpr ⟨hfirst, hrest⟩
      · next hne =>
        refine List.pairwise_cons.mpr ⟨fun e he => ?_, ih hrest⟩
        rcases mem_place he with rfl | he
        · have hr : first.1.rank ≠ kind.rank := fun e => hne (ChangeKind.rank_inj e.symm)
          simp only [Nat.blt_eq] at hlt ⊢
          omega
        · exact hfirst e he

def set (tally : Tally) (kind : ChangeKind) (count : Nat) : Tally where
  entries := place kind count tally.entries
  sorted := pairwise_place kind count tally.entries tally.sorted

/-- The count of a kind, if it has one. -/
def count? (tally : Tally) (kind : ChangeKind) : Option Nat :=
  (tally.entries.find? fun entry => entry.1 == kind).map Prod.snd

def increment (tally : Tally) (kind : ChangeKind) : Tally :=
  tally.set kind ((tally.count? kind).getD 0 + 1)

end Tally

/-- How many changes there are: in all, destructive ones, and by kind. -/
structure Summary where
  total : Nat
  destructive : Nat
  byKind : Tally
  deriving DecidableEq

namespace Summary

def empty : Summary := ⟨0, 0, .empty⟩

def count (summary : Summary) (change : Change) : Summary where
  total := summary.total + 1
  destructive := if change.isDestructive then summary.destructive + 1 else summary.destructive
  byKind := summary.byKind.increment change.kind

def ofChanges (changes : List Change) : Summary := changes.foldl count empty

end Summary

structure Version where
  /-- Grows with breaking changes. -/
  major : Nat
  /-- Grows with additions that older readers may ignore. -/
  minor : Nat
  deriving DecidableEq, Repr

namespace Version

def current : Version := ⟨1, 0⟩

/-- The version as text, its two numbers parted by a point. -/
def text (version : Version) : String :=
  Nat.repr version.major ++ "." ++ Nat.repr version.minor

end Version

/-- A change set handed on to whoever acts on it. -/
structure Report where
  version : Version
  timestamp : String
  previousTable : String
  currentTable : String
  summary : Summary
  changelog : List String
  changes : List Change
  deriving DecidableEq

namespace Report

def ofChangeSet (timestamp previousTable currentTable : String) (set : ChangeSet) : Report where
  version := .current
  timestamp := timestamp
  previousTable := previousTable
  currentTable := currentTable
  summary := .ofChanges set.changes
  changelog := set.changelog
  changes := set.changes

/-- Whether the summary counts any change. -/
def hasChanged (report : Report) : Bool := report.summary.total != 0

/-- Whether the report is of the version that is written. -/
def isCurrentVersion (report : Report) : Bool := report.version == .current

end Report

def Diff.report (diff : Diff) (timestamp : String) : Report :=
  .ofChangeSet timestamp diff.previous.table diff.current.table diff.changes

end TableDelta
