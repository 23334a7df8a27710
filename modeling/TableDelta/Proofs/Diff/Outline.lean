import TableDelta.Proofs.Definition.Multiset
import TableDelta.Proofs.Diff.KeyChanges
import TableDelta.Proofs.Diff.Replay
/-!
# What a comparison looks at

Of its snapshots a comparison looks at the outlines, which are the names with the parsed
definitions, and at the names of the tables. Snapshots of one outline lead to the same
changes, and what the table names lead to stands in front of all of them.
-/
namespace TableDelta

open ChangeSet Snapshot

namespace Grammar

/-- What a column contributes to the outline of its snapshot. -/
def entry (grammar : Grammar) (column : Column) : String × Definition :=
  (column.name, grammar.parse column.definition)

variable {grammar : Grammar} {previous previous' current current' snapshot snapshot' : Snapshot}

private theorem outline_eq_map (grammar : Grammar) (snapshot : Snapshot) :
    grammar.outline snapshot = snapshot.columns.map grammar.entry := rfl

private theorem names_eq_map_outline (grammar : Grammar) (snapshot : Snapshot) :
    snapshot.names = (grammar.outline snapshot).map Prod.fst := by
  rw [outline_eq_map, List.map_map]
  rfl

private theorem names_congr (h : grammar.outline snapshot = grammar.outline snapshot') :
    snapshot.names = snapshot'.names := by
  rw [grammar.names_eq_map_outline, grammar.names_eq_map_outline, h]

private theorem size_congr (h : grammar.outline snapshot = grammar.outline snapshot') :
    snapshot.size = snapshot'.size := by
  have hlength := congrArg List.length h
  simp only [outline, List.length_map] at hlength
  exact hlength

private theorem map_entry_column? (grammar : Grammar) (snapshot : Snapshot) (name : String) :
    (snapshot.column? name).map grammar.entry =
      (grammar.outline snapshot).find? fun entry => entry.1 == name := by
  rw [outline_eq_map, List.find?_map]
  rfl

private theorem map_entry_column?_congr (h : grammar.outline snapshot = grammar.outline snapshot')
    (name : String) :
    (snapshot.column? name).map grammar.entry = (snapshot'.column? name).map grammar.entry := by
  rw [map_entry_column?, map_entry_column?, h]

/-! ## Names -/

private theorem missingNames_congr (hs : grammar.outline snapshot = grammar.outline snapshot')
    (hp : grammar.outline previous = grammar.outline previous') :
    missingNames snapshot previous = missingNames snapshot' previous' := by
  rw [missingNames, missingNames, names_congr hs, names_congr hp]

private theorem declares_eq (grammar : Grammar) (snapshot : Snapshot) (property : Definition → Bool)
    (name : String) :
    grammar.declares snapshot property name =
      ((snapshot.column? name).map grammar.entry).any fun entry => property entry.2 := by
  rw [declares, Snapshot.definition?]
  show ((snapshot.column? name).map Column.definition).any _ = _
  cases snapshot.column? name <;> rfl

private theorem declares_congr (h : grammar.outline snapshot = grammar.outline snapshot')
    (property : Definition → Bool) :
    grammar.declares snapshot property = grammar.declares snapshot' property := by
  funext name
  rw [declares_eq, declares_eq, map_entry_column?_congr h]

private theorem dropChanges_congr (hp : grammar.outline previous = grammar.outline previous')
    (hc : grammar.outline current = grammar.outline current') :
    grammar.dropChanges previous current = grammar.dropChanges previous' current' := by
  rw [dropChanges_eq_listing, dropChanges_eq_listing, missingNames_congr hp hc, declares_congr hp]

private theorem addChanges_congr (hp : grammar.outline previous = grammar.outline previous')
    (hc : grammar.outline current = grammar.outline current') :
    grammar.addChanges previous current = grammar.addChanges previous' current' := by
  rw [addChanges_eq_listing, addChanges_eq_listing, missingNames_congr hc hp, declares_congr hc]

/-! ## Columns -/

private theorem columnChanges_congr {p p' c c' : Column} (index : Nat)
    (hp : grammar.entry p = grammar.entry p') (hc : grammar.entry c = grammar.entry c') :
    grammar.columnChanges index p c = grammar.columnChanges index p' c' := by
  obtain ⟨hpname, hpparse⟩ := Prod.mk.inj hp
  obtain ⟨hcname, hcparse⟩ := Prod.mk.inj hc
  simp only [columnChanges, hpname, hpparse, hcname, hcparse]

private theorem pairChanges_congr (h : grammar.outline current = grammar.outline current')
    {p p' c c' : Column} (hp : grammar.entry p = grammar.entry p')
    (hc : grammar.entry c = grammar.entry c') :
    grammar.pairChanges current (p, c) = grammar.pairChanges current' (p', c') := by
  have hname : c.name = c'.name := (Prod.mk.inj hc).1
  rw [pairChanges, pairChanges, names_congr h, hname]
  exact columnChanges_congr _ hp hc

private theorem sharedChanges_congr (h : grammar.outline current = grammar.outline current')
    {p p' : Column} (hp : grammar.entry p = grammar.entry p') :
    grammar.sharedChanges current p = grammar.sharedChanges current' p' := by
  have hname : p.name = p'.name := (Prod.mk.inj hp).1
  have hfound := map_entry_column?_congr h p.name
  cases hcolumn : current.column? p.name with
  | none =>
    rw [hcolumn, Option.map_none, eq_comm, Option.map_eq_none_iff, hname] at hfound
    rw [sharedChanges_of_column?_eq_none hcolumn, sharedChanges_of_column?_eq_none hfound]
  | some c =>
    rw [hcolumn, Option.map_some, eq_comm, Option.map_eq_some_iff, hname] at hfound
    obtain ⟨c', hcolumn', hc⟩ := hfound
    rw [sharedChanges_of_column? hcolumn, sharedChanges_of_column? hcolumn']
    exact pairChanges_congr h hp hc.symm

private theorem map_entries_pairs (grammar : Grammar) (previous current : Snapshot) :
    (pairs previous current).map (Prod.map grammar.entry grammar.entry) =
      (grammar.outline previous).zip (grammar.outline current) := by
  rw [pairs, outline_eq_map, outline_eq_map, List.zip_map]

private theorem changesByPosition_congr (hp : grammar.outline previous = grammar.outline previous')
    (hc : grammar.outline current = grammar.outline current') :
    grammar.changesByPosition previous current = grammar.changesByPosition previous' current' := by
  have hpairs : (pairs previous current).map (Prod.map grammar.entry grammar.entry) =
      (pairs previous' current').map (Prod.map grammar.entry grammar.entry) := by
    rw [map_entries_pairs, map_entries_pairs, hp, hc]
  have hrenames : ((pairs previous current).flatMap fun pair => renameChanges pair.1 pair.2) =
      (pairs previous' current').flatMap fun pair => renameChanges pair.1 pair.2 := by
    apply Keyed.flatMap_eq_of_map_eq _ hpairs
    rintro ⟨p, c⟩ ⟨p', c'⟩ hentries
    obtain ⟨hpentry, hcentry⟩ := Prod.mk.inj hentries
    have hpname : p.name = p'.name := (Prod.mk.inj hpentry).1
    have hcname : c.name = c'.name := (Prod.mk.inj hcentry).1
    simp only [renameChanges, hpname, hcname]
  have hcolumns : (pairs previous current).flatMap (grammar.pairChanges current) =
      (pairs previous' current').flatMap (grammar.pairChanges current') := by
    apply Keyed.flatMap_eq_of_map_eq _ hpairs
    rintro ⟨p, c⟩ ⟨p', c'⟩ hentries
    obtain ⟨hpentry, hcentry⟩ := Prod.mk.inj hentries
    exact pairChanges_congr hc hpentry hcentry
  rw [← flatMap_zipIdx_pairs, ← flatMap_zipIdx_pairs] at hcolumns
  exact congrArg₂ List.append hrenames hcolumns

private theorem changesByName_congr (hp : grammar.outline previous = grammar.outline previous')
    (hc : grammar.outline current = grammar.outline current') :
    grammar.changesByName previous current = grammar.changesByName previous' current' := by
  have hshared : previous.columns.flatMap (grammar.sharedChanges current) =
      previous'.columns.flatMap (grammar.sharedChanges current') :=
    Keyed.flatMap_eq_of_map_eq (fun p p' => sharedChanges_congr hc) hp
  rw [changesByName, changesByName, hshared, size_congr hp, size_congr hc, dropChanges_congr hp hc,
    addChanges_congr hp hc]

/-! ## Behind the table -/

/-- All changes but that of the table name. -/
def columnReports (grammar : Grammar) (previous current : Snapshot) : List Change :=
  grammar.nameChanges previous current ++
    (comparedPairs previous current).flatMap (grammar.pairChanges current)

theorem changes_eq_columnReports (grammar : Grammar) (previous current : Snapshot) :
    grammar.changes previous current =
      tableChanges previous current ++ grammar.columnReports previous current :=
  grammar.changes_eq_append previous current

private theorem columnReports_eq (grammar : Grammar) (previous current : Snapshot) :
    grammar.columnReports previous current =
      if previous.size = current.size then grammar.changesByPosition previous current
      else grammar.changesByName previous current := by
  have hchanges := grammar.changes_eq_columnReports previous current
  rw [changes] at hchanges
  exact (List.append_cancel_left hchanges).symm

theorem columnReports_congr (hp : grammar.outline previous = grammar.outline previous')
    (hc : grammar.outline current = grammar.outline current') :
    grammar.columnReports previous current = grammar.columnReports previous' current' := by
  rw [columnReports_eq, columnReports_eq, size_congr hp, size_congr hc,
    changesByPosition_congr hp hc, changesByName_congr hp hc]

private theorem kind_ne_of_mem_columnReports {change : Change}
    (h : change ∈ grammar.columnReports previous current) : change.kind ≠ .tableRenamed := by
  intro hk
  rcases List.mem_append.mp h with h | h
  · have hname := kind_of_mem_nameChanges h
    rw [hk] at hname
    exact absurd hname (by decide)
  · obtain ⟨pair, -, hm⟩ := List.mem_flatMap.mp h
    have hcolumn := kind_of_mem_pairChanges hm
    rw [hk] at hcolumn
    exact absurd hcolumn (by decide)

end Grammar

/-- Snapshots with the same names and parses, whatever their tables are called and however
their definitions are written, have the same changes but for the rename of the table. That
rename stands in front of the others, exactly if the two names of the table differ. -/
theorem Diff.compare_of_outline_eq (grammar : Grammar)
    {previous previous' current current' : Snapshot}
    (hp : grammar.outline previous = grammar.outline previous')
    (hc : grammar.outline current = grammar.outline current') :
    ∃ reports : List Change, (∀ change ∈ reports, change.kind ≠ .tableRenamed) ∧
      (compare grammar previous current).changes.changes =
        (if previous.table = current.table then []
          else [.tableRenamed ⟨previous.table, current.table⟩]) ++ reports ∧
      (compare grammar previous' current').changes.changes =
        (if previous'.table = current'.table then []
          else [.tableRenamed ⟨previous'.table, current'.table⟩]) ++ reports := by
  refine ⟨grammar.columnReports previous current,
    fun change hm => Grammar.kind_ne_of_mem_columnReports hm, ?_, ?_⟩
  · rw [changes_compare, grammar.changes_eq_columnReports]
    rfl
  · rw [changes_compare, grammar.changes_eq_columnReports, Grammar.columnReports_congr hp hc]
    rfl

/-- A foreign key and a key are written in two ways, for a table that is renamed on the one
side and keeps its name on the other. -/
theorem Diff.compare_of_outline_eq_rewritten :
    let previous := Snapshot.ofColumns "post" [⟨"user", "foreignId:on:users"⟩, ⟨"note", "morphs"⟩]
    let previous' := Snapshot.ofColumns "t" [⟨"user", " on:users|foreignId"⟩, ⟨"note", "morphs|"⟩]
    let current := Snapshot.ofColumns "posts" [⟨"user", "foreignId|unique"⟩]
    let current' := Snapshot.ofColumns "t" [⟨"user", "unique | foreignId"⟩]
    Grammar.pipe.outline previous = Grammar.pipe.outline previous' ∧
    Grammar.pipe.outline current = Grammar.pipe.outline current' ∧
    (compare .pipe previous current).changes.changes =
      .tableRenamed ⟨"post", "posts"⟩ :: (compare .pipe previous' current').changes.changes := by
  intro previous previous' current current'
  have hkey : Grammar.pipe.parse "foreignId:on:users" = Grammar.pipe.parse " on:users|foreignId" :=
    (Definition.ofTokens_eq_ofTokens_iff _ _).mpr (by decide)
  have hmorphs : Grammar.pipe.parse "morphs" = Grammar.pipe.parse "morphs|" :=
    (Definition.ofTokens_eq_ofTokens_iff _ _).mpr (by decide)
  have hunique : Grammar.pipe.parse "foreignId|unique" = Grammar.pipe.parse "unique | foreignId" :=
    (Definition.ofTokens_eq_ofTokens_iff _ _).mpr (by decide)
  have hp : Grammar.pipe.outline previous = Grammar.pipe.outline previous' :=
    congrArg₂ (fun user note => [("user", user), ("note", note)]) hkey hmorphs
  have hc : Grammar.pipe.outline current = Grammar.pipe.outline current' :=
    congrArg (fun user => [("user", user)]) hunique
  obtain ⟨reports, -, hforth, hother⟩ := compare_of_outline_eq .pipe hp hc
  refine ⟨hp, hc, ?_⟩
  rw [hforth, hother]
  rfl

end TableDelta
