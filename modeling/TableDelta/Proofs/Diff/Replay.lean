import TableDelta.Proofs.Diff.NameChanges
import TableDelta.Proofs.List.Keyed
/-!
# Replay of a comparison by position

When two snapshots have equally many columns, the reported changes lead from the names
and parses of one to those of the other. Renames carry names instead of places; that
they still say what becomes of which column, also when names are swapped or move in a
circle, rests on the names of a snapshot being distinct.
-/
namespace TableDelta

open ChangeSet

/-- What becomes of a name under some renames, all applied at once. -/
def Rename.apply (renames : List Rename) (name : String) : String :=
  match renames.find? fun rename => rename.previous == name with
  | some rename => rename.current
  | none => name

/-- What becomes of the definition at a place under some redefinitions. -/
def Redefinition.apply (redefinitions : List Redefinition) (index : Nat)
    (definition : Definition) : Definition :=
  match redefinitions.find? fun redefinition => redefinition.index == index with
  | some redefinition => redefinition.current
  | none => definition

/-- The names of the columns with their parses, in declaration order. -/
def Grammar.outline (grammar : Grammar) (snapshot : Snapshot) : List (String × Definition) :=
  snapshot.columns.map fun column => (column.name, grammar.parse column.definition)

/-- Applies the column renames and the redefinitions of a change set to an outline. -/
def ChangeSet.replay (set : ChangeSet) (outline : List (String × Definition)) :
    List (String × Definition) :=
  outline.mapIdx fun index entry =>
    (Rename.apply set.columnRenames entry.1, Redefinition.apply set.redefinitions index entry.2)

namespace Grammar

/-- The renames of the columns whose names differ at their place. -/
def positionRenames (previous current : Snapshot) : List Rename :=
  ((pairs previous current).filter fun pair => !decide (pair.1.name = pair.2.name)).map
    fun pair => ⟨pair.1.name, pair.2.name⟩

/-- The redefinitions of the columns whose parses differ at their place. -/
def positionRedefinitions (grammar : Grammar) (previous current : Snapshot) :
    List Redefinition :=
  ((pairs previous current).zipIdx.filter fun place =>
    !decide (grammar.parse place.1.1.definition = grammar.parse place.1.2.definition)).map
    fun place => grammar.redefinition place.2 place.1.1 place.1.2

private theorem nodup_pairs {previous current : Snapshot} (h : previous.size = current.size) :
    ((pairs previous current).map fun pair => pair.1.name).Nodup := by
  have hfst : (pairs previous current).map Prod.fst = previous.columns :=
    List.map_fst_zip (Nat.le_of_eq h)
  have hnames : ((pairs previous current).map fun pair => pair.1.name) = previous.names := by
    rw [Snapshot.names, ← hfst, List.map_map]
    rfl
  rw [hnames]
  exact previous.distinct

private theorem nodup_places (previous current : Snapshot) :
    ((pairs previous current).zipIdx.map Prod.snd).Nodup := by
  rw [List.zipIdx_map_snd]
  exact List.nodup_range' 1

theorem columnRenames_changes (grammar : Grammar) {previous current : Snapshot}
    (h : previous.size = current.size) :
    gather Change.renames .columnRenamed (grammar.changes previous current) =
      positionRenames previous current := by
  rw [gather_changes_of_not_mem (by decide) (by decide), nameChanges, if_pos h, gather_flatMap,
    positionRenames, ← flatMap_unless]
  simp only [gather_renameChanges]

private theorem redefinitions_changes (grammar : Grammar) {previous current : Snapshot}
    (h : previous.size = current.size) :
    gather Change.redefinitions .definitionChanged (grammar.changes previous current) =
      grammar.positionRedefinitions previous current := by
  have hpairs : Snapshot.comparedPairs previous current = pairs previous current := if_pos h
  rw [gather_changes_of_not_mem_nameKinds (by decide) (by decide), hpairs, ← gather_flatMap,
    ← flatMap_zipIdx_pairs, gather_flatMap, positionRedefinitions, ← flatMap_unless]
  simp only [gather_columnChanges]

private theorem apply_positionRenames {previous current : Snapshot}
    (h : previous.size = current.size) {p c : Column} (hm : (p, c) ∈ pairs previous current) :
    Rename.apply (positionRenames previous current) p.name = c.name := by
  have hfind := Keyed.find?_key_filter (nodup_pairs h) hm
    fun pair => !decide (pair.1.name = pair.2.name)
  simp only [Rename.apply, positionRenames, List.find?_map, Function.comp_def, hfind]
  by_cases he : p.name = c.name
  · simp [he]
  · simp [he]

private theorem apply_positionRedefinitions (grammar : Grammar) {previous current : Snapshot}
    {p c : Column} {i : Nat} (hm : ((p, c), i) ∈ (pairs previous current).zipIdx) :
    Redefinition.apply (grammar.positionRedefinitions previous current) i
      (grammar.parse p.definition) = grammar.parse c.definition := by
  have hfind := Keyed.find?_key_filter (nodup_places previous current) hm fun place =>
    !decide (grammar.parse place.1.1.definition = grammar.parse place.1.2.definition)
  simp only [Redefinition.apply, positionRedefinitions, redefinition, List.find?_map,
    Function.comp_def, hfind]
  by_cases he : grammar.parse p.definition = grammar.parse c.definition
  · simp [he]
  · simp [he]

private theorem apply_tableRenames (previous current : Snapshot) :
    Rename.apply (if previous.table = current.table then []
      else [⟨previous.table, current.table⟩]) previous.table = current.table := by
  by_cases he : previous.table = current.table
  · simp [Rename.apply, he]
  · simp [Rename.apply, he]

private theorem columns_getElem? {previous current : Snapshot} (h : previous.size = current.size)
    {i : Nat} {p : Column} (hp : previous.columns[i]? = some p) :
    ∃ c, current.columns[i]? = some c := by
  obtain ⟨hi, -⟩ := List.getElem?_eq_some_iff.mp hp
  have hi' : i < current.columns.length := by
    rw [← show previous.columns.length = current.columns.length from h]
    exact hi
  exact ⟨_, List.getElem?_eq_getElem hi'⟩

private theorem outline_eq_mapIdx (grammar : Grammar) {previous current : Snapshot}
    (h : previous.size = current.size) :
    ((grammar.outline previous).mapIdx fun index entry =>
      (Rename.apply (positionRenames previous current) entry.1,
        Redefinition.apply (grammar.positionRedefinitions previous current) index entry.2)) =
      grammar.outline current := by
  apply List.ext_getElem?
  intro i
  simp only [outline, List.getElem?_mapIdx, List.getElem?_map]
  cases hp : previous.columns[i]? with
  | none =>
    have hi : current.columns.length ≤ i := by
      rw [← show previous.columns.length = current.columns.length from h]
      exact List.getElem?_eq_none_iff.mp hp
    rw [List.getElem?_eq_none hi]
    rfl
  | some p =>
    obtain ⟨c, hc⟩ := columns_getElem? h hp
    have hplace := mem_zipIdx_pairs.mpr ⟨hp, hc⟩
    have hname := apply_positionRenames h (List.fst_mem_of_mem_zipIdx hplace)
    have hparse := apply_positionRedefinitions grammar hplace
    simp only [hc, Option.map_some, hname, hparse]

theorem nodup_positionRenames {previous current : Snapshot} (h : previous.size = current.size) :
    ((positionRenames previous current).map Rename.previous).Nodup := by
  rw [positionRenames, List.map_map]
  exact (List.filter_sublist.map _).nodup (nodup_pairs h)

private theorem nodup_positionRedefinitions (grammar : Grammar) (previous current : Snapshot) :
    ((grammar.positionRedefinitions previous current).map Redefinition.index).Nodup := by
  rw [positionRedefinitions, List.map_map]
  exact (List.filter_sublist.map _).nodup (nodup_places previous current)

private theorem existsUnique_place {previous current : Snapshot} {rename : Rename}
    (hm : rename ∈ positionRenames previous current) :
    ∃ i : Nat, previous.names[i]? = some rename.previous ∧
      ∀ j : Nat, previous.names[j]? = some rename.previous → j = i := by
  obtain ⟨pair, hpair, rfl⟩ := List.mem_map.mp hm
  obtain ⟨i, hi⟩ := List.mem_iff_getElem?.mp (List.mem_filter.mp hpair).1
  obtain ⟨hp, -⟩ := List.getElem?_zip_eq_some.mp hi
  have hname : previous.names[i]? = some pair.1.name := by
    rw [Snapshot.names, List.getElem?_map, hp]
    rfl
  refine ⟨i, hname, ?_⟩
  intro j hj
  obtain ⟨hlt, -⟩ := List.getElem?_eq_some_iff.mp hj
  exact (List.getElem?_inj hlt previous.distinct).mp (hj.trans hname.symm)

end Grammar

/-- A comparison of snapshots of one size can be replayed from its changes alone: they turn
the previous outline into the current one and the previous table name into the current one.
Every rename selects the column at one place, and no two renames or redefinitions compete. -/
theorem Diff.replay_compare (grammar : Grammar) (previous current : Snapshot)
    (h : previous.size = current.size) :
    let set := (compare grammar previous current).changes
    set.replay (grammar.outline previous) = grammar.outline current ∧
    Rename.apply set.tableRenames previous.table = current.table ∧
    (∀ rename ∈ set.columnRenames, ∃ i : Nat, previous.names[i]? = some rename.previous ∧
      ∀ j : Nat, previous.names[j]? = some rename.previous → j = i) ∧
    (set.columnRenames.map Rename.previous).Nodup ∧
    (set.redefinitions.map Redefinition.index).Nodup := by
  simp only [compare, ofChanges_eq_gathered, gathered, replay]
  rw [grammar.columnRenames_changes h, grammar.redefinitions_changes h,
    grammar.gather_tableRenamed]
  exact ⟨grammar.outline_eq_mapIdx h, Grammar.apply_tableRenames previous current,
    fun rename hm => Grammar.existsUnique_place hm, Grammar.nodup_positionRenames h,
    grammar.nodup_positionRedefinitions previous current⟩

/-- Two columns that trade names and definitions, under a new table name. -/
theorem Diff.replay_compare_swapped :
    let previous := Snapshot.ofColumns "user" [⟨"a", "string"⟩, ⟨"b", "foreignId|on:teams"⟩]
    let current := Snapshot.ofColumns "users" [⟨"b", "foreignId|on:teams"⟩, ⟨"a", "string"⟩]
    previous.size = current.size ∧
    (compare .pipe previous current).changes.replay (Grammar.pipe.outline previous) =
      [("b", Grammar.pipe.parse "foreignId|on:teams"), ("a", Grammar.pipe.parse "string")] ∧
    Rename.apply (compare .pipe previous current).changes.tableRenames "user" = "users" := by
  intro previous current
  have hsize : previous.size = current.size := by decide
  obtain ⟨houtline, htable, -⟩ := replay_compare .pipe previous current hsize
  exact ⟨hsize, houtline, htable⟩

end TableDelta
