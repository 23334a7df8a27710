import TableDelta.Proofs.Diff.Growth
/-!
# What is reported of a growing snapshot

Declaring columns for a snapshot appends those of new names and redefines the others where
they stand. A comparison with the result says just that, whichever way it compares: the new
names in the order of their first declarations, and the known columns whose last declaration
has another parse, at their old places. What grew out of nothing is reported as added.
-/
namespace TableDelta

open ChangeSet Snapshot

/-- The column as it is after others were declared, by the last of them that has its name. -/
def Column.redeclared (columns : List Column) (column : Column) : Column :=
  ⟨column.name, (latest column.name columns).getD column.definition⟩

namespace Snapshot

/-- The names that declared columns bring to a snapshot, in the order in which they come up. -/
def newNames (snapshot : Snapshot) (columns : List Column) : List String :=
  ((columns.map Column.name).filter fun name => name ∉ snapshot.names).eraseDups

variable (snapshot : Snapshot) (columns : List Column)

theorem reflects_declareAll :
    (snapshot.declareAll columns).Reflects (snapshot.columns ++ columns) :=
  snapshot.reflects_columns.foldl_declare columns

theorem names_declareAll :
    (snapshot.declareAll columns).names = snapshot.names ++ snapshot.newNames columns := by
  have hdeclared := (snapshot.reflects_declareAll columns).names
  rw [List.map_append, Keyed.eraseDups_append, ← Keyed.eraseDups_filter] at hdeclared
  rw [hdeclared]
  exact congrArg (· ++ _) snapshot.eraseDups_names

private theorem not_mem_of_mem_newNames {name : String} (h : name ∈ snapshot.newNames columns) :
    name ∉ snapshot.names := by
  rw [newNames, List.mem_eraseDups] at h
  exact of_decide_eq_true (List.mem_filter.mp h).2

private theorem missingNames_declareAll :
    Grammar.missingNames (snapshot.declareAll columns) snapshot = snapshot.newNames columns := by
  have hold : (snapshot.names.filter fun name => name ∉ snapshot.names) = [] := by simp
  have hnew : ((snapshot.newNames columns).filter fun name => name ∉ snapshot.names) =
      snapshot.newNames columns := by
    rw [List.filter_eq_self]
    intro name hm
    exact decide_eq_true (snapshot.not_mem_of_mem_newNames columns hm)
  rw [Grammar.missingNames_eq_filter, names_declareAll, List.filter_append, hold, hnew,
    List.nil_append]

private theorem size_lt_declareAll_iff :
    snapshot.size < (snapshot.declareAll columns).size ↔ snapshot.newNames columns ≠ [] := by
  have hlength := congrArg List.length (snapshot.names_declareAll columns)
  rw [List.length_append, length_names, length_names] at hlength
  rw [hlength, ← List.length_pos_iff]
  omega

private theorem definition?_declareAll (name : String) :
    (snapshot.declareAll columns).definition? name =
      (Column.latest name columns).or (snapshot.definition? name) := by
  rw [(snapshot.reflects_declareAll columns).definitions, Column.latest_append, latest_columns]

variable {snapshot} {column : Column}

private theorem column?_declareAll (h : column ∈ snapshot.columns) :
    (snapshot.declareAll columns).column? column.name = some (column.redeclared columns) := by
  apply column?_of_definition?
  rw [definition?_declareAll, definition?_of_column? (column?_name h)]
  cases Column.latest column.name columns <;> rfl

private theorem comparedPairs_declareAll :
    comparedPairs snapshot (snapshot.declareAll columns) =
      snapshot.columns.map fun column => (column, column.redeclared columns) := by
  rw [comparedPairs_of_isPrefix (growsInto_declareAll snapshot columns),
    List.filterMap_eq_map_iff_forall_eq_some]
  intro column hcolumn
  rw [column?_declareAll columns hcolumn, Option.map_some]

private theorem idxOf_names_declareAll {i : Nat} (h : snapshot.columns[i]? = some column) :
    (snapshot.declareAll columns).names.idxOf column.name = i := by
  rw [names_declareAll, List.idxOf_append_of_mem (name_mem_names (List.mem_of_getElem? h)),
    idxOf_name h]

end Snapshot

namespace Grammar

/-- The redefinition of the column at some place by what was declared last for its name. -/
def redeclaration? (grammar : Grammar) (columns : List Column) (place : Column × Nat) :
    Option Redefinition :=
  (Column.latest place.1.name columns).bind fun definition =>
    if grammar.parse place.1.definition = grammar.parse definition then none
    else some
      { index := place.2
        previousColumn := place.1.name
        column := place.1.name
        previous := grammar.parse place.1.definition
        current := grammar.parse definition }

/-- The redefinitions of a snapshot's columns by columns that are declared for it. -/
def redeclarations (grammar : Grammar) (snapshot : Snapshot) (columns : List Column) :
    List Redefinition :=
  snapshot.columns.zipIdx.filterMap (grammar.redeclaration? columns)

/-- The changes from nothing to a snapshot: all its columns are added, and then the foreign
keys among them. -/
def openingChanges (grammar : Grammar) (first : Snapshot) : List Change :=
  if first.columns = [] then []
  else .columnsAdded first.names ::
    (first.columns.filter fun column => .on ∈ (grammar.parse column.definition).tokens).map
      fun column => .foreignKeyAdded column.name

variable (grammar : Grammar) (snapshot : Snapshot) (columns : List Column)

private theorem redeclaration?_eq {column : Column} {i : Nat}
    (h : snapshot.columns[i]? = some column) : grammar.redeclaration? columns (column, i) =
      if grammar.parse column.definition = grammar.parse (column.redeclared columns).definition
      then none
      else some (grammar.pairRedefinition (snapshot.declareAll columns)
        (column, column.redeclared columns)) := by
  have hplace : (snapshot.declareAll columns).names.idxOf (column.redeclared columns).name = i := by
    show (snapshot.declareAll columns).names.idxOf column.name = i
    exact idxOf_names_declareAll columns h
  rw [pairRedefinition, hplace, redeclaration?, Column.redeclared]
  cases Column.latest column.name columns with
  | none => exact (if_pos rfl).symm
  | some definition => rfl

private theorem gather_redefinitions_declareAll :
    gather Change.redefinitions .definitionChanged
        (grammar.changes snapshot (snapshot.declareAll columns)) =
      grammar.redeclarations snapshot columns := by
  have hcolumns : ∀ f : Column → Option Redefinition,
      snapshot.columns.filterMap f = snapshot.columns.zipIdx.filterMap fun place => f place.1 := by
    intro f
    show _ = snapshot.columns.zipIdx.filterMap (f ∘ Prod.fst)
    rw [← List.filterMap_map, List.zipIdx_map_fst]
  rw [gather_redefinitions, differingPairs, comparedPairs_declareAll, List.filter_map,
    List.map_map, ← List.filterMap_eq_map, List.filterMap_filter, hcolumns]
  apply List.filterMap_congr
  rintro ⟨column, i⟩ hm
  rw [grammar.redeclaration?_eq snapshot columns (List.mem_zipIdx_iff_getElem?.mp hm)]
  by_cases he : grammar.parse column.definition =
    grammar.parse (column.redeclared columns).definition
  · simp [he]
  · simp [he]

private theorem filter_columnsAdded_declareAll :
    (grammar.changes snapshot (snapshot.declareAll columns)).filter
        (fun change => change.kind == .columnsAdded) =
      if snapshot.newNames columns = [] then []
      else [.columnsAdded (snapshot.newNames columns)] := by
  rw [filter_columnsAdded, missingNames_declareAll]
  simp only [size_lt_declareAll_iff, ite_not]

private theorem gather_columnsAdded_declareAll :
    gather Change.columns .columnsAdded
        (grammar.changes snapshot (snapshot.declareAll columns)) =
      snapshot.newNames columns := by
  rw [gather, filter_columnsAdded_declareAll]
  split
  · next h => rw [h, List.flatMap_nil]
  · exact List.append_nil _

private theorem filter_kind_declareAll {kind : ChangeKind}
    (hk : kind ∈ [ChangeKind.tableRenamed, .columnRenamed, .columnsDropped, .morphDropped]) :
    (grammar.changes snapshot (snapshot.declareAll columns)).filter
      (fun change => change.kind == kind) = [] := by
  rw [← gather_self]
  rcases List.mem_cons.mp hk with rfl | hk
  · have htable := (tableChanges_eq_nil_iff snapshot (snapshot.declareAll columns)).mpr
      (table_foldl_declare snapshot columns).symm
    rw [gather_changes, htable, gather_nameChanges_of_not_mem (by decide),
      gather_pairChanges_of_not_mem (by decide)]
    rfl
  · exact grammar.gather_of_growsInto (growsInto_declareAll snapshot columns) hk

theorem changes_empty (first : Snapshot) :
    grammar.changes (.empty first.table) first = grammar.openingChanges first := by
  have hgrows : (Snapshot.empty first.table).GrowsInto first := List.nil_prefix
  have htable := (tableChanges_eq_nil_iff (.empty first.table) first).mpr rfl
  have hpairs : comparedPairs (.empty first.table) first = [] := comparedPairs_of_isPrefix hgrows
  have hall : (first.columns.filter fun column =>
      column.name ∉ (Snapshot.empty first.table).names) = first.columns :=
    List.filter_eq_self.mpr fun column _ => decide_eq_true List.not_mem_nil
  have hmissing : missingNames first (.empty first.table) = first.names := by
    rw [missingNames_eq_map, hall]
    rfl
  have hkeys := grammar.filter_declares first (.empty first.table) Definition.hasForeignKey
  rw [hall, hmissing] at hkeys
  rw [changes_eq_append, htable, hpairs, grammar.nameChanges_of_growsInto hgrows, openingChanges,
    List.nil_append, List.flatMap_nil, List.append_nil]
  have hsize : (Snapshot.empty first.table).size < first.size ↔ first.columns ≠ [] :=
    List.length_pos_iff
  by_cases hnone : first.columns = []
  · rw [if_neg (fun hlt => hsize.mp hlt hnone), if_pos hnone]
  · have hnames : first.names ≠ [] := fun he => hnone (List.map_eq_nil_iff.mp he)
    rw [if_pos (hsize.mpr hnone), if_neg hnone, addChanges_eq_listing, hmissing,
      listing_of_ne_nil _ _ _ hnames, hkeys, List.map_map]
    simp only [Definition.hasForeignKey_eq_decide]
    rfl

end Grammar

/-- A comparison of a snapshot with what it grew into neither renames nor drops anything. It
adds exactly the new names, by one change if there are any, behind the known ones; and it
redefines exactly the known columns whose last declaration has another parse, at the places
where they were. What grew out of nothing is added, and then the foreign keys in it. -/
theorem Diff.growth_compare (grammar : Grammar) (previous : Snapshot) (columns : List Column) :
    let current := previous.declareAll columns
    let set := (compare grammar previous current).changes
    (∀ kind ∈ [ChangeKind.tableRenamed, .columnRenamed, .columnsDropped, .morphDropped],
      set.count kind = 0) ∧
    current.names = previous.names ++ previous.newNames columns ∧
    set.columnAdds = previous.newNames columns ∧
    set.changes.filter (fun change => change.kind == .columnsAdded) =
      (if previous.newNames columns = [] then []
        else [.columnsAdded (previous.newNames columns)]) ∧
    set.redefinitions = grammar.redeclarations previous columns ∧
    ∀ table,
      let first := (Snapshot.empty table).declareAll columns
      initial first = compare .pipe (.empty table) first ∧
      (compare grammar (.empty table) first).changes.changes = grammar.openingChanges first := by
  intro current set
  have hchanges : set.changes = grammar.changes previous current :=
    changes_compare grammar previous current
  have hset : set = gathered (grammar.changes previous current) := ofChanges_eq_gathered _
  refine ⟨?_, previous.names_declareAll columns, ?_, ?_, ?_, ?_⟩
  · intro kind hk
    rw [ChangeSet.count, hchanges, List.countP_eq_length_filter,
      grammar.filter_kind_declareAll previous columns hk, List.length_nil]
  · rw [hset]
    exact grammar.gather_columnsAdded_declareAll previous columns
  · rw [hchanges]
    exact grammar.filter_columnsAdded_declareAll previous columns
  · rw [hset]
    exact grammar.gather_redefinitions_declareAll previous columns
  · intro table first
    have htable : first.table = table := table_foldl_declare (.empty table) columns
    have hfirst := grammar.changes_empty first
    rw [htable] at hfirst
    refine ⟨?_, ?_⟩
    · rw [initial, htable]
    · rw [changes_compare, hfirst]

end TableDelta
