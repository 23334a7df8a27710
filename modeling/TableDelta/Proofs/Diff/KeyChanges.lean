import TableDelta.Proofs.Diff.NameChanges
import TableDelta.Proofs.Diff.Redefined
/-!
# Keys and relationships

A key is reported as dropped when the token for it was among the tokens of a compared
column and no longer is, and a foreign key as added the other way round. Foreign keys also
come with added columns, and polymorphic relationships go with dropped ones. What is
reported about the keys of a compared column follows its redefinition at once.
-/
namespace TableDelta

open ChangeSet Snapshot

/-- The token whose loss a kind of change reports. -/
def ChangeKind.lostToken? : ChangeKind → Option Token
  | foreignKeyDropped => some .on
  | primaryKeyDropped => some .primary
  | uniqueKeyDropped => some .unique
  | indexKeyDropped => some .index
  | _ => none

/-- The changes to the keys of a column whose definition changed: at most one for each key,
in a fixed order, and exactly those that its tokens before and after call for. -/
structure IsKeyBlock (before after : Definition) (column : String) (block : List Change) :
    Prop where
  ordered : block.Sublist [.foreignKeyDropped column, .primaryKeyDropped column,
    .uniqueKeyDropped column, .indexKeyDropped column, .foreignKeyAdded column]
  foreignDropped : .foreignKeyDropped column ∈ block ↔ .on ∈ before.tokens ∧ .on ∉ after.tokens
  primaryDropped : .primaryKeyDropped column ∈ block ↔
    .primary ∈ before.tokens ∧ .primary ∉ after.tokens
  uniqueDropped : .uniqueKeyDropped column ∈ block ↔
    .unique ∈ before.tokens ∧ .unique ∉ after.tokens
  indexDropped : .indexKeyDropped column ∈ block ↔ .index ∈ before.tokens ∧ .index ∉ after.tokens
  foreignAdded : .foreignKeyAdded column ∈ block ↔ .on ∈ after.tokens ∧ .on ∉ before.tokens

namespace Redefinition

theorem lost_iff (before after : Definition) (token : Token) :
    lost before after token = true ↔ token ∈ before.tokens ∧ token ∉ after.tokens := by
  simp [lost, ← Definition.contains_iff_mem]

private theorem gather_when {α : Type} (payload : Change → List α) (kind : ChangeKind) (p : Prop)
    [Decidable p] (change : Change) :
    gather payload kind (if p then [change] else []) =
      if change.kind = kind ∧ p then payload change else [] := by
  by_cases hp : p
  · by_cases hk : change.kind = kind
    · simp [gather, hp, hk]
    · simp [gather, hp, hk]
  · simp [gather, hp]

private theorem gather_keyChanges_of_lostToken? {kind : ChangeKind} {token : Token}
    (r : Redefinition) (h : kind.lostToken? = some token) :
    gather Change.columns kind r.keyChanges =
      if token ∈ r.previous.tokens ∧ token ∉ r.current.tokens then [r.column] else [] := by
  simp only [keyChanges, gather_append, gather_when, lost_iff]
  cases kind <;> simp only [ChangeKind.lostToken?, Option.some.injEq, reduceCtorEq] at h <;>
    simp [← h, Change.kind, Change.columns]

private theorem gather_keyChanges_foreignKeyAdded (r : Redefinition) :
    gather Change.columns .foreignKeyAdded r.keyChanges =
      if .on ∈ r.current.tokens ∧ .on ∉ r.previous.tokens then [r.column] else [] := by
  simp only [keyChanges, gather_append, gather_when, lost_iff]
  simp [Change.kind, Change.columns]

private theorem when_sublist_singleton {α : Type} (p : Prop) [Decidable p] (x : α) :
    (if p then [x] else []).Sublist [x] := by
  split
  · exact List.Sublist.refl [x]
  · exact List.nil_sublist [x]

theorem isKeyBlock_keyChanges (r : Redefinition) :
    IsKeyBlock r.previous r.current r.column r.keyChanges where
  ordered := by
    unfold keyChanges
    exact ((((when_sublist_singleton _ _).append (when_sublist_singleton _ _)).append
      (when_sublist_singleton _ _)).append (when_sublist_singleton _ _)).append
      (when_sublist_singleton _ _)
  foreignDropped := by simp [keyChanges, lost_iff]
  primaryDropped := by simp [keyChanges, lost_iff]
  uniqueDropped := by simp [keyChanges, lost_iff]
  indexDropped := by simp [keyChanges, lost_iff]
  foreignAdded := by simp [keyChanges, lost_iff]

end Redefinition

namespace Grammar

/-- The current names of the columns that have a token before and no longer after. -/
def namesLosing (grammar : Grammar) (token : Token) (columns : List (Column × Column)) :
    List String :=
  (columns.filter fun pair => token ∈ (grammar.parse pair.1.definition).tokens ∧
    token ∉ (grammar.parse pair.2.definition).tokens).map fun pair => pair.2.name

/-- The current names of the columns that have a token after and did not before. -/
def namesWinning (grammar : Grammar) (token : Token) (columns : List (Column × Column)) :
    List String :=
  (columns.filter fun pair => token ∈ (grammar.parse pair.2.definition).tokens ∧
    token ∉ (grammar.parse pair.1.definition).tokens).map fun pair => pair.2.name

variable {kind : ChangeKind} {token : Token}

private theorem gather_pairChanges_of_ne (grammar : Grammar) (current : Snapshot)
    (pair : Column × Column) (hk : kind ≠ .definitionChanged) :
    gather Change.columns kind (grammar.pairChanges current pair) =
      if grammar.parse pair.1.definition = grammar.parse pair.2.definition then []
      else gather Change.columns kind (grammar.pairRedefinition current pair).keyChanges := by
  unfold pairChanges
  by_cases he : grammar.parse pair.1.definition = grammar.parse pair.2.definition
  · rw [columnChanges_of_eq _ he, if_pos he, gather_nil]
  · have hhead : gather Change.columns kind
        [.definitionChanged (grammar.pairRedefinition current pair)] = [] := by
      apply gather_eq_nil
      intro change hm
      rw [List.mem_singleton.mp hm]
      exact hk.symm
    rw [columnChanges_of_ne _ he, if_neg he, ← List.singleton_append, gather_append]
    exact congrArg (· ++ _) hhead

private theorem gather_pairChanges_of_lostToken? (h : kind.lostToken? = some token)
    (grammar : Grammar) (current : Snapshot) (pair : Column × Column) :
    gather Change.columns kind (grammar.pairChanges current pair) =
      if token ∈ (grammar.parse pair.1.definition).tokens ∧
        token ∉ (grammar.parse pair.2.definition).tokens then [pair.2.name] else [] := by
  have hk : kind ≠ .definitionChanged := by
    rintro rfl
    simp [ChangeKind.lostToken?] at h
  rw [gather_pairChanges_of_ne grammar current pair hk,
    Redefinition.gather_keyChanges_of_lostToken? _ h]
  -- where the parses agree no token is lost, so the test for it needs no exception
  split
  · next he => rw [he, if_neg fun hm => hm.2 hm.1]
  · rfl

private theorem gather_pairChanges_foreignKeyAdded (grammar : Grammar) (current : Snapshot)
    (pair : Column × Column) :
    gather Change.columns .foreignKeyAdded (grammar.pairChanges current pair) =
      if .on ∈ (grammar.parse pair.2.definition).tokens ∧
        .on ∉ (grammar.parse pair.1.definition).tokens then [pair.2.name] else [] := by
  rw [gather_pairChanges_of_ne grammar current pair (by decide),
    Redefinition.gather_keyChanges_foreignKeyAdded]
  split
  · next he => rw [he, if_neg fun hm => hm.2 hm.1]
  · rfl

theorem gather_lostKeys (h : kind.lostToken? = some token) (grammar : Grammar)
    (previous current : Snapshot) :
    gather Change.columns kind (grammar.changes previous current) =
      grammar.namesLosing token (comparedPairs previous current) := by
  have ht : kind ≠ .tableRenamed := by
    rintro rfl
    simp [ChangeKind.lostToken?] at h
  have hk : kind ∉ ChangeKind.nameKinds := by
    intro hm
    cases kind <;> simp [ChangeKind.lostToken?, ChangeKind.nameKinds] at h hm
  rw [gather_changes_of_not_mem_nameKinds ht hk]
  simp only [gather_pairChanges_of_lostToken? h]
  exact flatMap_when _ _ _

theorem gather_foreignKeyAdded (grammar : Grammar) (previous current : Snapshot) :
    gather Change.columns .foreignKeyAdded (grammar.changes previous current) =
      ((current.surplus previous).filter fun column =>
        .on ∈ (grammar.parse column.definition).tokens).map Column.name ++
        grammar.namesWinning .on (comparedPairs previous current) := by
  rw [gather_changes, gather_tableChanges_of_ne (by decide), gather_foreignKeys_nameChanges]
  simp only [gather_pairChanges_foreignKeyAdded, List.nil_append]
  rw [flatMap_when]
  congr 2
  apply List.filter_congr
  intro column _
  exact Definition.hasForeignKey_eq_decide _

theorem gather_morphDropped (grammar : Grammar) (previous current : Snapshot) :
    gather Change.columns .morphDropped (grammar.changes previous current) =
      ((previous.surplus current).filter fun column =>
        .morphs ∈ (grammar.parse column.definition).tokens ∨
          .nullableMorphs ∈ (grammar.parse column.definition).tokens).map Column.name := by
  rw [gather_morphs]
  congr 1
  apply List.filter_congr
  intro column _
  rw [Bool.eq_iff_iff, Definition.hasMorphs_iff, decide_eq_true_iff]

/-! ## Order of the changes -/

/-- The changes to one column: its redefinition, directly followed by those to its keys. -/
def IsPairBlock (grammar : Grammar) (current : Snapshot) (pair : Column × Column)
    (block : List Change) : Prop :=
  ∃ r keys, block = .definitionChanged r :: keys ∧ r.Reports grammar current pair ∧
    IsKeyBlock (grammar.parse pair.1.definition) (grammar.parse pair.2.definition) pair.2.name keys

theorem isPairBlock_pairChanges {grammar : Grammar} {previous current : Snapshot}
    {pair : Column × Column} (h : pair ∈ grammar.differingPairs previous current) :
    grammar.IsPairBlock current pair (grammar.pairChanges current pair) := by
  have hdiffer := of_decide_eq_true (List.mem_filter.mp h).2
  have hkeys := Redefinition.isKeyBlock_keyChanges (grammar.pairRedefinition current pair)
  exact ⟨_, _, columnChanges_of_ne _ hdiffer, reports_pairRedefinition h, hkeys⟩

private theorem flatMap_pairChanges (grammar : Grammar) (current : Snapshot)
    (columns : List (Column × Column)) :
    columns.flatMap (grammar.pairChanges current) =
      ((columns.filter fun pair => grammar.parse pair.1.definition ≠
        grammar.parse pair.2.definition).map (grammar.pairChanges current)).flatten := by
  induction columns with
  | nil => rfl
  | cons pair rest ih =>
    by_cases he : grammar.parse pair.1.definition = grammar.parse pair.2.definition
    · have hnil : grammar.pairChanges current pair = [] := columnChanges_of_eq _ he
      simp only [List.flatMap_cons, hnil, List.nil_append, ih, ne_eq, he, not_true_eq_false,
        decide_false, List.filter_cons, Bool.false_eq_true, if_false]
    · simp only [List.flatMap_cons, ih, ne_eq, he, not_false_eq_true, decide_true,
        List.filter_cons, if_true, List.map_cons, List.flatten_cons]

private theorem kind_of_mem_tableChanges {previous current : Snapshot} {change : Change}
    (h : change ∈ tableChanges previous current) : change.kind = .tableRenamed := by
  apply Decidable.byContradiction
  intro hk
  exact gather_singleton_ne_nil h (gather_tableChanges_of_ne hk)

theorem kind_of_mem_nameChanges {grammar : Grammar} {previous current : Snapshot} {change : Change}
    (h : change ∈ grammar.nameChanges previous current) : change.kind ∈ ChangeKind.nameKinds := by
  apply Decidable.byContradiction
  intro hk
  exact gather_singleton_ne_nil h (gather_nameChanges_of_not_mem hk)

theorem kind_of_mem_pairChanges {grammar : Grammar} {current : Snapshot} {pair : Column × Column}
    {change : Change} (h : change ∈ grammar.pairChanges current pair) :
    change.kind ∈ ChangeKind.columnKinds := by
  apply Decidable.byContradiction
  intro hk
  exact gather_singleton_ne_nil h (gather_columnChanges_of_not_mem hk)

private theorem mem_surplus_of_foreignKeyAdded {grammar : Grammar} {previous current : Snapshot}
    {name : String} (h : .foreignKeyAdded name ∈ grammar.nameChanges previous current) :
    name ∈ (current.surplus previous).map Column.name := by
  have hmem : name ∈ gather Change.columns .foreignKeyAdded
      (grammar.nameChanges previous current) := mem_gather Change.columns h List.mem_cons_self
  rw [gather_foreignKeys_nameChanges] at hmem
  exact (List.filter_sublist.map Column.name).subset hmem

end Grammar

/-- Each bucket of dropped keys names the compared columns that lost the token of the key,
in the order of the previous columns; foreign keys are added with added columns and then by
compared columns that won theirs; polymorphic relationships are dropped with their columns.
In the list of changes everything about two compared columns stands together, behind all
that is said about the table and about names. -/
theorem Diff.keys_compare (grammar : Grammar) (previous current : Snapshot) :
    let set := (compare grammar previous current).changes
    let compared := comparedPairs previous current
    set.foreignDrops = grammar.namesLosing .on compared ∧
    set.primaryDrops = grammar.namesLosing .primary compared ∧
    set.uniqueDrops = grammar.namesLosing .unique compared ∧
    set.indexDrops = grammar.namesLosing .index compared ∧
    set.columnAdds = (current.surplus previous).map Column.name ∧
    set.foreignAdds = ((current.surplus previous).filter fun column =>
      .on ∈ (grammar.parse column.definition).tokens).map Column.name ++
        grammar.namesWinning .on compared ∧
    set.columnDrops = (previous.surplus current).map Column.name ∧
    set.morphDrops = ((previous.surplus current).filter fun column =>
      .morphs ∈ (grammar.parse column.definition).tokens ∨
        .nullableMorphs ∈ (grammar.parse column.definition).tokens).map Column.name ∧
    ∃ opening blocks, set.changes = opening ++ blocks.flatten ∧
      (∀ change ∈ opening, change.kind = .tableRenamed ∨ change.kind ∈ ChangeKind.nameKinds) ∧
      (∀ name, .foreignKeyAdded name ∈ opening → name ∈ set.columnAdds) ∧
      List.Forall₂ (grammar.IsPairBlock current) (grammar.differingPairs previous current)
        blocks := by
  simp only [compare, ofChanges_eq_gathered, gathered]
  refine ⟨grammar.gather_lostKeys rfl _ _, grammar.gather_lostKeys rfl _ _,
    grammar.gather_lostKeys rfl _ _, grammar.gather_lostKeys rfl _ _,
    grammar.gather_columnsAdded previous current, grammar.gather_foreignKeyAdded previous current,
    grammar.gather_columnsDropped previous current, grammar.gather_morphDropped previous current,
    Grammar.tableChanges previous current ++ grammar.nameChanges previous current,
    (grammar.differingPairs previous current).map (grammar.pairChanges current), ?_, ?_, ?_, ?_⟩
  · rw [grammar.changes_eq_append, grammar.flatMap_pairChanges, List.append_assoc]
    rfl
  · intro change hm
    rcases List.mem_append.mp hm with hm | hm
    · exact Or.inl (Grammar.kind_of_mem_tableChanges hm)
    · exact Or.inr (Grammar.kind_of_mem_nameChanges hm)
  · intro name hm
    rw [grammar.gather_columnsAdded]
    rcases List.mem_append.mp hm with hm | hm
    · exact absurd (Grammar.kind_of_mem_tableChanges hm) ChangeKind.noConfusion
    · exact Grammar.mem_surplus_of_foreignKeyAdded hm
  · rw [List.forall₂_map_right_iff, List.forall₂_same]
    intro pair hpair
    exact Grammar.isPairBlock_pairChanges hpair

end TableDelta
