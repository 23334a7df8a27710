import TableDelta.Proofs.Wire.Model
/-!
# Runs of edits

A snapshot starts without columns, from a list of columns or from a JSON text, and is then
edited any number of times. Each step keeps what a snapshot tells of the columns declared so
far, and so does every run of them, which never fails.
-/
namespace TableDelta.Snapshot

/-- What a snapshot is made of at first. -/
inductive Origin where
  | empty (table : String)
  | listed (table : String) (columns : List Column)
  | read (text : String)

/-- The columns that a JSON text lists, in its order and with repetitions. -/
def listedColumns? (text : String) : Option (List Column) := do
  match ← (← Json.ofText? text).slots? ["table", "columns"] with
  | [_, some columns] => (← columns.items?).mapM Column.ofJson?
  | _ => none

namespace Origin

def snapshot? : Origin → Option Snapshot
  | empty table => some (.empty table)
  | listed table columns => some (.ofColumns table columns)
  | read text => Model.snapshot.read? text

/-- The columns that an origin declares. -/
def declared : Origin → List Column
  | empty _ => []
  | listed _ columns => columns
  | read text => (listedColumns? text).getD []

end Origin

inductive Edit where
  | declare (column : Column)
  | withTable (table : String)
  | merge (other : Snapshot)
  /-- The snapshot is written as a JSON text and read from it. -/
  | reload

namespace Edit

def result? (snapshot : Snapshot) : Edit → Option Snapshot
  | declare column => some (snapshot.declare column)
  | withTable table => some (snapshot.withTable table)
  | merge other => some (snapshot.merge other)
  | reload => Model.snapshot.read? (Model.snapshot.write snapshot)

/-- The columns that an edit declares. -/
def declared : Edit → List Column
  | declare column => [column]
  | merge other => other.columns
  | withTable _ => []
  | reload => []

end Edit

/-- Applies edits one after the other. -/
def run? (snapshot : Snapshot) (edits : List Edit) : Option Snapshot :=
  edits.foldlM Edit.result? snapshot

theorem read?_write (snapshot : Snapshot) :
    Model.snapshot.read? (Model.snapshot.write snapshot) = some snapshot := by
  have hsurvives : Model.Survives .snapshot snapshot :=
    ⟨snapshot.isStableAt_toJson (by decide), snapshot.ofJson?_toJson⟩
  exact hsurvives.read?_write

variable {declared : List Column} {snapshot : Snapshot}

private theorem reflects_of_read? {text : String} (h : Model.snapshot.read? text = some snapshot) :
    snapshot.Reflects ((listedColumns? text).getD []) := by
  rw [Model.read?, Option.bind_eq_bind, Option.bind_eq_some_iff] at h
  obtain ⟨json, hjson, h⟩ := h
  simp only [Model.ofJson?, ofJson?, Option.bind_eq_bind, Option.bind_eq_some_iff] at h
  obtain ⟨slots, hslots, h⟩ := h
  split at h
  · simp only [Option.bind_eq_some_iff, Option.pure_def, Option.some.injEq] at h
    obtain ⟨table, -, rfl⟩ := h
    have hlisted : listedColumns? text = none := by simp [listedColumns?, hjson, hslots]
    rw [hlisted]
    exact reflects_empty table
  · simp only [Option.bind_eq_some_iff, Option.pure_def, Option.some.injEq] at h
    obtain ⟨table, -, items, hitems, columns, hcolumns, rfl⟩ := h
    have hlisted : listedColumns? text = some columns := by
      simp [listedColumns?, hjson, hslots, hitems, hcolumns]
    rw [hlisted]
    exact reflects_ofColumns table columns
  · exact absurd h (by simp)

private theorem reflects_of_origin {origin : Origin} (h : origin.snapshot? = some snapshot) :
    snapshot.Reflects origin.declared := by
  cases origin with
  | empty table =>
    cases h
    exact reflects_empty table
  | listed table columns =>
    cases h
    exact reflects_ofColumns table columns
  | read text => exact reflects_of_read? h

/-- An edit succeeds, and what it declares is declared behind all that was before. -/
theorem Reflects.result? (h : snapshot.Reflects declared) (edit : Edit) :
    ∃ next, edit.result? snapshot = some next ∧ next.Reflects (declared ++ edit.declared) := by
  cases edit with
  | declare column => exact ⟨_, rfl, h.declare column⟩
  | withTable table =>
    refine ⟨_, rfl, ?_⟩
    rw [Edit.declared, List.append_nil]
    exact ⟨h.names, h.definitions⟩
  | merge other =>
    refine ⟨_, rfl, ?_⟩
    rw [merge_eq_foldl]
    exact h.foldl_declare other.columns
  | reload =>
    refine ⟨snapshot, read?_write snapshot, ?_⟩
    rw [Edit.declared, List.append_nil]
    exact h

theorem Reflects.run? (h : snapshot.Reflects declared) (edits : List Edit) :
    ∃ final, snapshot.run? edits = some final ∧
      final.Reflects (declared ++ edits.flatMap Edit.declared) := by
  induction edits generalizing declared snapshot with
  | nil =>
    refine ⟨snapshot, rfl, ?_⟩
    rw [List.flatMap_nil, List.append_nil]
    exact h
  | cons edit edits ih =>
    obtain ⟨next, hnext, hreflects⟩ := h.result? edit
    obtain ⟨final, hfinal, hrest⟩ := ih hreflects
    refine ⟨final, ?_, ?_⟩
    · rw [Snapshot.run?, List.foldlM_cons, hnext]
      exact hfinal
    · rw [List.flatMap_cons, ← List.append_assoc]
      exact hrest

/-- Every run of edits succeeds. The names of what it reaches are distinct and stand in the
order of their first declarations, each with the definition that was declared for it last;
the searches by name agree with this, and reloading changes nothing. -/
theorem run_reflects_declarations {origin : Origin} {start : Snapshot}
    (h : origin.snapshot? = some start) (edits : List Edit) :
    ∃ final, start.run? edits = some final ∧ final.names.Nodup ∧
      final.Reflects (origin.declared ++ edits.flatMap Edit.declared) ∧
      (∀ name i, final.position? name = some i ↔ final.names[i]? = some name) ∧
      (∀ name definition,
        final.definition? name = some definition ↔ ⟨name, definition⟩ ∈ final.columns) ∧
      (∀ name, (final.position? name).isSome = (final.definition? name).isSome) ∧
      Model.snapshot.read? (Model.snapshot.write final) = some final := by
  obtain ⟨final, hfinal, hreflects⟩ := (reflects_of_origin h).run? edits
  refine ⟨final, hfinal, final.distinct, hreflects, ?_, ?_, final.isSome_position?,
    final.read?_write⟩
  · intro name i
    exact position?_eq_some_iff
  · intro name definition
    exact definition?_eq_some_iff

/-- A text that declares a column twice, and edits that declare it once more. -/
def repeatedDeclarations : Origin × List Edit :=
  (.read "[\"t\", [[\"a\", \"x\"], [\"b\", \"x\"], [\"a\", \"y\"]]]",
    [.declare ⟨"c", "x"⟩, .reload, .withTable "u",
      .merge (.ofColumns "v" [⟨"d", "x"⟩, ⟨"a", "z"⟩])])

theorem run_reflects_declarations_repeated :
    repeatedDeclarations.1.snapshot? = some (.ofColumns "t" [⟨"a", "y"⟩, ⟨"b", "x"⟩]) ∧
    ∃ final, (ofColumns "t" [⟨"a", "y"⟩, ⟨"b", "x"⟩]).run? repeatedDeclarations.2 = some final ∧
      final.names = ["a", "b", "c", "d"] ∧ final.definition? "a" = some "z" ∧
      final.position? "d" = some 3 ∧ ⟨"b", "x"⟩ ∈ final.columns ∧
      Model.snapshot.read? (Model.snapshot.write final) = some final := by
  have hstart : repeatedDeclarations.1.snapshot? =
      some (.ofColumns "t" [⟨"a", "y"⟩, ⟨"b", "x"⟩]) := by decide +kernel
  have hdeclared : repeatedDeclarations.1.declared ++
      repeatedDeclarations.2.flatMap Edit.declared =
        [⟨"a", "x"⟩, ⟨"b", "x"⟩, ⟨"a", "y"⟩, ⟨"c", "x"⟩, ⟨"d", "x"⟩, ⟨"a", "z"⟩] := by
    decide +kernel
  obtain ⟨final, hfinal, -, hreflects, hposition, hdefinition, -, hread⟩ :=
    run_reflects_declarations hstart repeatedDeclarations.2
  rw [hdeclared] at hreflects
  have hnames : final.names = ["a", "b", "c", "d"] := by
    rw [hreflects.names]
    decide +kernel
  refine ⟨hstart, final, hfinal, hnames, ?_, ?_, ?_, hread⟩
  · rw [hreflects.definitions]
    decide +kernel
  · rw [hposition, hnames]
    rfl
  · rw [← hdefinition, hreflects.definitions]
    decide +kernel

end TableDelta.Snapshot
