import TableDelta.Proofs.Snapshot.Declarations
/-!
# Merging snapshots

All that a snapshot keeps of the columns declared for it is the order in which their names
came up and the last definition of each. Lists of columns that agree in this can stand for
each other, in front of other columns and behind them, and a snapshot's own columns can stand
for whatever it was made from. Hence merging under a table is associative and idempotent; the
left snapshot decides on the places of the names that both declare, the right one on their
definitions.
-/
namespace TableDelta

/-- Two lists of columns bring up the same names in the same order and leave each of them
with the same definition. -/
structure Column.DeclareAlike (xs ys : List Column) : Prop where
  names : (xs.map Column.name).eraseDups = (ys.map Column.name).eraseDups
  latest : ∀ name, Column.latest name xs = Column.latest name ys

namespace Column.DeclareAlike

variable {xs xs' ys ys' : List Column}

theorem refl (xs : List Column) : DeclareAlike xs xs := ⟨rfl, fun _ => rfl⟩

theorem mem_names (h : DeclareAlike xs ys) (name : String) :
    name ∈ xs.map Column.name ↔ name ∈ ys.map Column.name := by
  rw [← List.mem_eraseDups, h.names, List.mem_eraseDups]

theorem append (hx : DeclareAlike xs xs') (hy : DeclareAlike ys ys') :
    DeclareAlike (xs ++ ys) (xs' ++ ys') where
  names := by
    rw [List.map_append, List.map_append, Keyed.eraseDups_append, Keyed.eraseDups_append,
      hx.names, hy.names]
    simp only [hx.mem_names]
  latest name := by rw [latest_append, latest_append, hx.latest, hy.latest]

private theorem append_self (xs : List Column) : DeclareAlike (xs ++ xs) xs where
  names := by
    have hnone : ((xs.map Column.name).eraseDups.filter fun name =>
        name ∉ xs.map Column.name) = [] := by
      rw [List.filter_eq_nil_iff]
      intro name hm hnew
      exact of_decide_eq_true hnew (List.mem_eraseDups.mp hm)
    rw [List.map_append, Keyed.eraseDups_append, hnone, List.append_nil]
  latest name := by rw [latest_append, Option.or_self]

end Column.DeclareAlike

namespace Snapshot

open Column

variable {xs ys : List Column} {snapshot : Snapshot}

theorem Reflects.declareAlike (hx : snapshot.Reflects xs) (hy : snapshot.Reflects ys) :
    DeclareAlike xs ys where
  names := hx.names.symm.trans hy.names
  latest name := (hx.definitions name).symm.trans (hy.definitions name)

theorem ofColumns_eq_iff (table : String) :
    ofColumns table xs = ofColumns table ys ↔ DeclareAlike xs ys := by
  have hx := reflects_ofColumns table xs
  have hy := reflects_ofColumns table ys
  constructor
  · intro h
    rw [h] at hx
    exact hx.declareAlike hy
  · intro h
    apply eq_of_definition?_eq
    · rw [table_ofColumns, table_ofColumns]
    · rw [hx.names, h.names, hy.names]
    · intro name
      rw [hx.definitions, h.latest, hy.definitions]

private theorem declareAlike_columns (table : String) (xs : List Column) :
    DeclareAlike (ofColumns table xs).columns xs :=
  (ofColumns table xs).reflects_columns.declareAlike (reflects_ofColumns table xs)

private theorem ofColumns_columns_append (table other : String) (xs ys : List Column) :
    ofColumns table ((ofColumns other xs).columns ++ ys) = ofColumns table (xs ++ ys) :=
  (ofColumns_eq_iff table).mpr ((declareAlike_columns other xs).append (.refl ys))

private theorem ofColumns_append_columns (table other : String) (xs ys : List Column) :
    ofColumns table (xs ++ (ofColumns other ys).columns) = ofColumns table (xs ++ ys) :=
  (ofColumns_eq_iff table).mpr ((DeclareAlike.refl xs).append (declareAlike_columns other ys))

/-- The snapshot of a table that declares one snapshot's columns and then another one's. -/
def mergeUnder (table : String) (left right : Snapshot) : Snapshot :=
  ofColumns table (left.columns ++ right.columns)

private theorem merge_eq_mergeUnder (left right : Snapshot) :
    left.merge right = mergeUnder left.table left right := rfl

private theorem mergeUnder_assoc (table inner outer : String) (a b c : Snapshot) :
    mergeUnder table (mergeUnder inner a b) c = mergeUnder table a (mergeUnder outer b c) :=
  calc ofColumns table ((ofColumns inner (a.columns ++ b.columns)).columns ++ c.columns)
    _ = ofColumns table (a.columns ++ b.columns ++ c.columns) :=
      ofColumns_columns_append table inner _ _
    _ = ofColumns table (a.columns ++ (b.columns ++ c.columns)) := by rw [List.append_assoc]
    _ = ofColumns table (a.columns ++ (ofColumns outer (b.columns ++ c.columns)).columns) :=
      (ofColumns_append_columns table outer _ _).symm

theorem merge_assoc (a b c : Snapshot) : (a.merge b).merge c = a.merge (b.merge c) := by
  have htable : (a.merge b).table = a.table := table_ofColumns _ _
  rw [merge_eq_mergeUnder (a.merge b), htable]
  exact mergeUnder_assoc a.table a.table b.table a b c

private theorem mergeUnder_self (table : String) (snapshot : Snapshot) :
    mergeUnder table snapshot snapshot = snapshot.withTable table :=
  calc ofColumns table (snapshot.columns ++ snapshot.columns)
    _ = ofColumns table snapshot.columns :=
      (ofColumns_eq_iff table).mpr (.append_self snapshot.columns)
    _ = snapshot.withTable table := (snapshot.withTable table).ofColumns_columns

theorem merge_self (snapshot : Snapshot) : snapshot.merge snapshot = snapshot :=
  mergeUnder_self snapshot.table snapshot

section Operands

variable (table : String) (left right : Snapshot)

private theorem reflects_mergeUnder :
    (mergeUnder table left right).Reflects (left.columns ++ right.columns) :=
  reflects_ofColumns table _

theorem names_mergeUnder :
    (mergeUnder table left right).names =
      left.names ++ right.names.filter fun name => name ∉ left.names := by
  have happend : (left.columns ++ right.columns).map Column.name = left.names ++ right.names :=
    List.map_append
  rw [(reflects_mergeUnder table left right).names, happend, Keyed.eraseDups_append,
    eraseDups_names, eraseDups_names]

private theorem mem_names_mergeUnder (name : String) :
    name ∈ (mergeUnder table left right).names ↔ name ∈ left.names ∨ name ∈ right.names := by
  rw [(reflects_mergeUnder table left right).mem_names, List.map_append, List.mem_append]
  rfl

/-- The left snapshot's names keep their places, and the new ones follow. -/
theorem position?_mergeUnder (name : String) :
    (mergeUnder table left right).position? name = (left.position? name).or
      (((right.names.filter fun name => name ∉ left.names).idxOf? name).map (· + left.size)) := by
  rw [position?_eq_idxOf?, names_mergeUnder, List.idxOf?, List.findIdx?_append, length_names,
    position?_eq_idxOf?]
  rfl

theorem definition?_mergeUnder (name : String) :
    (mergeUnder table left right).definition? name =
      (right.definition? name).or (left.definition? name) := by
  rw [(reflects_mergeUnder table left right).definitions, latest_append, latest_columns,
    latest_columns]

end Operands

example : (mergeUnder "t" (ofColumns "u" [⟨"a", "x"⟩, ⟨"b", "x"⟩])
    (ofColumns "v" [⟨"c", "x"⟩, ⟨"a", "y"⟩])).columns =
      [⟨"a", "y"⟩, ⟨"b", "x"⟩, ⟨"c", "x"⟩] := by decide

/-- Reducing either of two lists to the columns of a snapshot beforehand makes no difference to
what they declare together. Merging is therefore associative and idempotent, under a fixed
table and under the own one. A merge has the names of both snapshots, the left one's first and
at their places; a name that both declare has the definition of the right one. -/
theorem merge_algebra (table other : String) :
    (∀ xs ys : List Column,
      ofColumns table ((ofColumns other xs).columns ++ ys) = ofColumns table (xs ++ ys) ∧
      ofColumns table (xs ++ ys) = ofColumns table (xs ++ (ofColumns other ys).columns)) ∧
    (∀ a b c : Snapshot,
      mergeUnder table (mergeUnder table a b) c = mergeUnder table a (mergeUnder table b c) ∧
      (a.merge b).merge c = a.merge (b.merge c)) ∧
    (∀ a : Snapshot, mergeUnder table a a = a.withTable table ∧ a.merge a = a) ∧
    ∀ a b : Snapshot,
      (mergeUnder table a b).names = a.names ++ b.names.filter (fun name => name ∉ a.names) ∧
      ∀ name,
        (name ∈ (mergeUnder table a b).names ↔ name ∈ a.names ∨ name ∈ b.names) ∧
        (mergeUnder table a b).position? name = (a.position? name).or
          (((b.names.filter fun name => name ∉ a.names).idxOf? name).map (· + a.size)) ∧
        (mergeUnder table a b).definition? name = (b.definition? name).or (a.definition? name) := by
  refine ⟨?_, ?_, ?_, ?_⟩
  · intro xs ys
    exact ⟨ofColumns_columns_append table other xs ys,
      (ofColumns_append_columns table other xs ys).symm⟩
  · intro a b c
    exact ⟨mergeUnder_assoc table table table a b c, merge_assoc a b c⟩
  · intro a
    exact ⟨mergeUnder_self table a, merge_self a⟩
  · intro a b
    refine ⟨names_mergeUnder table a b, ?_⟩
    intro name
    exact ⟨mem_names_mergeUnder table a b name, position?_mergeUnder table a b name,
      definition?_mergeUnder table a b name⟩

end Snapshot

end TableDelta
