import TableDelta.Proofs.Wire.Report
import TableDelta.Proofs.Wire.Snapshot
/-!
# Forms that are read alike

A later minor version may order the members of any record in a report or a snapshot anew and
add some of its own, which are skipped. Only a change is held back as a whole until its kind
is known, so what is added to it has to be a value, though it may have the name of a member
of other kinds. A change may also be an array.
-/
namespace TableDelta

/-- Whether a value is a form of a change: its object, widened by values, or its array. -/
inductive Change.HasForm (change : Change) : Json → Prop
  | object {json : Json} (h : change.toJson.Widens (·.isUsable = true) json) :
      HasForm change json
  | array : HasForm change change.toArray

theorem Change.ofJson?_of_hasForm {change : Change} (hc : change.IsEncodable) {json : Json}
    (h : change.HasForm json) : ofJson? json = some change := by
  cases h with
  | object hwide =>
    have hstable : change.toJson.isStableAt 0 = true := isStableAt_toJson (by decide) hc
    have husable := hwide.isUsable (Json.isUsable_of_isStableAt _ hstable)
    obtain ⟨members, rfl, hmembers⟩ := hwide.exists_holds change.nodup_toJson
    exact ofJson?_of_holds hc husable hmembers
  | array => exact ofJson?_toArray hc

namespace Report

/-- Whether a value is a form of a report: its object with every record in it widened, and
its changes in any of their forms. -/
inductive HasForm (report : Report) : Json → Prop
  | object {version summary : Json} {changes : List Json} {json : Json}
      (hversion : report.version.toJson.Widens (fun _ => True) version)
      (hsummary : report.summary.toJson.Widens (fun _ => True) summary)
      (hchanges : List.Forall₂ Change.HasForm report.changes changes)
      (hjson : (Json.object (report.membersOver version summary changes)).Widens
        (fun _ => True) json) : HasForm report json

theorem hasForm_toJson (report : Report) : report.HasForm report.toJson := by
  refine .object (.refl _) (.refl _) ?_ (.refl _)
  refine (Json.forall₂_map Change.toJson report.changes).imp ?_
  rintro change json rfl
  exact .object (.refl _)

theorem ofJson?_of_hasForm {report : Report} (h : report.IsEncodable) {json : Json}
    (hform : report.HasForm json) : ofJson? json = some report := by
  cases hform with
  | @object version summary changes json hversion hsummary hchanges hjson =>
    have hversion := Version.ofJson?_of_provides h.version
      (hversion.provides report.version.nodup_members)
    have hsummary := Summary.ofJson?_of_provides h.summary
      (hsummary.provides report.summary.nodup_members)
    have hchanges : changes.mapM Change.ofJson? = some report.changes :=
      Json.mapM_of_forall₂ hchanges fun change hchange json =>
        Change.ofJson?_of_hasForm (h.changes change hchange)
    apply ofJson?_of_provides hversion hsummary hchanges
    exact hjson.provides (report.nodup_membersOver version summary changes)

end Report

namespace Snapshot

/-- Whether a value is a form of a snapshot: its object, and those of its columns, widened. -/
inductive HasForm (snapshot : Snapshot) : Json → Prop
  | object {columns : List Json} {json : Json}
      (hcolumns : List.Forall₂ (fun column => column.toJson.Widens fun _ => True)
        snapshot.columns columns)
      (hjson : (Json.object (snapshot.membersOver columns)).Widens (fun _ => True) json) :
      HasForm snapshot json

theorem hasForm_toJson (snapshot : Snapshot) : snapshot.HasForm snapshot.toJson := by
  refine .object ?_ (.refl _)
  refine (Json.forall₂_map Column.toJson snapshot.columns).imp ?_
  rintro column json rfl
  exact .refl _

theorem ofJson?_of_hasForm {snapshot : Snapshot} {json : Json} (hform : snapshot.HasForm json) :
    ofJson? json = some snapshot := by
  cases hform with
  | @object columns json hcolumns hjson =>
    have hcolumns : columns.mapM Column.ofJson? = some snapshot.columns :=
      Json.mapM_of_forall₂ hcolumns fun column _ json hcolumn =>
        Column.ofJson?_of_provides (hcolumn.provides column.nodup_members)
    exact ofJson?_of_provides hcolumns (hjson.provides (snapshot.nodup_membersOver columns))

end Snapshot

/-- Every form of a report whose numbers fit, and every form of a snapshot, is read as that
report or that snapshot. -/
theorem read_of_hasForm :
    (∀ (report : Report) (json : Json), report.IsEncodable → report.HasForm json →
      Report.ofJson? json = some report) ∧
    ∀ (snapshot : Snapshot) (json : Json), snapshot.HasForm json →
      Snapshot.ofJson? json = some snapshot := by
  constructor
  · intro report json h hform
    exact Report.ofJson?_of_hasForm h hform
  · intro snapshot json hform
    exact Snapshot.ofJson?_of_hasForm hform

/-- A report on two changes, one with the payload `column`, the other with `columns`. -/
def keyReport : Report :=
  .ofChangeSet "now" "t" "t" (.ofChanges [.foreignKeyAdded "a", .columnsDropped ["b"]])

/-- The report as a later version may write it: in its first change the kind comes last and
is preceded by a payload of the second one's kind, and the second change is an array. -/
def keyReportForm : Json :=
  .object [("timestamp", .string "now"),
    ("version", .object [("minor", .natural 0), ("major", .natural 1), ("patch", .natural 7)]),
    ("previous_table", .string "t"), ("current_table", .string "t"),
    ("summary", .object [("destructive", .natural 1), ("total", .natural 2),
      ("by_kind", keyReport.summary.byKind.toJson), ("safe", .unusable)]),
    ("changelog", .strings keyReport.changelog),
    ("changes", .array [
      .object [("column", .string "a"), ("kind", .string "FOREIGN_KEY_ADDED"),
        ("columns", .strings ["b"])],
      .array [.string "COLUMNS_DROPPED", .strings ["b"]]]),
    ("changes by table", .null)]

/-- A snapshot with its members and those of its column the other way round, and further ones. -/
def keySnapshotForm : Json :=
  .object [("columns", .array [.object [("schema", .string "int"), ("name", .string "a"),
    ("columns", .null)]]), ("table", .string "t"), ("name", .string "u"), ("name", .null)]

theorem read_of_hasForm_key :
    (keyReport.IsEncodable ∧ keyReport.HasForm keyReportForm ∧
      Report.ofJson? keyReportForm = some keyReport) ∧
    (Snapshot.ofColumns "t" [⟨"a", "int"⟩]).HasForm keySnapshotForm ∧
      Snapshot.ofJson? keySnapshotForm = some (.ofColumns "t" [⟨"a", "int"⟩]) := by
  have hencodable : keyReport.IsEncodable :=
    ⟨⟨by decide, by decide⟩, ⟨by decide, by decide, by decide⟩,
      List.forall_mem_cons.mpr ⟨trivial, List.forall_mem_singleton.mpr trivial⟩⟩
  have hreport : keyReport.HasForm keyReportForm := by
    refine .object (.object (.swap _ _ _) (by decide) (by simp))
      (.object (.swap _ _ _) (by decide) (by simp)) (.cons ?_ (.cons .array .nil))
      (.object (.swap _ _ _) (by decide) (by simp))
    exact .object (.object (.swap _ _ _) (by decide) (by decide))
  have hsnapshot : (Snapshot.ofColumns "t" [⟨"a", "int"⟩]).HasForm keySnapshotForm := by
    refine .object (.cons ?_ .nil) (.object (.swap _ _ _) (by decide) (by simp))
    exact .object (.swap _ _ _) (by decide) (by simp)
  exact ⟨⟨hencodable, hreport, read_of_hasForm.1 keyReport keyReportForm hencodable hreport⟩,
    hsnapshot, read_of_hasForm.2 _ keySnapshotForm hsnapshot⟩

end TableDelta
