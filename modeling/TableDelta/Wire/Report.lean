import TableDelta.Json.Reader
import TableDelta.Json.Writer
import TableDelta.Report
import TableDelta.Wire.Change
import TableDelta.Wire.Snapshot
/-!
# JSON form of reports

A report is written over several lines and read from any JSON text of that shape.
Nothing that is read is checked against the rest of the report.
-/
namespace TableDelta

/-- The least number that is too large for a part of a version. -/
def versionLimit : Nat := 0x100000000

namespace Version

def toJson (version : Version) : Json :=
  .object [("major", .natural version.major), ("minor", .natural version.minor)]

def ofJson? (json : Json) : Option Version := do
  match ← json.slots? ["major", "minor"] with
  | [some major, some minor] =>
    return ⟨← major.natBelow? versionLimit, ← minor.natBelow? versionLimit⟩
  | _ => none

end Version

namespace Tally

def toJson (tally : Tally) : Json :=
  .object (tally.entries.map fun (kind, count) => (kind.code, .natural count))

/-- Sets the count that one member of an object gives to the kind it is named for. -/
def setMember? (tally : Tally) (member : String × Json) : Option Tally := do
  return tally.set (← ChangeKind.ofCode? member.1) (← member.2.natBelow? countLimit)

/-- Reads a tally; of the counts of one kind the last one holds. -/
def ofJson? : Json → Option Tally
  | .object members => members.foldlM setMember? empty
  | _ => none

end Tally

namespace Summary

def toJson (summary : Summary) : Json :=
  .object [("total", .natural summary.total), ("destructive", .natural summary.destructive),
    ("by_kind", summary.byKind.toJson)]

def ofJson? (json : Json) : Option Summary := do
  match ← json.slots? ["total", "destructive", "by_kind"] with
  | [some total, some destructive, some byKind] =>
    return ⟨← total.natBelow? countLimit, ← destructive.natBelow? countLimit,
      ← Tally.ofJson? byKind⟩
  | _ => none

end Summary

namespace Report

def memberNames : List String :=
  ["version", "timestamp", "previous_table", "current_table", "summary", "changelog", "changes"]

def toJson (report : Report) : Json :=
  .object [("version", report.version.toJson), ("timestamp", .string report.timestamp),
    ("previous_table", .string report.previousTable),
    ("current_table", .string report.currentTable), ("summary", report.summary.toJson),
    ("changelog", .strings report.changelog),
    ("changes", .array (report.changes.map Change.toJson))]

def ofJson? (json : Json) : Option Report := do
  match ← json.slots? memberNames with
  | [some version, some timestamp, some previousTable, some currentTable, some summary,
      some changelog, some changes] =>
    return ⟨← Version.ofJson? version, ← timestamp.string?, ← previousTable.string?,
      ← currentTable.string?, ← Summary.ofJson? summary, ← changelog.strings?,
      ← (← changes.items?).mapM Change.ofJson?⟩
  | _ => none

def text (report : Report) : String := report.toJson.indented

def ofText? (text : String) : Option Report := do
  ofJson? (← Json.ofText? text)

end Report

def Diff.toJson (diff : Diff) : Json :=
  .object [("previous", diff.previous.toJson), ("current", diff.current.toJson),
    ("changes", diff.changes.toJson)]

end TableDelta
