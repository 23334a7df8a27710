import TableDelta.Proofs.Change.Buckets
import TableDelta.Proofs.Report.Summary
import TableDelta.Proofs.Wire.Report
/-!
# Handing a report on

Whoever gets the text of a report can rebuild the change set that it was made of.
-/
namespace TableDelta

namespace Report

private theorem isEncodable_ofChangeSet (timestamp previousTable currentTable : String)
    {changes : List Change} (hc : ∀ change ∈ changes, change.IsEncodable)
    (hn : changes.length < countLimit) :
    (ofChangeSet timestamp previousTable currentTable (.ofChanges changes)).IsEncodable := by
  have hversion : Version.current.IsEncodable := ⟨by decide, by decide⟩
  have hbound := Summary.ofChanges_atMost changes
  rw [ChangeSet.ofChanges_eq_gathered]
  refine ⟨hversion, ⟨?_, ?_, ?_⟩, hc⟩
  · exact Nat.lt_of_le_of_lt hbound.total hn
  · exact Nat.lt_of_le_of_lt hbound.destructive hn
  · intro entry hentry
    exact Nat.lt_of_le_of_lt (hbound.byKind entry hentry) hn

/-- The text of the report on a change set gives back the report, and recording the changes
of that report gives back the change set with its changelog and all its buckets. -/
theorem handOff_roundTrip (timestamp previousTable currentTable : String) (changes : List Change)
    (hindex : ∀ r, Change.definitionChanged r ∈ changes → r.index < countLimit)
    (hcount : changes.length < countLimit) :
    ∃ decoded : Report,
      ofText? (ofChangeSet timestamp previousTable currentTable (.ofChanges changes)).text =
        some decoded ∧
      decoded = ofChangeSet timestamp previousTable currentTable (.ofChanges changes) ∧
      ChangeSet.ofChanges decoded.changes = ChangeSet.ofChanges changes ∧
      (ChangeSet.ofChanges decoded.changes).changelog = decoded.changelog := by
  have hc : ∀ change ∈ changes, change.IsEncodable := by
    intro change hchange
    cases change with
    | definitionChanged r => exact hindex r hchange
    | _ => trivial
  have hencodable := isEncodable_ofChangeSet timestamp previousTable currentTable hc hcount
  have hchanges := ChangeSet.changes_ofChanges changes
  refine ⟨_, ofText?_text hencodable, rfl, ?_, ?_⟩
  · show ChangeSet.ofChanges (ChangeSet.ofChanges changes).changes = ChangeSet.ofChanges changes
    rw [hchanges]
  · show (ChangeSet.ofChanges (ChangeSet.ofChanges changes).changes).changelog =
      (ChangeSet.ofChanges changes).changelog
    rw [hchanges]

/-- Changes whose texts need every kind of escape, and the greatest index there is. -/
def awkwardChanges : List Change :=
  [.tableRenamed ⟨"with \"quotes\"", "back\\slash"⟩, .columnsDropped ["line\nfeed", "\x01", ""],
    .definitionChanged ⟨18446744073709551615, "tab\there", "\x7f𝄞",
      .ofTokens [.other "nullable", .nullableMorphs, .on, .on], .empty⟩,
    .columnsDropped [], .foreignKeyDropped "\x7b\x7d"]

theorem handOff_roundTrip_awkwardChanges :
    (∀ r, Change.definitionChanged r ∈ awkwardChanges → r.index < countLimit) ∧
    awkwardChanges.length < countLimit ∧
    ∃ decoded : Report,
      ofText? (ofChangeSet "now" "previous" "current" (.ofChanges awkwardChanges)).text =
        some decoded ∧
      decoded = ofChangeSet "now" "previous" "current" (.ofChanges awkwardChanges) ∧
      ChangeSet.ofChanges decoded.changes = ChangeSet.ofChanges awkwardChanges ∧
      (ChangeSet.ofChanges decoded.changes).changelog = decoded.changelog := by
  have hindex : ∀ r, Change.definitionChanged r ∈ awkwardChanges → r.index < countLimit := by
    intro r hr
    simp only [awkwardChanges, List.mem_cons, List.not_mem_nil, or_false, reduceCtorEq, false_or,
      Change.definitionChanged.injEq] at hr
    rw [hr]
    decide
  have hcount : awkwardChanges.length < countLimit := by decide
  exact ⟨hindex, hcount, handOff_roundTrip "now" "previous" "current" awkwardChanges hindex hcount⟩

end Report

end TableDelta
