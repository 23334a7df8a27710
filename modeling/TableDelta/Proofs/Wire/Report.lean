import TableDelta.Proofs.Json.Writer
import TableDelta.Proofs.Wire.Change
import TableDelta.Wire.Report
/-!
# Reading back reports

A report is read back from its text when its numbers fit, as all numbers do that were read.
The counts by kind are set one after the other, which rebuilds a tally because its entries
stand in the order of kinds.
-/
namespace TableDelta

namespace Version

structure IsEncodable (version : Version) : Prop where
  major : version.major < versionLimit
  minor : version.minor < versionLimit

/-- The members of a version, as they stand in an object. -/
def members (version : Version) : List (String × Json) :=
  [("major", .natural version.major), ("minor", .natural version.minor)]

theorem nodup_members (version : Version) : (version.members.map Prod.fst).Nodup :=
  (by decide : ["major", "minor"].Nodup)

theorem ofJson?_of_provides {json : Json} {version : Version} (h : version.IsEncodable)
    (hjson : json.Provides version.members) : ofJson? json = some version := by
  have hslots : Json.slots? ["major", "minor"] json = _ := hjson
  rw [ofJson?, hslots]
  simp [members, Json.natBelow?_natural h.major, Json.natBelow?_natural h.minor]

theorem ofJson?_toJson {version : Version} (h : version.IsEncodable) :
    ofJson? version.toJson = some version :=
  ofJson?_of_provides h (Json.provides_object version.nodup_members)

theorem isStableAt_toJson {depth : Nat} (hd : depth < Json.maxDepth) {version : Version}
    (h : version.IsEncodable) : version.toJson.isStableAt depth = true := by
  have hlimit : versionLimit ≤ Json.Number.leadingLimit := by decide
  apply Json.isStableAt_object hd
  intro member hmember
  simp only [List.mem_cons, List.not_mem_nil, or_false] at hmember
  rcases hmember with rfl | rfl
  · exact Json.isStableAt_natural _ (Nat.lt_of_lt_of_le h.major hlimit)
  · exact Json.isStableAt_natural _ (Nat.lt_of_lt_of_le h.minor hlimit)

theorem isEncodable_of_ofJson? {json : Json} {version : Version}
    (h : ofJson? json = some version) : version.IsEncodable := by
  simp only [ofJson?, Option.bind_eq_bind, Option.bind_eq_some_iff] at h
  obtain ⟨slots, -, h⟩ := h
  split at h
  · simp only [Option.bind_eq_some_iff, Option.pure_def, Option.some.injEq] at h
    obtain ⟨major, hmajor, minor, hminor, rfl⟩ := h
    exact ⟨Json.lt_of_natBelow? hmajor, Json.lt_of_natBelow? hminor⟩
  · exact absurd h (by simp)

end Version

namespace Tally

private theorem eq_of_entries_eq {a b : Tally} (h : a.entries = b.entries) : a = b := by
  cases a
  cases b
  cases h
  rfl

private theorem place_of_lt {kind : ChangeKind} {entries : List (ChangeKind × Nat)}
    (h : ∀ entry ∈ entries, entry.1.rank < kind.rank) (count : Nat) :
    place kind count entries = entries ++ [(kind, count)] := by
  induction entries with
  | nil => rfl
  | cons first rest ih =>
    have hfirst := h first List.mem_cons_self
    have hrest : ∀ entry ∈ rest, entry.1.rank < kind.rank := by
      intro entry hentry
      exact h entry (List.mem_cons_of_mem _ hentry)
    have hne : kind ≠ first.1 := by
      rintro rfl
      exact Nat.lt_irrefl _ hfirst
    have hnlt : ¬ Nat.blt kind.rank first.1.rank = true := by
      rw [Nat.blt_eq]
      omega
    rw [place, if_neg hnlt, if_neg hne, ih hrest]
    rfl

private theorem setMember?_natural (tally : Tally) (kind : ChangeKind) {count : Nat}
    (h : count < countLimit) :
    tally.setMember? (kind.code, .natural count) = some (tally.set kind count) := by
  simp [setMember?, ChangeKind.ofCode?_code, Json.natBelow?_natural h]

private theorem exists_of_setMember? {tally next : Tally} {member : String × Json}
    (h : tally.setMember? member = some next) :
    ∃ kind count, count < countLimit ∧ next = tally.set kind count := by
  simp only [setMember?, Option.bind_eq_bind, Option.bind_eq_some_iff, Option.pure_def,
    Option.some.injEq] at h
  obtain ⟨kind, -, count, hcount, rfl⟩ := h
  exact ⟨kind, count, Json.lt_of_natBelow? hcount, rfl⟩

private theorem foldlM_entries {entries : List (ChangeKind × Nat)} {before tally : Tally}
    (h : tally.entries = before.entries ++ entries)
    (hc : ∀ entry ∈ entries, entry.2 < countLimit) :
    (entries.map fun (kind, count) => (kind.code, Json.natural count)).foldlM setMember? before =
      some tally := by
  induction entries generalizing before with
  | nil =>
    rw [List.append_nil] at h
    rw [eq_of_entries_eq h]
    rfl
  | cons entry entries ih =>
    obtain ⟨kind, count⟩ := entry
    have hlater : ∀ entry ∈ before.entries, entry.1.rank < kind.rank := by
      intro entry hentry
      have hsorted := tally.sorted
      rw [h, List.pairwise_append] at hsorted
      exact Nat.blt_eq.mp (hsorted.2.2 entry hentry _ List.mem_cons_self)
    have hset : tally.entries = (before.set kind count).entries ++ entries := by
      show tally.entries = place kind count before.entries ++ entries
      rw [h, place_of_lt hlater, List.append_assoc]
      rfl
    have hcount : count < countLimit := hc (kind, count) List.mem_cons_self
    rw [List.map_cons, List.foldlM_cons, before.setMember?_natural kind hcount]
    exact ih hset fun entry hentry => hc entry (List.mem_cons_of_mem _ hentry)

theorem ofJson?_toJson {tally : Tally} (h : ∀ entry ∈ tally.entries, entry.2 < countLimit) :
    ofJson? tally.toJson = some tally :=
  foldlM_entries (List.nil_append _).symm h

theorem isStableAt_toJson {depth : Nat} (hd : depth < Json.maxDepth) {tally : Tally}
    (h : ∀ entry ∈ tally.entries, entry.2 < countLimit) :
    tally.toJson.isStableAt depth = true := by
  apply Json.isStableAt_object hd
  intro member hmember
  obtain ⟨entry, hentry, rfl⟩ := List.mem_map.mp hmember
  exact Json.isStableAt_natural _ (h entry hentry)

private theorem lt_of_foldlM {members : List (String × Json)} {before tally : Tally}
    (h : members.foldlM setMember? before = some tally)
    (hbefore : ∀ entry ∈ before.entries, entry.2 < countLimit) :
    ∀ entry ∈ tally.entries, entry.2 < countLimit := by
  induction members generalizing before with
  | nil =>
    cases h
    exact hbefore
  | cons member members ih =>
    rw [List.foldlM_cons, Option.bind_eq_bind, Option.bind_eq_some_iff] at h
    obtain ⟨next, hnext, hrest⟩ := h
    obtain ⟨kind, count, hcount, rfl⟩ := exists_of_setMember? hnext
    apply ih hrest
    intro entry hentry
    rcases mem_place hentry with rfl | hentry
    · exact hcount
    · exact hbefore entry hentry

private theorem lt_of_ofJson? {json : Json} {tally : Tally} (h : ofJson? json = some tally) :
    ∀ entry ∈ tally.entries, entry.2 < countLimit := by
  cases json with
  | object members => exact lt_of_foldlM h fun entry hentry => absurd hentry List.not_mem_nil
  | _ => exact absurd h (by simp [ofJson?])

end Tally

namespace Summary

structure IsEncodable (summary : Summary) : Prop where
  total : summary.total < countLimit
  destructive : summary.destructive < countLimit
  byKind : ∀ entry ∈ summary.byKind.entries, entry.2 < countLimit

/-- The members of a summary, as they stand in an object. -/
def members (summary : Summary) : List (String × Json) :=
  [("total", .natural summary.total), ("destructive", .natural summary.destructive),
    ("by_kind", summary.byKind.toJson)]

theorem nodup_members (summary : Summary) : (summary.members.map Prod.fst).Nodup :=
  (by decide : ["total", "destructive", "by_kind"].Nodup)

theorem ofJson?_of_provides {json : Json} {summary : Summary} (h : summary.IsEncodable)
    (hjson : json.Provides summary.members) : ofJson? json = some summary := by
  have hslots : Json.slots? ["total", "destructive", "by_kind"] json = _ := hjson
  rw [ofJson?, hslots]
  simp [members, Json.natBelow?_natural h.total, Json.natBelow?_natural h.destructive,
    Tally.ofJson?_toJson h.byKind]

theorem ofJson?_toJson {summary : Summary} (h : summary.IsEncodable) :
    ofJson? summary.toJson = some summary :=
  ofJson?_of_provides h (Json.provides_object summary.nodup_members)

theorem isStableAt_toJson {depth : Nat} (hd : depth + 1 < Json.maxDepth) {summary : Summary}
    (h : summary.IsEncodable) : summary.toJson.isStableAt depth = true := by
  apply Json.isStableAt_object (Nat.lt_of_succ_lt hd)
  intro member hmember
  simp only [List.mem_cons, List.not_mem_nil, or_false] at hmember
  rcases hmember with rfl | rfl | rfl
  · exact Json.isStableAt_natural _ h.total
  · exact Json.isStableAt_natural _ h.destructive
  · exact Tally.isStableAt_toJson hd h.byKind

theorem isEncodable_of_ofJson? {json : Json} {summary : Summary}
    (h : ofJson? json = some summary) : summary.IsEncodable := by
  simp only [ofJson?, Option.bind_eq_bind, Option.bind_eq_some_iff] at h
  obtain ⟨slots, -, h⟩ := h
  split at h
  · simp only [Option.bind_eq_some_iff, Option.pure_def, Option.some.injEq] at h
    obtain ⟨total, htotal, destructive, hdestructive, byKind, hbyKind, rfl⟩ := h
    exact ⟨Json.lt_of_natBelow? htotal, Json.lt_of_natBelow? hdestructive,
      Tally.lt_of_ofJson? hbyKind⟩
  · exact absurd h (by simp)

end Summary

namespace Report

/-- Whether the numbers of a report fit into the bits that are read for them. -/
structure IsEncodable (report : Report) : Prop where
  version : report.version.IsEncodable
  summary : report.summary.IsEncodable
  changes : ∀ change ∈ report.changes, change.IsEncodable

/-- The members of a report, as they stand in an object, over any JSON of its parts. -/
def membersOver (report : Report) (version summary : Json) (changes : List Json) :
    List (String × Json) :=
  [("version", version), ("timestamp", .string report.timestamp),
    ("previous_table", .string report.previousTable),
    ("current_table", .string report.currentTable), ("summary", summary),
    ("changelog", .strings report.changelog), ("changes", .array changes)]

theorem nodup_membersOver (report : Report) (version summary : Json) (changes : List Json) :
    ((report.membersOver version summary changes).map Prod.fst).Nodup :=
  (by decide : memberNames.Nodup)

theorem ofJson?_of_provides {json version summary : Json} {changes : List Json} {report : Report}
    (hversion : Version.ofJson? version = some report.version)
    (hsummary : Summary.ofJson? summary = some report.summary)
    (hchanges : changes.mapM Change.ofJson? = some report.changes)
    (hjson : json.Provides (report.membersOver version summary changes)) :
    ofJson? json = some report := by
  have hslots : json.slots? memberNames = _ := hjson
  rw [ofJson?, hslots]
  simp [membersOver, hversion, hsummary, Json.string?, Json.strings?_strings, Json.items?,
    hchanges]

theorem ofJson?_toJson {report : Report} (h : report.IsEncodable) :
    ofJson? report.toJson = some report := by
  have hchanges : (report.changes.map Change.toJson).mapM Change.ofJson? = some report.changes :=
    Json.mapM_map fun change hchange => Change.ofJson?_toJson (h.changes change hchange)
  apply ofJson?_of_provides (Version.ofJson?_toJson h.version) (Summary.ofJson?_toJson h.summary)
    hchanges
  exact Json.provides_object (report.nodup_membersOver _ _ _)

theorem isStableAt_toJson {report : Report} (h : report.IsEncodable) :
    report.toJson.isStableAt 0 = true := by
  apply Json.isStableAt_object (by decide)
  intro member hmember
  simp only [List.mem_cons, List.not_mem_nil, or_false] at hmember
  rcases hmember with rfl | rfl | rfl | rfl | rfl | rfl | rfl
  · exact Version.isStableAt_toJson (by decide) h.version
  · rfl
  · rfl
  · rfl
  · exact Summary.isStableAt_toJson (by decide) h.summary
  · exact Json.isStableAt_strings (by decide) report.changelog
  · apply Json.isStableAt_array_map (by decide)
    intro change hchange
    exact Change.isStableAt_toJson (by decide) (h.changes change hchange)

theorem isEncodable_of_ofJson? {json : Json} {report : Report} (h : ofJson? json = some report) :
    report.IsEncodable := by
  simp only [ofJson?, Option.bind_eq_bind, Option.bind_eq_some_iff] at h
  obtain ⟨slots, -, h⟩ := h
  split at h
  · simp only [Option.bind_eq_some_iff, Option.pure_def, Option.some.injEq] at h
    obtain ⟨version, hversion, timestamp, -, previousTable, -, currentTable, -, summary, hsummary,
      changelog, -, items, -, changes, hchanges, rfl⟩ := h
    refine ⟨Version.isEncodable_of_ofJson? hversion, Summary.isEncodable_of_ofJson? hsummary, ?_⟩
    intro change hchange
    obtain ⟨item, -, hitem⟩ := Json.exists_of_mem_mapM hchanges hchange
    exact Change.isEncodable_of_ofJson? hitem
  · exact absurd h (by simp)

theorem ofText?_text {report : Report} (h : report.IsEncodable) :
    ofText? report.text = some report := by
  rw [ofText?, text, Json.ofText?_indented (isStableAt_toJson h)]
  exact ofJson?_toJson h

end Report

end TableDelta
