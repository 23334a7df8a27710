import TableDelta.Toml.Reader
import Mathlib.Data.List.Nodup
/-!
# The table under one heading

A document of one heading and single keys below it, no two of them equal, is the table
that holds the values in the order of their lines.
-/
namespace TableDelta.Toml

/-- A member as an entry whose path is a single key. -/
def entryOf (member : String × Toml) : List String × Toml := ([member.1], member.2)

/-- The line of a single key and its value. -/
def entryLine (member : String × Toml) : Line := .entry [member.1] member.2

namespace Node

/-- What stands at the keys of a table before the document is finished. -/
def ofMember (member : String × Toml) : String × Node := (member.1, .value member.2)

private theorem finishedMembers_map_ofMember (members : List (String × Toml)) :
    finishedMembers (members.map ofMember) = members := by
  induction members with
  | nil => rfl
  | cons member members ih =>
    rw [List.map_cons, ofMember, finishedMembers, finished, ih]

private theorem alter_of_notMem {key : String} {change : Option Node → Option Node} {node : Node}
    (hchange : change none = some node) {members : List (String × Node)}
    (hkey : key ∉ members.map Prod.fst) :
    alter key change members = some (members ++ [(key, node)]) := by
  induction members with
  | nil => simp [alter, hchange]
  | cons member members ih =>
    rw [List.map_cons, List.mem_cons, not_or] at hkey
    have hne : (member.1 == key) = false := by simp [Ne.symm hkey.1]
    rw [alter, hne, ih hkey.2]
    rfl

private theorem insertAll_of_nodup (added members : List (String × Toml))
    (hkeys : ((members ++ added).map Prod.fst).Nodup) :
    insertAll (added.map entryOf) (members.map ofMember) =
      some ((members ++ added).map ofMember) := by
  -- Each member is put behind the ones so far, so these grow along the list of entries.
  induction added generalizing members with
  | nil => simp [insertAll]
  | cons member added ih =>
    have hnew : member.1 ∉ (members.map ofMember).map Prod.fst := by
      rw [List.map_append, List.map_cons, List.nodup_middle, List.nodup_cons,
        List.mem_append, not_or] at hkeys
      rw [List.map_map]
      exact hkeys.1.1
    have hinsert : insert member.2 [member.1] (members.map ofMember) =
        some ((members ++ [member]).map ofMember) := by
      rw [List.map_append]
      exact alter_of_notMem rfl hnew
    have hrest := ih (members ++ [member]) (by simpa using hkeys)
    rw [List.append_assoc] at hrest
    rw [List.map_cons, entryOf, insertAll, List.foldlM_cons, hinsert]
    exact hrest

private theorem openTable_of_nodup (key : String) {members : List (String × Toml)}
    (hkeys : (members.map Prod.fst).Nodup) :
    openTable [key] (members.map entryOf) [] =
      some [(key, .table .opened (members.map ofMember))] := by
  have hmembers : insertAll (members.map entryOf) [] = some (members.map ofMember) :=
    insertAll_of_nodup members [] hkeys
  exact alter_of_notMem (by rw [hmembers]; rfl) List.not_mem_nil

end Node

private theorem leadingEntries_map_entryLine (members : List (String × Toml)) :
    leadingEntries (members.map entryLine) = members.map entryOf := by
  induction members with
  | nil => rfl
  | cons member members ih =>
    rw [List.map_cons, entryLine, leadingEntries, ih, List.map_cons, entryOf]

private theorem addHeadings_map_entryLine (members : List (String × Toml))
    (nodes : List (String × Node)) :
    addHeadings (members.map entryLine) nodes = some nodes := by
  induction members with
  | nil => rfl
  | cons member members ih => simpa [entryLine, addHeadings] using ih

theorem ofLines?_heading (key : String) {members : List (String × Toml)}
    (hkeys : (members.map Prod.fst).Nodup) :
    ofLines? (.table [key] :: members.map entryLine) = some (.table [(key, .table members)]) := by
  have hheadings : addHeadings (.table [key] :: members.map entryLine) [] =
      some [(key, .table .opened (members.map Node.ofMember))] := by
    rw [addHeadings, leadingEntries_map_entryLine, Node.openTable_of_nodup key hkeys]
    exact addHeadings_map_entryLine members _
  have hleading : Node.insertAll (leadingEntries (.table [key] :: members.map entryLine)) [] =
      some [] := rfl
  rw [ofLines?, hleading]
  simp only [Option.bind_eq_bind, Option.bind_some, hheadings, Node.finishedMembers,
    Node.finished, Node.finishedMembers_map_ofMember]
  rfl

end TableDelta.Toml
