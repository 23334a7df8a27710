import TableDelta.Json.Lexeme
import TableDelta.Proofs.Json.NumberLiteral
import TableDelta.Proofs.Json.StringLiteral
/-!
# Reading back lexemes

A lexeme is read back from the way it is written, and white space in front of it
changes nothing. So all lexemes of a text are read back, however it spaces them, as long
as no number stands next to another.
-/
namespace TableDelta.Json

namespace Lexeme

/-- Whether a lexeme is read back from the way it is written. -/
def isExact : Lexeme → Bool
  | number value => value.natural?.isSome
  | string value => value.isSome
  | _ => true

/-- Whether a lexeme may stand right before a text, which only matters to a number. -/
def canPrecede (rest : List Char) : Lexeme → Bool
  | number _ => endsNumber rest
  | _ => true

def isNumber : Lexeme → Bool
  | number _ => true
  | _ => false

private theorem read_writeLiteral (value : String) (rest : List Char) :
    read (writeLiteral value ++ rest) = some (string (some value), rest) := by
  obtain ⟨parts, hparts, hvalue⟩ := readLiteral_flatMap_escape value.toList rest
  have htext : writeLiteral value ++ rest =
      '"' :: (value.toList.flatMap escape ++ '"' :: rest) := by
    simp [writeLiteral]
  rw [htext, read, hparts]
  simp [hvalue]

private theorem read_digit {digit : Char} (h : digit.isDigit = true) (digits : List Char) :
    read (digit :: digits) =
      (readNumber (digit :: digits)).map fun r => (number r.1, r.2) := by
  unfold read
  split
  case h_11 => rfl
  -- every other lexeme begins with a character that is no digit
  all_goals
    next heq =>
      rw [(List.cons.inj heq).1] at h
      exact absurd h (by decide)

private theorem read_write_natural (n : Nat) {rest : List Char} (hr : endsNumber rest = true) :
    read ((Number.natural n).write ++ rest) = some (number (.natural n), rest) := by
  have hread := readNumber_write_natural n hr
  rw [Number.write_natural] at hread ⊢
  obtain ⟨digit, digits, hd, hdigit⟩ := Text.exists_decimalDigits_eq_cons n
  rw [hd, List.cons_append] at hread ⊢
  rw [read_digit hdigit, hread]
  rfl

theorem read_write {lexeme : Lexeme} {rest : List Char} (hl : lexeme.isExact = true)
    (hr : lexeme.canPrecede rest = true) : read (lexeme.write ++ rest) = some (lexeme, rest) := by
  cases lexeme with
  | number value =>
    obtain ⟨n, hn⟩ := Option.isSome_iff_exists.mp hl
    rw [Number.eq_natural_of_natural? hn]
    exact read_write_natural n hr
  | string value =>
    obtain ⟨text, rfl⟩ := Option.isSome_iff_exists.mp hl
    exact read_writeLiteral text rest
  | bool value => cases value <;> rfl
  | _ => rfl

private theorem exists_write_eq_cons {lexeme : Lexeme} (hl : lexeme.isExact = true) :
    ∃ c cs, lexeme.write = c :: cs ∧ isSpace c = false := by
  cases lexeme with
  | number value =>
    obtain ⟨n, hn⟩ := Option.isSome_iff_exists.mp hl
    obtain ⟨digit, digits, hd, hdigit⟩ := Text.exists_decimalDigits_eq_cons n
    rw [Number.eq_natural_of_natural? hn, write, Number.write_natural]
    refine ⟨digit, digits, hd, ?_⟩
    apply Bool.eq_false_iff.mpr
    intro hspace
    simp only [isSpace, Bool.or_eq_true, beq_iff_eq] at hspace
    rcases hspace with ((rfl | rfl) | rfl) | rfl
    all_goals exact absurd hdigit (by decide)
  | bool value => cases value <;> exact ⟨_, _, rfl, by decide⟩
  | _ => exact ⟨_, _, rfl, by decide⟩

end Lexeme

theorem lexemes?_write {lexeme : Lexeme} {rest : List Char} {lexemes : List Lexeme}
    (hl : lexeme.isExact = true) (hr : lexeme.canPrecede rest = true)
    (h : lexemes? rest = some lexemes) :
    lexemes? (lexeme.write ++ rest) = some (lexeme :: lexemes) := by
  obtain ⟨c, cs, hwrite, hspace⟩ := Lexeme.exists_write_eq_cons hl
  have hread := Lexeme.read_write hl hr
  rw [hwrite, List.cons_append] at hread ⊢
  rw [lexemes?, if_neg (Bool.eq_false_iff.mp hspace)]
  split
  · next hnone =>
    rw [hread] at hnone
    exact absurd hnone (by simp)
  · next hsome =>
    rw [hread, Option.some.injEq, Prod.mk.injEq] at hsome
    rw [← hsome.1, ← hsome.2, h]
    rfl

/-! ## Texts that spell lexemes -/

/-- A text spells some lexemes if it writes them one after the other, with white space
anywhere before, between or behind them. -/
inductive Spells : List Char → List Lexeme → Prop where
  | nil : Spells [] []
  | space {c : Char} {text : List Char} {lexemes : List Lexeme} (hc : isSpace c = true)
      (h : Spells text lexemes) : Spells (c :: text) lexemes
  | lexeme (lexeme : Lexeme) {text : List Char} {lexemes : List Lexeme}
      (h : Spells text lexemes) : Spells (lexeme.write ++ text) (lexeme :: lexemes)

theorem Spells.append_spaces {spaces text : List Char} {lexemes : List Lexeme}
    (hs : ∀ c ∈ spaces, isSpace c = true) (h : Spells text lexemes) :
    Spells (spaces ++ text) lexemes := by
  induction spaces with
  | nil => exact h
  | cons c spaces ih =>
    exact .space (hs c List.mem_cons_self) (ih fun d hd => hs d (List.mem_cons_of_mem _ hd))

theorem Spells.append_write {text : List Char} {after : List Lexeme} (h : Spells text after)
    (lexemes : List Lexeme) : Spells (lexemes.flatMap Lexeme.write ++ text) (lexemes ++ after) := by
  induction lexemes with
  | nil => exact h
  | cons lexeme lexemes ih =>
    rw [List.flatMap_cons, List.append_assoc]
    exact .lexeme lexeme ih

/-- Whether lexemes are read back from any text that spells them: each of them is by itself,
and no number stands next to another. -/
def areReadable : List Lexeme → Bool
  | [] => true
  | lexeme :: lexemes =>
    lexeme.isExact && !(lexeme.isNumber && lexemes.head?.any Lexeme.isNumber) &&
      areReadable lexemes

private theorem endsNumber_write {lexeme : Lexeme} (h : lexeme.isNumber = false)
    (rest : List Char) : endsNumber (lexeme.write ++ rest) = true := by
  cases lexeme with
  | number value => exact absurd h Bool.noConfusion
  | bool value => cases value <;> rfl
  | _ => rfl

private theorem endsNumber_of_isSpace {c : Char} (h : isSpace c = true) (rest : List Char) :
    endsNumber (c :: rest) = true := by
  simp only [isSpace, Bool.or_eq_true, beq_iff_eq] at h
  rcases h with ((rfl | rfl) | rfl) | rfl
  all_goals rfl

theorem Spells.endsNumber {text : List Char} {lexemes : List Lexeme} (h : Spells text lexemes)
    (hn : lexemes.head?.any Lexeme.isNumber = false) : endsNumber text = true := by
  cases h with
  | nil => rfl
  | space hc _ => exact endsNumber_of_isSpace hc _
  | lexeme _ _ => exact endsNumber_write hn _

/-- Whatever white space there is, a text has the lexemes that it spells. -/
theorem lexemes?_of_spells {text : List Char} {lexemes : List Lexeme} (h : Spells text lexemes)
    (hr : areReadable lexemes = true) : lexemes? text = some lexemes := by
  induction h with
  | nil => rw [lexemes?]
  | space hc _ ih =>
    rw [lexemes?, if_pos hc]
    exact ih hr
  | @lexeme lexeme text lexemes hspells ih =>
    rw [areReadable, Bool.and_eq_true, Bool.and_eq_true] at hr
    obtain ⟨⟨hexact, hnumbers⟩, hreadable⟩ := hr
    have hprecede : lexeme.canPrecede text = true := by
      cases lexeme with
      | number value =>
        rw [Lexeme.isNumber, Bool.true_and, Bool.not_eq_true'] at hnumbers
        exact hspells.endsNumber hnumbers
      | _ => rfl
    exact lexemes?_write hexact hprecede (ih hreadable)

end TableDelta.Json
