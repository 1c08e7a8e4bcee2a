import Gherkin.Proofs.Tables

/-!
Where cells stand.

A cell with a value stands at its first character that is no padding, and an empty cell at the border in
front of it. There is one exception. The first border of a row owns no padding, so blanks behind it are
the text of a cell, and if there is nothing else in that cell, it stands behind them, at the border that
closes it.
-/

namespace Gherkin

namespace TableCell

def spelled (raw : Text) : Text :=
  unescape (Text.dropTrailing Text.isBlank (raw.dropWhile Text.isBlank))

theorem unescape_ne_nil (c : Char) (rest : Text) : unescape (c :: rest) ≠ [] := by
  by_cases plain : c = '\\'
  · subst plain
    cases rest with
    | nil => simp [unescape]
    | cons d more =>
        by_cases pipe : d = '|'
        · simp [pipe, unescape]
        · by_cases backslash : d = '\\'
          · simp [backslash, unescape]
          · by_cases letter : d = 'n'
            · simp [letter, unescape]
            · rw [unescape]
              all_goals simp_all
  · rw [unescape_cons plain]
    exact List.cons_ne_nil _ _

theorem spelled_eq_nil_iff {raw : Text} : spelled raw = [] ↔ ∀ c ∈ raw, Text.isBlank c = true := by
  constructor
  · intro empty
    have trimmed : Text.dropTrailing Text.isBlank (raw.dropWhile Text.isBlank) = [] := by
      rw [spelled] at empty
      cases kept : Text.dropTrailing Text.isBlank (raw.dropWhile Text.isBlank) with
      | nil => rfl
      | cons c rest => exact absurd (kept ▸ empty) (unescape_ne_nil c rest)
    have blank := Text.of_dropTrailing_eq_nil _ _ trimmed
    apply List.dropWhile_eq_nil_iff.mp
    cases inner : raw.dropWhile Text.isBlank with
    | nil => rfl
    | cons c rest =>
        have stops := Text.head?_dropBlank raw c (by rw [inner]; rfl)
        rw [blank c (by rw [inner]; exact List.mem_cons_self)] at stops
        cases stops
  · intro blank
    rw [spelled, List.dropWhile_eq_nil_iff.mpr blank]
    rfl

theorem spelled_append {padding : Text} (blank : ∀ c ∈ padding, Text.isBlank c = true) (raw : Text) :
    spelled (padding ++ raw) = spelled raw := by
  rw [spelled, List.dropWhile_append_of_pos blank, ← spelled]

end TableCell

/-! A border is counted from the start of its line, and the cell with the same index stands behind it. Padding
between them belongs to the border, except to the first one, which owns none. -/

/-- What stands between a border of a line, given by its index, and the next one. -/
structure Row.Gap (line : Text) (index : Nat) (front raw behind : Text) : Prop where
  split : line = front ++ '|' :: (raw ++ '|' :: behind)
  clear : front.escapesNext = false
  nth : front.borders.length = index
  closed : raw.Sealed

/-- How a cell stands on a line, which has the given number: it spells what stands between the border with
its own index and the next one. -/
structure TableCell.Stands (line : Text) (number index : Nat) (cell : TableCell)
    (front raw behind : Text) : Prop extends Row.Gap line index front raw behind where
  value : cell.value = spelled raw
  filled : cell.value ≠ [] →
    cell.location = ⟨number, front.length + 2 + (raw.takeWhile Text.isBlank).length⟩
  empty : cell.value = [] → index ≠ 0 ∨ raw = [] → cell.location = ⟨number, front.length + 1⟩
  displaced : cell.value = [] → index = 0 → raw ≠ [] →
    cell.location = ⟨number, front.length + 2 + raw.length⟩

/-- A border of a line by its index, with the padding it owns. The first border owns none, any other all
there is. -/
structure Row.Border (line : Text) (index : Nat) (front padding rest : Text) : Prop where
  split : line = front ++ '|' :: (padding ++ rest)
  clear : front.escapesNext = false
  nth : front.borders.length = index
  blank : ∀ c ∈ padding, Text.isBlank c = true
  bare : index = 0 → padding = []
  tight : index ≠ 0 → ∀ c ∈ rest.head?, Text.isBlank c = false

namespace Row.Border

variable {line front padding rest : Text} {index : Nat} {field : Field}
  (border : Border line index front padding (field.text ++ rest))

include border

theorem gap : Gap line index front (padding ++ field.cell) (field.padding ++ rest) where
  split := by simp [border.split, Field.text]
  clear := border.clear
  nth := border.nth
  closed := (Text.sealed_of_blank border.blank).append field.closed

theorem next (tight : ∀ c ∈ rest.head?, Text.isBlank c = false) :
    Border line (index + 1) (front ++ '|' :: (padding ++ field.cell)) field.padding rest where
  split := by simp [border.split, Field.text]
  clear := by
    rw [Text.escapesNext_append border.clear, ← List.singleton_append, Text.escapesNext_append rfl]
    exact border.gap.closed.clear
  nth := by
    have alone : Text.borders ('|' :: (padding ++ field.cell)) = [0] := by
      rw [← List.nil_append ('|' :: _), Text.sealed_nil.borders_pipe, border.gap.closed.single]
      rfl
    rw [Text.borders_append border.clear, List.length_append, border.nth, alone]
    rfl
  blank := field.blank
  bare := by simp
  tight _ := tight

/-- The cell of the field behind a border. -/
theorem stands (number : Nat) :
    TableCell.Stands line number index
      (if field.cell = [] then ⟨[], ⟨number, front.length + 1⟩⟩
        else .ofToken ⟨.cell, field.cell, ⟨number, front.length + 2 + padding.length⟩⟩)
      front (padding ++ field.cell) (field.padding ++ rest) := by
  have spells : TableCell.spelled (padding ++ field.cell) = TableCell.spelled field.cell :=
    TableCell.spelled_append border.blank field.cell
  by_cases bare : field.cell = []
  · rw [if_pos bare]
    constructor
    case toGap => exact border.gap
    case value =>
      rw [spells, bare]
      rfl
    case filled => simp
    case empty => exact fun _ _ => rfl
    case displaced =>
      intro _ first raw
      exact absurd (by rw [border.bare first, bare]; rfl) raw
  · rw [if_neg bare]
    constructor
    case toGap => exact border.gap
    case value => exact spells.symm
    case filled =>
      intro _
      rw [List.takeWhile_append_of_pos border.blank, List.length_append]
      simp [TableCell.ofToken, Location.shift]
      omega
    case empty =>
      -- Behind any border but the first a cell begins with something to be spelled.
      intro nothing inner
      have blank := TableCell.spelled_eq_nil_iff.mp nothing
      obtain ⟨c, more, text⟩ := List.exists_cons_of_ne_nil bare
      rcases inner with later | empty
      · have solid := border.tight later c (by simp [Field.text, text])
        rw [blank c (by simp [text])] at solid
        cases solid
      · exact absurd (List.append_eq_nil_iff.mp empty).2 bare
    case displaced =>
      intro nothing first _
      have blank := TableCell.spelled_eq_nil_iff.mp nothing
      have whole : field.cell.takeWhile Text.isBlank = field.cell := List.takeWhile_eq_self_iff.mpr blank
      simp [TableCell.ofToken, Location.shift, whole, border.bare first]

end Row.Border

theorem stands_of_cut {text tail : Text} {fields : List Row.Field} (cut : Row.Cut text fields [])
    (ends : ∀ c ∈ tail.head?, Text.isBlank c = false) {line front padding : Text} {index number : Nat}
    (border : Row.Border line index front padding (text ++ tail)) {offset : Nat} {cell : TableCell}
    (found : (Row.Field.cells ⟨number, front.length + 1⟩ ⟨number, front.length + 2 + padding.length⟩
      fields)[offset]? = some cell) :
    ∃ front raw behind, cell.Stands line number (index + offset) front raw behind := by
  generalize none : ([] : Text) = trailing at cut
  induction cut generalizing front padding index offset with
  | trailing => simp [Row.Field.cells] at found
  | @field field rest trailing fields tight later ih =>
      rw [List.append_assoc] at border
      cases offset with
      | zero =>
          rw [Row.Field.cells, List.getElem?_cons_zero] at found
          cases found
          exact ⟨_, _, _, border.stands number⟩
      | succ offset =>
          rw [Row.Field.cells, List.getElem?_cons_succ] at found
          have more : ∀ c ∈ (rest ++ tail).head?, Text.isBlank c = false := by
            cases rest with
            | nil => exact ends
            | cons c others => exact tight
          have place : (⟨number, front.length + 2 + padding.length⟩ : Location).shift field.cell.length =
              ⟨number, (front ++ '|' :: (padding ++ field.cell)).length + 1⟩ := by
            simp [Location.shift]
            omega
          have behind : (⟨number, front.length + 2 + padding.length⟩ : Location).shift field.text.length =
              ⟨number, (front ++ '|' :: (padding ++ field.cell)).length + 2 + field.padding.length⟩ := by
            simp [Location.shift, Row.Field.text]
            omega
          rw [place, behind] at found
          have stands := ih (border.next more) found none
          rwa [Nat.add_right_comm, Nat.add_assoc] at stands

theorem Line.Holds.stands {line : Line} {row : TableRow} (holds : line.Holds row) {index : Nat}
    {cell : TableCell} (found : row.cells[index]? = some cell) :
    ∃ front raw behind, cell.Stands line.raw line.number index front raw behind := by
  obtain ⟨inner, fields, body, cut, rfl⟩ := holds
  have border : Row.Border line.raw 0 (line.content.takeWhile Text.isSpace) []
      (inner ++ line.ending.text) := by
    constructor
    case split => simp [raw_eq, body]
    case clear => exact line.sealed_margin.clear
    case nth => rw [line.sealed_margin.single, List.length_nil]
    case blank => simp
    case bare => exact fun _ => rfl
    case tight => exact fun later => absurd rfl later
  have ends : ∀ c ∈ line.ending.text.head?, Text.isBlank c = false := by
    cases line.ending <;> simp [LineBreak.text, Text.isBlank]
  obtain ⟨front, raw, behind, stands⟩ := stands_of_cut cut ends border found
  rw [Nat.zero_add] at stands
  exact ⟨front, raw, behind, stands⟩

/-- Every cell of an accepted document stands at its first character that is no padding or, if it is
empty, at the border in front of it; but a first cell of nothing but padding stands at the border behind. -/
theorem cells_stand (setup : Setup) (text : Text) (feature : Feature)
    (parsed : parse setup text = .ok feature) :
    ∀ table ∈ feature.tables, ∀ row ∈ table.rows, ∃ line,
      text.line? row.location.line = some line ∧
        ∀ (index : Nat) (cell : TableCell), row.cells[index]? = some cell →
          ∃ front raw behind, cell.Stands line row.location.line index front raw behind := by
  intro table listed row member
  obtain ⟨tokens, last, reads, begins⟩ := tables_of_parse parsed
  obtain ⟨line, here, number, holds⟩ := holds_of_mem_rows reads (begins table listed) member
  exact ⟨line.raw, here, fun index cell found => number ▸ holds.stands found⟩

def paddedText : Text :=
  "Feature: f\n  Scenario: s\n    Given a\n      ||\t|  x \\| y  |  |\n      |  | \\\\| |z|\n".toList

theorem cells_stand_paddedText :
    ∃ feature, parse .standard paddedText = .ok feature ∧
      feature.tables.map (fun table => table.rows.map fun row => row.cells.map (·.location)) =
        [[[⟨4, 7⟩, ⟨4, 8⟩, ⟨4, 13⟩, ⟨4, 21⟩], [⟨5, 10⟩, ⟨5, 12⟩, ⟨5, 14⟩, ⟨5, 17⟩]]] ∧
      ∀ table ∈ feature.tables, ∀ row ∈ table.rows, ∃ line,
        paddedText.line? row.location.line = some line ∧
          ∀ (index : Nat) (cell : TableCell), row.cells[index]? = some cell →
            ∃ front raw behind, cell.Stands line row.location.line index front raw behind := by
  have outcome : (parse .standard paddedText).toOption.map (fun feature =>
      feature.tables.map fun table => table.rows.map fun row => row.cells.map (·.location)) =
      some [[[⟨4, 7⟩, ⟨4, 8⟩, ⟨4, 13⟩, ⟨4, 21⟩], [⟨5, 10⟩, ⟨5, 12⟩, ⟨5, 14⟩, ⟨5, 17⟩]]] := by
    decide +kernel
  obtain ⟨feature, parsed, places⟩ := exists_of_outcome outcome
  exact ⟨feature, parsed, places, cells_stand .standard paddedText feature parsed⟩

def displacedText : Text :=
  "Feature: f\n  Scenario: s\n    Given a\n      |  | b |\n".toList

/-- An empty cell need not stand at the border that opens it. -/
theorem cell_displaced :
    ∃ feature table row cell line front raw behind, parse .standard displacedText = .ok feature ∧
      table ∈ feature.tables ∧ row ∈ table.rows ∧ row.cells[0]? = some cell ∧ cell.value = [] ∧
      displacedText.line? row.location.line = some line ∧ Row.Gap line 0 front raw behind ∧
      cell.location ≠ ⟨row.location.line, front.length + 1⟩ := by
  have outcome : (parse .standard displacedText).toOption.map (fun feature =>
      feature.tables.map (·.rows)) =
      some [[⟨[⟨[], ⟨4, 10⟩⟩, ⟨['b'], ⟨4, 12⟩⟩], ⟨4, 7⟩⟩]] := by decide +kernel
  obtain ⟨feature, parsed, tables⟩ := exists_of_outcome outcome
  obtain ⟨table, held, rows⟩ := List.mem_map.mp (tables ▸ List.mem_singleton_self _)
  have padding : Text.Sealed [' ', ' '] := Text.sealed_of_blank (by simp [Text.isBlank])
  have gap : Row.Gap "      |  | b |\n".toList 0 "      ".toList [' ', ' '] " b |\n".toList :=
    ⟨rfl, by decide, by decide, padding⟩
  exact ⟨feature, table, _, ⟨[], ⟨4, 10⟩⟩, _, _, _, _, parsed, held,
    rows ▸ List.mem_singleton_self _, rfl, rfl, by decide +kernel, gap, by decide⟩

end Gherkin
