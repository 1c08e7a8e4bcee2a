import Gherkin.Proofs.Productions
import Mathlib.Data.List.TakeWhile

/-!
Rows that are written and read again.

Any text can be the value of a cell: backslashes, pipes and line feeds are written as escapes, and spaces
and tabs can stand around the value, provided that it has none at its own ends. The border in front of a
cell takes the padding there except in the first cell, whose border is a bare pipe, and in an empty cell
it takes all of it. Wherever the padding goes, the cells read have the values written.
-/

namespace Gherkin

namespace TableCell

def escapeChar (c : Char) : Text :=
  if c = '\\' then ['\\', '\\'] else if c = '|' then ['\\', '|'] else if c = '\n' then ['\\', 'n']
  else [c]

def escape (value : Text) : Text :=
  value.flatMap escapeChar

theorem escapeChar_cases (c : Char) :
    (∃ d, escapeChar c = ['\\', d] ∧ (d = '\\' ∨ d = '|' ∨ d = 'n')) ∨
      escapeChar c = [c] ∧ c ≠ '\\' ∧ c ≠ '|' ∧ c ≠ '\n' := by
  unfold escapeChar
  by_cases backslash : c = '\\'
  · simp [backslash]
  · by_cases pipe : c = '|'
    · simp [pipe]
    · by_cases feed : c = '\n'
      · simp [feed]
      · simp [backslash, pipe, feed]

theorem unescape_cons {c : Char} (plain : c ≠ '\\') (rest : Text) :
    unescape (c :: rest) = c :: unescape rest := by
  rw [unescape]
  all_goals simp [plain]

theorem unescape_escape (value : Text) : unescape (escape value) = value := by
  induction value with
  | nil => rfl
  | cons c rest ih =>
      rw [escape, List.flatMap_cons, ← escape]
      unfold escapeChar
      by_cases backslash : c = '\\'
      · simp [backslash, unescape, ih]
      · by_cases pipe : c = '|'
        · simp [pipe, unescape, ih]
        · by_cases feed : c = '\n'
          · simp [feed, unescape, ih]
          · simp [backslash, pipe, feed, unescape_cons, ih]

theorem escape_eq_nil_iff {value : Text} : escape value = [] ↔ value = [] := by
  cases value with
  | nil => simp [escape]
  | cons c rest =>
      rcases escapeChar_cases c with ⟨d, spelled, _⟩ | ⟨spelled, _⟩
      · simp [escape, spelled]
      · simp [escape, spelled]

/-- An escape begins and ends with characters that are no padding. -/
theorem head?_escape {value : Text} (bare : ∀ c ∈ value.head?, Text.isBlank c = false) :
    ∀ c ∈ (escape value).head?, Text.isBlank c = false ∧ c ≠ '|' := by
  cases value with
  | nil => simp [escape]
  | cons c rest =>
      rcases escapeChar_cases c with ⟨d, spelled, _⟩ | ⟨spelled, _, pipe, _⟩
      · simp [escape, spelled, Text.isBlank]
      · simpa [escape, spelled, pipe] using bare

theorem getLast?_escape {value : Text} (bare : ∀ c ∈ value.getLast?, Text.isBlank c = false) :
    ∀ c ∈ (escape value).getLast?, Text.isBlank c = false := by
  rcases List.eq_nil_or_concat value with rfl | ⟨before, last, rfl⟩
  · simp [escape]
  · rw [List.concat_eq_append] at bare ⊢
    rw [escape, List.flatMap_append]
    rcases escapeChar_cases last with ⟨d, spelled, rfl | rfl | rfl⟩ | ⟨spelled, _⟩
    · simp [spelled, Text.isBlank]
    · simp [spelled, Text.isBlank]
    · simp [spelled, Text.isBlank]
    · simpa [spelled] using bare

theorem feed_notMem_escape (value : Text) : '\n' ∉ escape value := by
  intro inside
  obtain ⟨c, _, held⟩ := List.mem_flatMap.mp inside
  rcases escapeChar_cases c with ⟨d, spelled, rfl | rfl | rfl⟩ | ⟨spelled, _, _, feed⟩
  · simp [spelled] at held
  · simp [spelled] at held
  · simp [spelled] at held
  · rw [spelled, List.mem_singleton] at held
    exact feed held.symm

end TableCell

/-- A value that is neither begun nor ended by a space or tab, and runs of them to be put around it. -/
structure PaddedCell where
  left : Text
  value : Text
  right : Text
  padding : ∀ c ∈ left ++ right, Text.isBlank c = true
  head : ∀ c ∈ value.head?, Text.isBlank c = false
  last : ∀ c ∈ value.getLast?, Text.isBlank c = false

namespace PaddedCell

variable (cell : PaddedCell)

def text : Text :=
  cell.left ++ (TableCell.escape cell.value ++ cell.right)

theorem left_blank : ∀ c ∈ cell.left, Text.isBlank c = true :=
  fun c inside => cell.padding c (List.mem_append_left _ inside)

theorem right_blank : ∀ c ∈ cell.right, Text.isBlank c = true :=
  fun c inside => cell.padding c (List.mem_append_right _ inside)

theorem feed_notMem_text : '\n' ∉ cell.text := by
  have padding : '\n' ∉ cell.left ++ cell.right := by
    intro inside
    cases cell.padding _ inside
  have value := TableCell.feed_notMem_escape cell.value
  rw [text]
  simp only [List.mem_append, not_or] at padding ⊢
  exact ⟨padding.1, value, padding.2⟩

theorem value_of_text_eq_nil (empty : cell.text = []) : cell.value = [] := by
  have written := (List.append_eq_nil_iff.mp (List.append_eq_nil_iff.mp empty).2).1
  exact TableCell.escape_eq_nil_iff.mp written

theorem head?_text : ∀ c ∈ cell.text.head?, c ≠ '|' := by
  have blank : ∀ c, Text.isBlank c = true → c ≠ '|' := by
    rintro c blank rfl
    cases blank
  have rest : ∀ c ∈ (TableCell.escape cell.value ++ cell.right).head?, c ≠ '|' := by
    intro c first
    cases written : TableCell.escape cell.value with
    | nil =>
        rw [written] at first
        exact blank c (cell.right_blank c (List.mem_of_head? first))
    | cons d more =>
        rw [written] at first
        have begins : c ∈ (TableCell.escape cell.value).head? := by
          rw [written]
          exact first
        exact (TableCell.head?_escape cell.head c begins).2
  intro c first
  rw [text] at first
  cases padded : cell.left with
  | nil =>
      rw [padded] at first
      exact rest c first
  | cons d more =>
      have begins : c ∈ cell.left.head? := by
        rw [padded] at first ⊢
        exact first
      exact blank c (cell.left_blank c (List.mem_of_head? begins))

end PaddedCell

theorem Text.dropTrailing_append_of_all {p : Char → Bool} (text : Text) {dropped : Text}
    (all : ∀ c ∈ dropped, p c = true) : dropTrailing p (text ++ dropped) = dropTrailing p text := by
  induction dropped generalizing text with
  | nil => rw [List.append_nil]
  | cons c rest ih =>
      obtain ⟨here, later⟩ := List.forall_mem_cons.mp all
      rw [List.append_cons, ih _ later, dropTrailing_concat text here]

/-- What is read from a cell, whether the padding in front of it stands in its text or not. -/
theorem PaddedCell.value_ofToken (cell : PaddedCell) {token : Token} {front : Text}
    (blank : ∀ c ∈ front, Text.isBlank c = true)
    (spell : token.text = front ++ (TableCell.escape cell.value ++ cell.right)) :
    (TableCell.ofToken token).value = cell.value := by
  have trimmed : Text.dropTrailing Text.isBlank (token.text.dropWhile Text.isBlank) =
      TableCell.escape cell.value := by
    rw [spell, List.dropWhile_append_of_pos blank]
    cases written : TableCell.escape cell.value with
    | nil =>
        rw [List.nil_append, List.dropWhile_eq_nil_iff.mpr cell.right_blank]
        rfl
    | cons c rest =>
        have solid := TableCell.head?_escape cell.head c (by rw [written]; rfl)
        rw [List.cons_append, List.dropWhile_cons_of_neg (by simp [solid.1]), ← List.cons_append,
          ← written, Text.dropTrailing_append_of_all _ cell.right_blank]
        exact Text.dropTrailing_eq_self _ _ (TableCell.getLast?_escape cell.last)
  rw [TableCell.ofToken, trimmed]
  exact TableCell.unescape_escape cell.value

/-! The scan of a written row is followed state by state: a cell takes its characters up to the border behind
it, and a border takes its padding. -/

namespace Row

def between (cells : List PaddedCell) : Text :=
  cells.flatMap fun cell => cell.text ++ ['|']

def written (cells : List PaddedCell) : Text :=
  '|' :: between cells

/-- A row is a single line and ends with a border. -/
theorem feed_notMem_written (cells : List PaddedCell) : '\n' ∉ written cells := by
  intro inside
  rcases List.mem_cons.mp inside with border | inside
  · cases border
  · obtain ⟨cell, _, held⟩ := List.mem_flatMap.mp inside
    exact cell.feed_notMem_text (by simpa using held)

theorem getLast?_written (cells : List PaddedCell) : (written cells).getLast? = some '|' := by
  rcases List.eq_nil_or_concat cells with rfl | ⟨before, last, rfl⟩
  · rfl
  · have ends : written (before.concat last) = (written before ++ last.text) ++ ['|'] := by
      simp [written, between]
    rw [ends, List.getLast?_concat]

/-- A text that does not end the cell it stands in. -/
def Inside (text : Text) : Prop :=
  ∀ rest, scan (.cell false) (text ++ rest) =
    (text ++ (scan (.cell false) rest).1, (scan (.cell false) rest).2)

theorem Inside.append {front text : Text} (first : Inside front) (second : Inside text) :
    Inside (front ++ text) := by
  intro rest
  rw [List.append_assoc, first, second, List.append_assoc]

theorem inside_nil : Inside [] :=
  fun _ => rfl

theorem inside_singleton {c : Char} (border : c ≠ '|') (plain : c ≠ '\\') : Inside [c] := by
  intro rest
  simp [scan, State.takes, State.next, border, plain]

theorem inside_escapeChar (c : Char) : Inside (TableCell.escapeChar c) := by
  rcases TableCell.escapeChar_cases c with ⟨d, spelled, _⟩ | ⟨spelled, plain, border, _⟩
  · intro rest
    simp [spelled, scan, State.takes, State.next]
  · exact spelled ▸ inside_singleton border plain

theorem inside_escape (value : Text) : Inside (TableCell.escape value) := by
  induction value with
  | nil => exact inside_nil
  | cons c rest ih => exact (inside_escapeChar c).append ih

theorem inside_blank {text : Text} (blank : ∀ c ∈ text, Text.isBlank c = true) : Inside text := by
  induction text with
  | nil => exact inside_nil
  | cons c rest ih =>
      obtain ⟨here, later⟩ := List.forall_mem_cons.mp blank
      have border : c ≠ '|' := by
        rintro rfl
        cases here
      have plain : c ≠ '\\' := by
        rintro rfl
        cases here
      exact (inside_singleton border plain).append (ih later)

inductive State.Between : State → Prop where
  | opening : Between .opening
  | border : Between .border

theorem State.Between.takes_pipe {state : State} (between : state.Between) :
    state.takes '|' = false := by
  cases between <;> rfl

theorem State.Between.next_eq {state : State} (between : state.Between) (c : Char) :
    state.next c = state := by
  cases between <;> rfl

/-- What begins a cell is scanned as if the cell had begun before. -/
theorem scan_enter {state : State} {c : Char} (stops : state.takes c = false) (border : c ≠ '|')
    (rest : Text) :
    scan state (c :: rest) =
      ([], ⟨.cell, (scan (.cell false) (c :: rest)).1⟩ :: (scan (.cell false) (c :: rest)).2) := by
  have entered : State.enter c = (State.cell false).next c := by
    simp [State.enter, State.next, border]
  have taken : (State.cell false).takes c = true := by simp [State.takes, border]
  have kind : kindOf c = .cell := if_neg border
  rw [scan, if_neg (by simp [stops]), scan, if_pos taken, entered, kind]

def cellPart (text : Text) : List Part :=
  if text = [] then [] else [⟨.cell, text⟩]

section

variable {state : State} (between : state.Between)

include between

theorem scan_pipe (rest : Text) : scan state ('|' :: rest) =
    ([], ⟨.pipe, '|' :: (scan .border rest).1⟩ :: (scan .border rest).2) := by
  rw [scan, if_neg (by simp [between.takes_pipe])]
  rfl

/-- A state between two cells takes all it can before it looks further. -/
theorem scan_taken {front : Text} (taken : ∀ c ∈ front, state.takes c = true) (rest : Text) :
    scan state (front ++ rest) = (front ++ (scan state rest).1, (scan state rest).2) := by
  induction front with
  | nil => rfl
  | cons c more ih =>
      obtain ⟨here, later⟩ := List.forall_mem_cons.mp taken
      rw [List.cons_append, scan, if_pos here, between.next_eq, ih later]
      rfl

theorem scan_cell {front text : Text} (taken : ∀ c ∈ front, state.takes c = true)
    (stops : ∀ c ∈ text.head?, state.takes c = false ∧ c ≠ '|') (inside : Inside text) (rest : Text) :
    scan state (front ++ (text ++ '|' :: rest)) =
      (front, cellPart text ++ ⟨.pipe, '|' :: (scan .border rest).1⟩ :: (scan .border rest).2) := by
  rw [scan_taken between taken]
  cases text with
  | nil =>
      rw [List.nil_append, scan_pipe between, List.append_nil]
      rfl
  | cons c more =>
      obtain ⟨stop, border⟩ := stops c rfl
      have closed : scan (.cell false) ('|' :: rest) =
          ([], ⟨.pipe, '|' :: (scan .border rest).1⟩ :: (scan .border rest).2) := rfl
      rw [List.cons_append, scan_enter stop border, ← List.cons_append, inside, closed, List.append_nil,
        List.append_nil]
      rfl

/-- The padding of a cell that joins the border in front of it, and what is left for the cell itself. -/
theorem exists_cut (cell : PaddedCell) : ∃ front text, cell.text = front ++ text ∧
    (∀ c ∈ front, state.takes c = true) ∧ (∀ c ∈ text.head?, state.takes c = false ∧ c ≠ '|') ∧
    Inside text ∧
    (text = [] ∧ cell.value = [] ∨
      text ≠ [] ∧ ∀ token : Token, token.text = text → (TableCell.ofToken token).value = cell.value) := by
  have rest := (inside_escape cell.value).append (inside_blank cell.right_blank)
  cases between with
  | opening =>
      have whole := (inside_blank cell.left_blank).append rest
      have spelled : ∀ token : Token, token.text = cell.text →
          (TableCell.ofToken token).value = cell.value :=
        fun token spell => cell.value_ofToken cell.left_blank spell
      refine ⟨[], cell.text, rfl, by simp, fun c first => ⟨rfl, cell.head?_text c first⟩, whole, ?_⟩
      by_cases empty : cell.text = []
      · exact Or.inl ⟨empty, cell.value_of_text_eq_nil empty⟩
      · exact Or.inr ⟨empty, spelled⟩
  | border =>
      by_cases empty : cell.value = []
      · -- The border takes the padding on both sides.
        have spell : cell.text = cell.left ++ cell.right := by
          rw [PaddedCell.text, empty]
          rfl
        exact ⟨cell.left ++ cell.right, [], by rw [spell, List.append_nil], cell.padding, by simp,
          inside_nil, Or.inl ⟨rfl, empty⟩⟩
      · have filled : TableCell.escape cell.value ≠ [] :=
          fun none => empty (TableCell.escape_eq_nil_iff.mp none)
        refine ⟨cell.left, TableCell.escape cell.value ++ cell.right, rfl, cell.left_blank, ?_, rest,
          Or.inr ⟨by simp [filled], ?_⟩⟩
        · rw [List.head?_append_of_ne_nil _ filled]
          exact TableCell.head?_escape cell.head
        · intro token spell
          have nothing : ∀ c ∈ ([] : Text), Text.isBlank c = true := by simp
          exact cell.value_ofToken nothing spell

end

/-- The parts behind the opening border of a row end with a border and derive cells with the values
written. -/
theorem derivesCells_scan {state : State} (clear : state.Between) (cells : List PaddedCell)
    (ending : Text) (location border : Location) :
    (∀ part ∈ (scan state (between cells)).2.getLast?, part.kind = .pipe) ∧
    ∃ found : List TableCell, found.map (·.value) = cells.map (·.value) ∧ ∀ rest,
      DerivesCells border (layout location ((scan state (between cells)).2 ++ [⟨.eol, ending⟩]) ++ rest)
        found rest := by
  induction cells generalizing state location border with
  | nil =>
      have nothing : scan state (between []) = ([], []) := by rw [between, List.flatMap_nil, scan]
      rw [nothing]
      exact ⟨by simp, [], rfl, fun rest => .ending rfl⟩
  | cons cell cells ih =>
      obtain ⟨front, text, spell, taken, stops, inside, held⟩ := exists_cut clear cell
      have parts : (scan state (between (cell :: cells))).2 =
          cellPart text ++ ⟨.pipe, '|' :: (scan .border (between cells)).1⟩ ::
            (scan .border (between cells)).2 := by
        have row : between (cell :: cells) = front ++ (text ++ '|' :: between cells) := by
          simp [between, spell]
        rw [row, scan_cell clear taken stops inside]
      have next := ih .border
      rw [parts]
      constructor
      · intro part last
        rw [List.getLast?_append, List.getLast?_cons] at last
        cases final : (scan .border (between cells)).2.getLast? with
        | none =>
            rw [final] at last
            cases last
            rfl
        | some other =>
            rw [final] at last
            cases last
            exact (next location border).1 _ final
      · -- A cell of padding alone has no part of its own: the border behind it stands for it.
        rcases held with ⟨rfl, empty⟩ | ⟨filled, spelled⟩
        · obtain ⟨found, values, derived⟩ := (next (location.shift
            ('|' :: (scan .border (between cells)).1).length) location).2
          refine ⟨⟨[], border⟩ :: found, by rw [List.map_cons, List.map_cons, values, empty], ?_⟩
          exact fun rest => .empty rfl (derived rest)
        · have part : cellPart text = [⟨.cell, text⟩] := if_neg filled
          obtain ⟨found, values, derived⟩ := (next ((location.shift text.length).shift
            ('|' :: (scan .border (between cells)).1).length) (location.shift text.length)).2
          rw [part]
          refine ⟨.ofToken ⟨.cell, text, location⟩ :: found, ?_, ?_⟩
          · rw [List.map_cons, List.map_cons, values, spelled _ rfl]
          · exact fun rest => .filled rfl rfl (derived rest)

/-- A row that is written is tokenized and derives a row of the values written. -/
theorem tokens_written (cells : List PaddedCell) (start : Location) (ending : Text) :
    ∃ tokens row, Row.tokens start ending (written cells) = .ok tokens ∧
      row.values = cells.map (·.value) ∧ row.location = start ∧
      ∀ rest, DerivesRow (tokens ++ rest) row rest := by
  obtain ⟨closed, found, values, derived⟩ :=
    derivesCells_scan .opening cells ending (start.shift 1) start
  have whole : ∀ rest, DerivesRow
      (layout start (⟨.pipe, ['|']⟩ :: parts (between cells) ++ [⟨.eol, ending⟩]) ++ rest)
      ⟨found, start⟩ rest :=
    fun rest => @DerivesRow.intro ⟨.pipe, ['|'], start⟩ _ rest found rfl (derived rest)
  refine ⟨_, ⟨found, start⟩, ?_, values, rfl, whole⟩
  have border : ∀ text, (parts (between cells)).getLast? ≠ some ⟨.cell, text⟩ := by
    intro text last
    cases closed _ last
  have row : written cells = '|' :: between cells := rfl
  rw [row, Row.tokens]
  split
  · rename_i text last
    exact absurd last (border text)
  · rfl

end Row

end Gherkin
