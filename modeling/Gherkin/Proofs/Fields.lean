import Gherkin.Proofs.Borders
import Gherkin.Proofs.Rows

/-!
The fields of a row.

Behind its opening border a row falls into fields, each with a cell, the border behind it and the padding
which that border owns, and what trails behind the last border. There is such a cut of every text, and the
tokens of a row can be read off it: a row is closed if nothing trails.
-/

namespace Gherkin

namespace Row

/-- What is scanned in a cell ends at the first unescaped pipe. -/
theorem scan_escaped {escaped : Bool} {text : Text}
    (inner : ∀ before behind, text = before ++ '|' :: behind → before.escapesFrom escaped = true)
    (rest : Text) :
    scan (.cell escaped) (text ++ rest) =
      (text ++ (scan (.cell (text.escapesFrom escaped)) rest).1,
        (scan (.cell (text.escapesFrom escaped)) rest).2) := by
  induction text generalizing escaped with
  | nil => rfl
  | cons c more ih =>
      have taken : (State.cell escaped).takes c = true := by
        by_cases pipe : c = '|'
        · have here : escaped = true := inner [] more (by rw [pipe]; rfl)
          simp [State.takes, here]
        · simp [State.takes, pipe]
      rw [List.cons_append, scan, if_pos taken, State.next, ih]
      · rfl
      · intro before behind split
        exact inner (c :: before) behind (by rw [split]; rfl)

theorem inside_of_sealed {text : Text} (closed : text.Sealed) : Inside text := by
  intro rest
  have scanned := scan_escaped (Text.borders_eq_nil_iff.mp closed.single) rest
  rwa [← Text.escapesNext, closed.clear] at scanned

theorem scan_unbordered {text : Text} (none : text.borders = []) :
    scan (.cell false) text = (text, []) := by
  have scanned := scan_escaped (Text.borders_eq_nil_iff.mp none) []
  simpa [scan] using scanned

theorem scan_trailing {state : State} (between : state.Between) {front text : Text}
    (taken : ∀ c ∈ front, state.takes c = true) (stops : ∀ c ∈ text.head?, state.takes c = false)
    (none : text.borders = []) : scan state (front ++ text) = (front, cellPart text) := by
  rw [scan_taken between taken]
  cases text with
  | nil => rw [scan, List.append_nil, cellPart, if_pos rfl]
  | cons c more =>
      have border : c ≠ '|' := by
        rintro rfl
        cases Text.borders_eq_nil_iff.mp none [] more rfl
      rw [scan_enter (stops c rfl) border, scan_unbordered none, List.append_nil]
      rfl

/-! What stands behind the opening border of a row is cut at its unescaped pipes. Each field is a cell,
perhaps an empty one, with the border behind it. -/

/-- A cell, perhaps an empty one, and the padding that the border behind it owns. -/
structure Field where
  cell : Text
  padding : Text
  closed : cell.Sealed
  blank : ∀ c ∈ padding, Text.isBlank c = true

@[simp] theorem flatMap_text_cellPart (text : Text) : (cellPart text).flatMap (·.text) = text := by
  by_cases empty : text = []
  · simp [cellPart, empty]
  · simp [cellPart, empty]

namespace Field

variable (field : Field)

def text : Text :=
  field.cell ++ '|' :: field.padding

def parts : List Part :=
  cellPart field.cell ++ [⟨.pipe, '|' :: field.padding⟩]

theorem flatMap_text_parts : field.parts.flatMap (·.text) = field.text := by
  simp [parts, text]

theorem escapesNext_text : field.text.escapesNext = false := by
  have border : Text.escapesNext ('|' :: field.padding) = false := by
    rw [← List.singleton_append, Text.escapesNext_append rfl]
    exact (Text.sealed_of_blank field.blank).clear
  rw [text, Text.escapesNext_append field.closed.clear, border]

theorem escapesNext_texts (fields : List Field) : Text.escapesNext (fields.flatMap text) = false := by
  induction fields with
  | nil => rfl
  | cons field others ih =>
      rw [List.flatMap_cons, Text.escapesNext_append field.escapesNext_text, ih]

theorem length_borders (fields : List Field) :
    (Text.borders (fields.flatMap text)).length = fields.length := by
  induction fields with
  | nil => rfl
  | cons field others ih =>
      have border : field.text.borders.length = 1 := by
        rw [text, field.closed.borders_pipe, (Text.sealed_of_blank field.blank).single]
        rfl
      rw [List.flatMap_cons, Text.borders_append field.escapesNext_text, List.length_append, border,
        List.length_map, ih, List.length_cons, Nat.add_comm]

end Field

/-- What stands behind a border falls into fields and what trails behind the last border. Padding goes as
far as there are spaces and tabs. -/
inductive Cut : Text → List Field → Text → Prop where
  | trailing {text : Text} (none : text.borders = []) : Cut text [] text
  | field {field : Field} {rest trailing : Text} {fields : List Field}
      (tight : ∀ c ∈ rest.head?, Text.isBlank c = false) (later : Cut rest fields trailing) :
      Cut (field.text ++ rest) (field :: fields) trailing

theorem exists_fields (text : Text) : ∃ fields trailing, Cut text fields trailing := by
  rcases text.exists_sealed with none | ⟨cell, rest, split, closed⟩
  · exact ⟨[], text, .trailing none⟩
  · have shorter : (rest.dropWhile Text.isBlank).length < text.length := by
      have bound : (rest.dropWhile Text.isBlank).length ≤ rest.length :=
        (List.dropWhile_sublist Text.isBlank).length_le
      rw [split, List.length_append, List.length_cons]
      omega
    obtain ⟨fields, trailing, later⟩ := exists_fields (rest.dropWhile Text.isBlank)
    let field : Field :=
      ⟨cell, rest.takeWhile Text.isBlank, closed, fun c inside => List.mem_takeWhile_imp inside⟩
    have joined : text = field.text ++ rest.dropWhile Text.isBlank := by
      simp [field, Field.text, split]
    exact ⟨field :: fields, trailing, joined ▸ .field (Text.head?_dropBlank rest) later⟩
termination_by text.length

namespace Cut

variable {text trailing : Text} {fields : List Field}

theorem text_eq (cut : Cut text fields trailing) :
    text = fields.flatMap Field.text ++ trailing := by
  induction cut with
  | trailing => rfl
  | field _ _ ih => rw [List.flatMap_cons, List.append_assoc, ← ih]

theorem unbordered (cut : Cut text fields trailing) : trailing.borders = [] := by
  induction cut with
  | trailing none => exact none
  | field _ _ ih => exact ih

/-- What trails behind a border begins with what the border does not own. -/
theorem tight (cut : Cut text fields trailing) (filled : fields ≠ []) :
    ∀ c ∈ trailing.head?, Text.isBlank c = false := by
  induction cut with
  | trailing => exact absurd rfl filled
  | field tight later ih =>
      cases later with
      | trailing => exact tight
      | field inner further => exact ih (List.cons_ne_nil _ _)

/-- A scan in front of a cut takes what the state takes and then goes field by field. -/
theorem scan_eq {state : State} (between : state.Between) {front : Text}
    (taken : ∀ c ∈ front, state.takes c = true) (stops : ∀ c ∈ text.head?, state.takes c = false)
    (cut : Cut text fields trailing) :
    scan state (front ++ text) = (front, fields.flatMap Field.parts ++ cellPart trailing) := by
  induction cut generalizing state front with
  | trailing none => exact scan_trailing between taken stops none
  | @field field rest trailing fields tight _ ih =>
      have begins : ∀ c ∈ field.cell.head?, state.takes c = false ∧ c ≠ '|' := by
        intro c first
        refine ⟨stops c ?_, field.closed.head? c first⟩
        rw [Option.mem_def] at first ⊢
        simp [Field.text, List.head?_append, first]
      have whole : field.text ++ rest = field.cell ++ '|' :: (field.padding ++ rest) := by
        simp [Field.text]
      have padded := ih .border field.blank tight
      rw [whole, scan_cell between taken begins (inside_of_sealed field.closed), padded]
      simp [Field.parts]

end Cut

theorem layout_cellPart (location : Location) (text : Text) :
    layout location (cellPart text) = if text = [] then [] else [⟨.cell, text, location⟩] := by
  rw [cellPart]
  split <;> rfl

/-- The tokens of a field are the cell, if there is one, and the border behind it. -/
theorem Field.layout_parts (field : Field) (location : Location) :
    layout location field.parts = layout location (cellPart field.cell) ++
      [⟨.pipe, '|' :: field.padding, location.shift field.cell.length⟩] := by
  rw [parts, layout_append, flatMap_text_cellPart]
  rfl

theorem parts_of_cut {text trailing : Text} {fields : List Field} (cut : Cut text fields trailing) :
    parts text = fields.flatMap Field.parts ++ cellPart trailing := by
  have nothing : ∀ c ∈ ([] : Text), State.opening.takes c = true := by simp
  have scanned := cut.scan_eq .opening nothing (fun _ _ => rfl)
  rw [List.nil_append] at scanned
  rw [parts, scanned]

theorem Field.texts_parts (fields : List Field) :
    (fields.flatMap parts).flatMap (·.text) = fields.flatMap text := by
  rw [List.flatMap_assoc]
  exact congrArg (List.flatMap · fields) (funext flatMap_text_parts)

theorem layout_of_cut {text : Text} {fields : List Field} (cut : Cut text fields []) (start : Location)
    (ending : Text) :
    layout start (⟨.pipe, ['|']⟩ :: fields.flatMap Field.parts ++ [⟨.eol, ending⟩]) =
      ⟨.pipe, ['|'], start⟩ :: (layout (start.shift 1) (fields.flatMap Field.parts) ++
        [⟨.eol, ending, start.shift (text.length + 1)⟩]) := by
  have whole : text = fields.flatMap Field.text := by simpa using cut.text_eq
  rw [layout_append, List.flatMap_cons, Field.texts_parts, ← whole]
  rfl

theorem tokens_of_cut {text trailing : Text} {fields : List Field} (cut : Cut text fields trailing)
    (start : Location) (ending : Text) :
    tokens start ending ('|' :: text) =
      if trailing = [] then
        .ok (layout start (⟨.pipe, ['|']⟩ :: fields.flatMap Field.parts ++ [⟨.eol, ending⟩]))
      else .error (.unterminatedTableRow start.line) := by
  rw [tokens, parts_of_cut cut]
  by_cases closed : trailing = []
  · have border : ∀ text, (fields.flatMap Field.parts ++ cellPart trailing).getLast? ≠
        some ⟨.cell, text⟩ := by
      intro text last
      rw [closed, cellPart, if_pos rfl, List.append_nil] at last
      rcases List.eq_nil_or_concat fields with rfl | ⟨before, field, rfl⟩
      · cases last
      · simp [Field.parts] at last
    rw [if_pos closed]
    split
    · rename_i text last
      exact absurd last (border text)
    · simp [closed, cellPart]
  · rw [if_neg closed, cellPart, if_neg closed, List.getLast?_concat]

def Field.cells (border place : Location) : List Field → List TableCell
  | [] => []
  | field :: others =>
      (if field.cell = [] then ⟨[], border⟩ else .ofToken ⟨.cell, field.cell, place⟩) ::
        cells (place.shift field.cell.length) (place.shift field.text.length) others

theorem Field.length_cells (border place : Location) (fields : List Field) :
    (Field.cells border place fields).length = fields.length := by
  induction fields generalizing border place with
  | nil => rfl
  | cons field others ih => rw [cells, List.length_cons, List.length_cons, ih]

/-- The tokens of fields derive their cells and no others. -/
theorem cells_of_derivesCells {fields : List Field} {border place : Location} {eol : Token}
    {behind rest : List Token} {cells : List TableCell} (ends : eol.kind = .eol)
    (derived : DerivesCells border (layout place (fields.flatMap Field.parts) ++ eol :: behind) cells
      rest) : cells = Field.cells border place fields := by
  induction fields generalizing border place cells with
  | nil =>
      rw [List.flatMap_nil, layout, List.nil_append] at derived
      cases derived with
      | ending => rfl
      | empty closes => rw [ends] at closes; cases closes
      | filled opens => rw [ends] at opens; cases opens
  | cons field others ih =>
      rw [List.flatMap_cons, layout_append, Field.layout_parts, layout_cellPart,
        Field.flatMap_text_parts, List.append_assoc] at derived
      generalize same : layout _ (others.flatMap Field.parts) ++ eol :: behind = more at derived
      by_cases empty : field.cell = []
      · simp only [if_pos empty, List.nil_append, List.cons_append] at derived
        cases derived with
        | ending closes => cases closes
        | empty _ later =>
            subst same
            rw [ih later, Field.cells, if_pos empty]
        | filled opens => cases opens
      · simp only [if_neg empty, List.nil_append, List.cons_append] at derived
        cases derived with
        | ending closes => cases closes
        | empty border => cases border
        | filled _ _ later =>
            subst same
            rw [ih later, Field.cells, if_neg empty]

/-- A row is read off the fields of its text. -/
theorem row_of_tokens {start : Location} {ending text : Text} {own behind rest : List Token}
    {row : TableRow} (read : tokens start ending text = .ok own)
    (derived : DerivesRow (own ++ behind) row rest) :
    ∃ inner fields, text = '|' :: inner ∧ Cut inner fields [] ∧
      row = ⟨Field.cells start (start.shift 1) fields, start⟩ := by
  obtain ⟨inner, rfl, _⟩ := tokens_eq_ok start ending text own read
  obtain ⟨fields, trailing, cut⟩ := exists_fields inner
  rw [tokens_of_cut cut] at read
  by_cases closed : trailing = []
  · subst closed
    rw [if_pos rfl, layout_of_cut cut] at read
    cases read
    refine ⟨inner, fields, rfl, cut, ?_⟩
    simp only [List.cons_append, List.append_assoc, List.nil_append] at derived
    cases derived with
    | intro _ filled => rw [cells_of_derivesCells rfl filled]
  · rw [if_neg closed] at read
    cases read

end Row

end Gherkin
