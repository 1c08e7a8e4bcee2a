import Gherkin.Proofs.CaseOrder
import Gherkin.Proofs.Culprits
import Gherkin.Proofs.Fields

/-!
Tables are well formed.

A table begins behind a token that no border can follow on its line, and so does every row of it. Hence
each row is read off all tokens of one line, and has a cell for each border of the line but the first. The
rows of a table are as wide as its first row, where the table stands. Putting in values changes neither the
number of rows and cells nor where they stand.
-/

namespace Gherkin

def Step.tables (step : Step) : List DataTable :=
  match step.argument with
  | some (.dataTable table) => [table]
  | _ => []

def Part.tables : Part → List DataTable
  | heading _ _ => []
  | step action => action.tables
  | examples table => [table]

def Feature.tables (feature : Feature) : List DataTable :=
  feature.parts.flatMap Part.tables

/-! A table begins only where no row goes on. Every production that can stand in front of one ends with a
whole line. -/

/-- Behind these tokens no row goes on. -/
def Unbroken (front : List Token) : Prop :=
  ∀ token ∈ front.getLast?, token.kind.precedes .pipe = false

theorem unbroken_nil : Unbroken [] := by
  simp [Unbroken]

theorem Unbroken.append {front later : List Token} (first : Unbroken front) (second : Unbroken later) :
    Unbroken (front ++ later) := by
  intro token last
  rw [List.getLast?_append] at last
  cases ends : later.getLast? with
  | none => exact first token (by simpa [ends] using last)
  | some other => exact second token (by simpa [ends] using last)

theorem Unbroken.of_append {front later : List Token} (whole : Unbroken (front ++ later)) :
    Unbroken later := by
  intro token last
  apply whole token
  rw [List.getLast?_append, Option.mem_def.mp last]
  rfl

theorem unbroken_concat {token : Token} (ends : token.kind.precedes .pipe = false)
    (front : List Token) : Unbroken (front ++ [token]) := by
  intro other last
  rw [List.getLast?_concat] at last
  cases last
  exact ends

theorem unbroken_of_forall {tokens : List Token}
    (plain : ∀ token ∈ tokens, token.kind.precedes .pipe = false) : Unbroken tokens :=
  fun token last => plain token (List.mem_of_getLast? last)

def Begins {α : Type} (item : Production α) (tokens : List Token) (value : α) : Prop :=
  ∃ front start rest, tokens = front ++ start ∧ Unbroken front ∧ item start value rest

theorem Begins.behind {α : Type} {item : Production α} {front tokens : List Token} {value : α}
    (begins : Begins item tokens value) (unbroken : Unbroken front) :
    Begins item (front ++ tokens) value := by
  obtain ⟨more, start, rest, rfl, clear, derived⟩ := begins
  exact ⟨front ++ more, start, rest, by simp, unbroken.append clear, derived⟩

/-- Every row ends its line, so the next one begins another. -/
theorem rows_begin {tokens rest : List Token} {rows : List TableRow}
    (derived : Many DerivesRow tokens rows rest) :
    (∃ taken, taken ++ rest = tokens ∧ Unbroken taken) ∧
      ∀ row ∈ rows, Begins DerivesRow tokens row := by
  induction derived with
  | nil => exact ⟨⟨[], rfl, unbroken_nil⟩, by simp⟩
  | @cons tokens middle rest row rows first _ ih =>
      obtain ⟨⟨taken, joined, clear⟩, begins⟩ := ih
      have here : ∃ own, own ++ middle = tokens ∧ Unbroken own := by
        cases first with
        | @intro pipe _ _ _ _ filled =>
            obtain ⟨eol, kind, cells, split⟩ := filled.ends
            refine ⟨pipe :: cells ++ [eol], by simp [← split], ?_⟩
            exact unbroken_concat (by rw [kind]; rfl) _
      obtain ⟨own, split, ends⟩ := here
      constructor
      · exact ⟨own ++ taken, by rw [List.append_assoc, joined, split], ends.append clear⟩
      · intro other member
        rcases List.mem_cons.mp member with rfl | later
        · exact ⟨[], tokens, middle, rfl, unbroken_nil, first⟩
        · rw [← split]
          exact (begins other later).behind ends

/-- Stretches that end where no row goes on, and in which tables begin at such places. -/
def Lined : Listing := fun tokens parts rest =>
  (∃ taken, taken ++ rest = tokens ∧ Unbroken taken) ∧
    ∀ table ∈ parts.flatMap Part.tables, Begins DerivesTable tokens table

def Spans.Borderless (tokens rest : List Token) : Prop :=
  Spans (fun kind => kind.precedes .pipe = false) tokens rest

theorem Spans.Borderless.lined {tokens rest : List Token} {parts : List Part}
    (spans : Spans.Borderless tokens rest) (bare : parts.flatMap Part.tables = []) :
    Lined tokens parts rest := by
  obtain ⟨taken, joined, plain⟩ := spans
  exact ⟨⟨taken, joined, unbroken_of_forall plain⟩, by simp [bare]⟩

theorem Lined.trans {tokens middle rest : List Token} {parts others : List Part}
    (first : Lined tokens parts middle) (second : Lined middle others rest) :
    Lined tokens (parts ++ others) rest := by
  obtain ⟨⟨left, rfl, before⟩, early⟩ := first
  obtain ⟨⟨right, rfl, after⟩, late⟩ := second
  refine ⟨⟨left ++ right, List.append_assoc .., before.append after⟩, ?_⟩
  intro table member
  rw [List.flatMap_append, List.mem_append] at member
  rcases member with here | there
  · exact early table here
  · exact (late table there).behind before

theorem DerivesTable.lined {tokens rest : List Token} {table : DataTable} {part : Part}
    (derived : DerivesTable tokens table rest) (held : part.tables = [table]) :
    Lined tokens [part] rest := by
  have begins : Begins DerivesTable tokens table := ⟨[], tokens, rest, rfl, unbroken_nil, derived⟩
  cases derived with
  | intro filled _ => exact ⟨(rows_begin filled).1, by simpa [held] using begins⟩

theorem DerivesArgument.lined {blocks : List Block} {tokens rest : List Token} {step : Step}
    (derived : DerivesArgument blocks tokens step.argument rest) : Lined tokens [.step step] rest := by
  obtain ⟨keyword, role, name, argument, location⟩ := step
  cases derived with
  | absent => exact Spans.Borderless.lined (.refl _) rfl
  | table here => exact here.lined rfl
  | docString _ here =>
      cases here with
      | intro verbatim =>
          have spans : Spans.Borderless _ rest :=
            ⟨_, rfl, fun token member => by rw [verbatim token member]; rfl⟩
          exact spans.lined rfl

theorem DerivesHeading.lined {keyword : BlockKeyword} {tokens rest : List Token} {heading : Heading}
    (derived : DerivesHeading keyword DerivesOptionalName tokens heading rest) :
    Lined tokens [.heading keyword heading] rest := by
  obtain ⟨head, between, rfl, opens, plain⟩ := derived.headed
  have inner : Spans.Borderless (between ++ rest) rest := by
    refine ⟨between, rfl, fun token member => ?_⟩
    have kind := plain token member
    cases shown : token.kind <;> simp_all [TokenKind.isHeading, TokenKind.precedes]
  exact Spans.Borderless.lined (inner.cons (by rw [opens]; rfl)) rfl

theorem lined_of_name {token name : Token} (tokens : List Token) (opens : token.kind = .step)
    (named : name.kind = .name) : Lined (token :: name :: tokens) [] tokens := by
  have spans : Spans.Borderless (token :: name :: tokens) tokens :=
    .cons (by rw [opens]; rfl) (.cons (by rw [named]; rfl) (.refl tokens))
  exact spans.lined rfl

theorem DerivesTags.lined {tokens rest : List Token} {tags : List Tag}
    (derived : DerivesTags tokens tags rest) : Lined tokens [] rest := by
  have spans : Spans.Borderless tokens rest :=
    derived.spans.imp (by rintro kind (rfl | rfl) <;> rfl)
  exact spans.lined rfl

theorem lists_lined {grammar : Grammar} {blocks : List Block}
    (known : ∀ {name tokens argument rest}, grammar.argument name tokens argument rest →
      DerivesArgument blocks tokens argument rest) : grammar.Lists Lined where
  refl tokens := Spans.Borderless.lined (.refl tokens) rfl
  trans := Lined.trans
  tags := DerivesTags.lined
  heading := DerivesHeading.lined
  step _ opens named takes := (lined_of_name _ opens named).trans (known takes).lined
  table derived _ := derived.lined rfl

namespace Mode

variable {setup : Setup} {mode after last : Mode} {line : Line} {lines : List Line}
  {tokens : List Token}

/-- A border that continues no row is the first token of its line. -/
theorem Step.row_of_pipe (step : Step setup mode line tokens after) {front more : List Token}
    {pipe : Token} (split : uncommented tokens = front ++ pipe :: more) (kind : pipe.kind = .pipe)
    (unbroken : Unbroken front) :
    front = [] ∧ Row.tokens line.start line.ending.text line.body = .ok (uncommented tokens) := by
  have member : pipe ∈ tokens := ((mem_uncommented tokens pipe).mp (by simp [split])).1
  have chain := step.onLine.chain
  cases step with
  | closing | blank | opening => cases member
  | verbatim | comment | header =>
      rw [List.mem_singleton.mp member] at kind
      cases kind
  | content _ _ filled read =>
      have shape := Line.shape_of_precedes read member (by rw [kind]; rfl)
      rw [uncommented_of_content filled read] at split ⊢
      rw [shape] at read
      refine ⟨?_, read⟩
      rcases List.eq_nil_or_concat front with rfl | ⟨before, other, rfl⟩
      · rfl
      · rw [List.concat_eq_append] at split unbroken
        rw [split, List.map_append, List.map_append, List.map_cons] at chain
        have precedes := (List.isChain_append.mp chain).2.2 other.kind (by simp) pipe.kind (by simp)
        rw [kind, unbroken other (by simp)] at precedes
        cases precedes

theorem Run.row_of_pipe (run : Run setup mode lines tokens last) {closing front more : List Token}
    {pipe : Token} (split : uncommented tokens ++ closing = front ++ pipe :: more)
    (kind : pipe.kind = .pipe) (absent : pipe ∉ closing) (unbroken : Unbroken front) :
    ∃ line ∈ lines, ∃ own behind, Row.tokens line.start line.ending.text line.body = .ok own ∧
      pipe :: more = own ++ behind := by
  induction run generalizing front with
  | nil =>
      have inside : pipe ∈ front ++ pipe :: more := by simp
      rw [← split] at inside
      exact absurd inside absent
  | @cons mode after last line rest tokens later step _ ih =>
      rw [uncommented_append, List.append_assoc] at split
      have below {inner : List Token} (same : uncommented later ++ closing = inner ++ pipe :: more)
          (clear : Unbroken inner) : ∃ other ∈ line :: rest, ∃ own behind,
          Row.tokens other.start other.ending.text other.body = .ok own ∧ pipe :: more = own ++ behind := by
        obtain ⟨other, member, found⟩ := ih same clear
        exact ⟨other, List.mem_cons_of_mem line member, found⟩
      rcases List.append_eq_append_iff.mp split with ⟨inner, rfl, same⟩ | ⟨inner, own, same⟩
      · exact below same unbroken.of_append
      · cases inner with
        | nil => exact @below [] same.symm unbroken_nil
        | cons token others =>
            obtain ⟨rfl, behind⟩ := List.cons.inj same
            obtain ⟨rfl, read⟩ := step.row_of_pipe own kind unbroken
            exact ⟨line, List.mem_cons_self, _, _, read, by rw [own, List.nil_append]; exact same⟩

end Mode

def Line.Holds (line : Line) (row : TableRow) : Prop :=
  ∃ inner fields, line.body = '|' :: inner ∧ Row.Cut inner fields [] ∧
    row = ⟨Row.Field.cells line.start (line.start.shift 1) fields, line.start⟩

theorem holds_of_begins {setup : Setup} {text : Text} {tokens : List Token} {last : Mode}
    (reads : Mode.Reads setup (.initial setup) (Line.split text) tokens (.ok last)) {row : TableRow}
    (begins : Begins DerivesRow (presented text tokens) row) : ∃ line ∈ Line.split text, line.Holds row := by
  obtain ⟨front, start, rest, split, unbroken, derived⟩ := begins
  have whole := derived
  cases derived with
  | @intro pipe more _ cells opens filled =>
      have absent : pipe ∉ [(⟨.eof, [], Line.finish (Line.split text)⟩ : Token)] := by
        rw [List.mem_singleton]
        rintro rfl
        cases opens
      obtain ⟨line, member, own, behind, read, same⟩ :=
        reads.run.1.row_of_pipe split opens absent unbroken
      rw [same] at whole
      exact ⟨line, member, Row.row_of_tokens read whole⟩

namespace Line

theorem sealed_margin (line : Line) : Text.Sealed (line.content.takeWhile Text.isSpace) :=
  Text.sealed_of_space fun _ inside => List.mem_takeWhile_imp inside

theorem sealed_ending (line : Line) : line.ending.text.Sealed :=
  Text.sealed_of_space fun _ inside => line.ending.isSpace_of_mem inside

theorem Holds.length_borders {line : Line} {row : TableRow} (holds : line.Holds row) :
    row.cells.length + 1 = line.raw.borders.length := by
  obtain ⟨inner, fields, body, cut, rfl⟩ := holds
  have whole : inner = fields.flatMap Row.Field.text := by simpa using cut.text_eq
  rw [raw_eq, body, List.append_assoc, List.cons_append, line.sealed_margin.borders_pipe, whole,
    Text.borders_append (Row.Field.escapesNext_texts fields), line.sealed_ending.single]
  simp [Row.Field.length_cells, Row.Field.length_borders]

end Line

/-- A table of some rows, all as wide as the first, each of which has a line of the text to itself and a
cell behind all borders there but the last. -/
structure DataTable.WellFormed (text : Text) (table : DataTable) : Prop where
  filled : table.rows ≠ []
  even : ∀ row ∈ table.rows, ∀ other ∈ table.rows, row.cells.length = other.cells.length
  place : table.rows.head?.map (·.location) = some table.location
  bordered : ∀ row ∈ table.rows, ∃ line, text.line? row.location.line = some line ∧
    row.cells.length + 1 = line.borders.length

section Reading

variable {setup : Setup} {text : Text} {tokens : List Token} {last : Mode} {table : DataTable}
  (reads : Mode.Reads setup (.initial setup) (Line.split text) tokens (.ok last))
  (begins : Begins DerivesTable (presented text tokens) table)

include reads begins

theorem holds_of_mem_rows {row : TableRow} (member : row ∈ table.rows) :
    ∃ line : Line, text.line? row.location.line = some line.raw ∧ line.number = row.location.line ∧
      line.Holds row := by
  obtain ⟨front, start, rest, split, unbroken, derived⟩ := begins
  cases derived with
  | intro filled _ =>
      have begins := ((rows_begin filled).2 row member).behind unbroken
      rw [← split] at begins
      obtain ⟨line, inText, holds⟩ := holds_of_begins reads begins
      have place : line.start = row.location := by
        obtain ⟨_, _, _, _, rfl⟩ := holds
        rfl
      have number : line.number = row.location.line := congrArg Location.line place
      exact ⟨line, number ▸ Line.line?_of_mem inText, number, holds⟩

theorem wellFormed_of_begins : table.WellFormed text := by
  have rows := fun row (member : row ∈ table.rows) => holds_of_mem_rows reads begins member
  obtain ⟨front, start, rest, split, unbroken, derived⟩ := begins
  cases derived with
  | @intro _ _ first others filled even =>
      constructor
      case filled => exact List.cons_ne_nil _ _
      case even =>
        have same : ∀ row ∈ first :: others, row.cells.length = first.cells.length := by
          intro row member
          rcases List.mem_cons.mp member with rfl | later
          · rfl
          · exact even row later
        intro row member other otherMember
        rw [same row member, same other otherMember]
      case place => rfl
      case bordered =>
        intro row member
        obtain ⟨line, here, _, holds⟩ := rows row member
        exact ⟨line.raw, here, holds.length_borders⟩

end Reading

/-- The tables of an accepted document. -/
theorem tables_of_parse {setup : Setup} {text : Text} {feature : Feature}
    (parsed : parse setup text = .ok feature) :
    ∃ tokens last, Mode.Reads setup (.initial setup) (Line.split text) tokens (.ok last) ∧
      ∀ table ∈ feature.tables, Begins DerivesTable (presented text tokens) table := by
  obtain ⟨tokens, last, reads, derived⟩ := derives_of_parse parsed
  obtain ⟨_, _, _, begins⟩ := (lists_lined fun takes => takes).document derived
  exact ⟨tokens, last, reads, begins⟩

def DataTable.frame (table : DataTable) : DataTable :=
  { table with
    rows := table.rows.map fun row =>
      { row with cells := row.cells.map fun cell => { cell with value := [] } } }

def frames (steps : List Step) : List (List DataTable) :=
  steps.map fun step => step.tables.map DataTable.frame

/-- A step keeps the frame of its table when it loses its texts. -/
theorem Step.tables_shape (step : Step) : step.shape.tables = step.tables.map DataTable.frame := by
  obtain ⟨keyword, role, name, argument, location⟩ := step
  match argument with
  | none => rfl
  | some (.dataTable table) => rfl
  | some (.docString doc) => rfl

theorem frames_testCase (feature : Feature) (origin : Origin) :
    frames (origin.testCase feature).steps =
      frames (origin.background feature ++ origin.scenario.steps) := by
  have shapes := congrArg (List.map Step.tables) (shape_testCase feature origin)
  simpa only [frames, List.map_map, Function.comp_def, Step.tables_shape] using shapes

/-- Tables are not empty, have rows of one width, stand where their first row does, and have a cell behind
each border of a row's line but the last; the columns of examples have different names. What a test case
takes over from the steps of backgrounds and scenarios has the same rows and cells at the same places. -/
theorem wellFormed_of_parse (setup : Setup) (text : Text) (feature : Feature)
    (parsed : parse setup text = .ok feature) :
    (∀ table ∈ feature.tables, table.WellFormed text) ∧
    (∀ definition ∈ feature.definitions, ∀ examples ∈ definition.examples,
      examples.table ∈ feature.tables ∧
        ∀ header ∈ examples.table.rows.head?, header.values.Nodup) ∧
    ∀ tests, feature.compile = .ok tests →
      tests.map (fun test => frames test.steps) = feature.origins.map fun origin =>
        frames (origin.background feature ++ origin.scenario.steps) := by
  obtain ⟨tokens, last, reads, begins⟩ := tables_of_parse parsed
  obtain ⟨_, _, _, _, derived, _⟩ := parts_of_parse parsed
  refine ⟨fun table member => wellFormed_of_begins reads (begins table member), ?_, ?_⟩
  · intro definition among examples held
    cases definition with
    | scenario plain => cases held
    | outline template =>
        have part : .examples examples.table ∈ feature.parts := by
          apply Feature.mem_parts_of_outline among
          apply List.mem_append_right
          exact List.mem_flatMap.mpr ⟨examples, held, by simp [Examples.parts]⟩
        refine ⟨List.mem_flatMap.mpr ⟨_, part, List.mem_singleton_self _⟩, ?_⟩
        cases derived _ part with
        | examples _ _ distinct => exact distinct
  · intro tests compiled
    rw [Feature.testCases_of_compile compiled, List.map_map]
    exact List.map_congr_left fun origin _ => frames_testCase feature origin

def tabledText : Text :=
  "Feature: f\n  Background:\n    Given a\n      | x \\| y | |\n      # c\n\n      |  | \\\\| \n  Scenario Outline: o\n    When b\n      | <n> |\n    Examples:\n      | n | m |\n      | 1 | 2 |\n".toList

theorem wellFormed_tabledText :
    ∃ feature tests, parse .standard tabledText = .ok feature ∧ feature.compile = .ok tests ∧
      feature.tables.map (fun table => table.rows.map (·.cells.length)) = [[2, 2], [1], [2, 2]] ∧
      (∀ table ∈ feature.tables, table.WellFormed tabledText) ∧
      tests.map (fun test => frames test.steps) = feature.origins.map fun origin =>
        frames (origin.background feature ++ origin.scenario.steps) := by
  have outcome : (parse .standard tabledText).toOption.map (fun feature =>
      (feature.tables.map fun table => table.rows.map (·.cells.length),
        feature.compile.toOption.map List.length)) = some ([[2, 2], [1], [2, 2]], some 1) := by
    decide +kernel
  obtain ⟨feature, parsed, shown⟩ := exists_of_outcome outcome
  obtain ⟨widths, compiles⟩ := Prod.mk.inj shown
  obtain ⟨tests, compiled, _⟩ := exists_of_outcome compiles
  obtain ⟨wellFormed, _, kept⟩ := wellFormed_of_parse .standard tabledText feature parsed
  exact ⟨feature, tests, parsed, compiled, widths, wellFormed, kept tests compiled⟩

end Gherkin
