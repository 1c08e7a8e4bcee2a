import Gherkin.Grammar.Document
import Gherkin.Reader.Basic
import Gherkin.TestCase

/-!
Changes of a document that keep its meaning.

Some edits of a document move its lines down, push all of them to the right, or touch nothing but the
lines of doc strings. A `Change` says what becomes of the places in the document and of these lines,
and so what becomes of everything that is made from the document: its doc strings, the tree, the test
cases and the errors.
-/

namespace Gherkin

structure Change where
  line : Nat → Nat
  /-- How much further to the right everything stands. -/
  indent : Nat
  /-- What becomes of a line of a doc string, less the indentation of the doc string. -/
  verbatim : Text → Text

namespace Change

variable (change : Change)

def location (location : Location) : Location :=
  ⟨change.line location.line, location.column + change.indent⟩

theorem location_shift (place : Location) (count : Nat) :
    change.location (place.shift count) = (change.location place).shift count := by
  simp only [location, Location.shift, Nat.add_right_comm]

def tag (tag : Tag) : Tag :=
  { tag with location := change.location tag.location }

def cell (cell : TableCell) : TableCell :=
  { cell with location := change.location cell.location }

def row (row : TableRow) : TableRow :=
  ⟨row.cells.map change.cell, change.location row.location⟩

def table (table : DataTable) : DataTable :=
  ⟨table.rows.map change.row, change.location table.location⟩

def docString (doc : DocString) : DocString where
  lines := doc.lines.map change.verbatim
  delimiter := doc.delimiter
  indent := doc.indent + change.indent
  location := change.location doc.location

def argument : StepArgument → StepArgument
  | .dataTable table => .dataTable (change.table table)
  | .docString doc => .docString (change.docString doc)

def step (step : Step) : Step :=
  { step with
    argument := step.argument.map change.argument
    location := change.location step.location }

def heading (heading : Heading) : Heading :=
  { heading with location := change.location heading.location }

def background (background : Background) : Background where
  toHeading := change.heading background.toHeading
  steps := background.steps.map change.step

def scenario (scenario : Scenario) : Scenario where
  toHeading := change.heading scenario.toHeading
  tags := scenario.tags.map change.tag
  steps := scenario.steps.map change.step

def examples (examples : Examples) : Examples where
  toHeading := change.heading examples.toHeading
  tags := examples.tags.map change.tag
  table := change.table examples.table

def outline (outline : Outline) : Outline where
  toScenario := change.scenario outline.toScenario
  examples := outline.examples.map change.examples

def definition : Definition → Definition
  | .scenario scenario => .scenario (change.scenario scenario)
  | .outline outline => .outline (change.outline outline)

def rule (rule : Rule) : Rule where
  toHeading := change.heading rule.toHeading
  tags := rule.tags.map change.tag
  background := rule.background.map change.background
  children := rule.children.map change.definition

def feature (feature : Feature) : Feature where
  toHeading := change.heading feature.toHeading
  tags := feature.tags.map change.tag
  background := feature.background.map change.background
  children := feature.children.map change.definition
  rules := feature.rules.map change.rule
  language := feature.language

def testCase (test : TestCase) : TestCase :=
  { test with
    steps := test.steps.map change.step
    location := change.location test.location
    exampleLocation := test.exampleLocation.map change.location }

theorem ofToken_eq {token other : Token} (text : other.text = token.text)
    (place : other.location = change.location token.location) :
    TableCell.ofToken other = change.cell (TableCell.ofToken token) := by
  rw [TableCell.ofToken, TableCell.ofToken, text, place, ← location_shift]
  rfl

theorem repeatedAfter?_cells (seen : List Text) (cells : List TableCell) :
    TableRow.repeatedAfter? seen (cells.map change.cell) =
      (TableRow.repeatedAfter? seen cells).map change.cell := by
  induction cells generalizing seen with
  | nil => rfl
  | cons cell rest ih =>
      have value : (change.cell cell).value = cell.value := rfl
      rw [List.map_cons, TableRow.repeatedAfter?, TableRow.repeatedAfter?, value]
      split
      · rfl
      · exact ih _

theorem repeated?_table (table : DataTable) :
    (change.table table).rows.head?.bind (·.repeated?) =
      (table.rows.head?.bind (·.repeated?)).map change.cell := by
  rw [Change.table, List.head?_map]
  cases table.rows.head? with
  | none => rfl
  | some row => exact change.repeatedAfter?_cells [] row.cells

def lexError : LexError → LexError
  | .unterminatedDocString line => .unterminatedDocString (change.line line)
  | .unterminatedTableRow line => .unterminatedTableRow (change.line line)
  | .illegalTag location found => .illegalTag (change.location location) found
  | .unknownLanguage line language => .unknownLanguage (change.line line) language

def parseError : ParseError → ParseError
  | .lex error => .lex (change.lexError error)
  | .grammar error => .grammar { error with location := change.location error.location }

def compileError (error : CompileError) : CompileError :=
  { error with location := change.location error.location }

def parsed : Except ParseError Feature → Except ParseError Feature
  | .ok feature => .ok (change.feature feature)
  | .error error => .error (change.parseError error)

def compiled {α β : Type} (value : α → β) : Except CompileError α → Except CompileError β
  | .ok found => .ok (value found)
  | .error error => .error (change.compileError error)

def opening (opening : Opening) : Opening :=
  { opening with location := change.location opening.location }

def block (block : Block) : Block where
  toOpening := change.opening block.toOpening
  closingLine := block.closingLine.map change.line

def mode (mode : Mode) : Mode :=
  { mode with
    closed := mode.closed.map change.block
    opened := mode.opened.map change.opening }

theorem blocks_mode (mode : Mode) : (change.mode mode).blocks = mode.blocks.map change.block := by
  cases opened : mode.opened <;> simp [Mode.blocks, Change.mode, opened, block]

/-! The grammar does not look at the text of every token. Two tokens tell it the same if they differ only
where it does not look. -/

/-- Tokens that mean the same to the grammar. The break at the end of a line means nothing, and a line
of a doc string counts only without its indentation. Nothing is built from the end of the document,
but errors can name its place. -/
structure Tells (fails : ParseError → ParseError → Prop) (left right : Token) : Prop where
  kind : right.kind = left.kind
  line : right.location.line = change.line left.location.line
  location : left.kind ≠ .eof → right.location = change.location left.location
  text : left.kind ≠ .eol → left.kind ≠ .docStringLine → right.text = left.text
  verbatim : left.kind = .docStringLine → ∀ count,
    DocString.unindent (count + change.indent) right.text =
      change.verbatim (DocString.unindent count left.text)
  unexpected : ∀ expected found,
    fails (.grammar ⟨left.location, expected, found⟩) (.grammar ⟨right.location, expected, found⟩)

theorem Tells.describe_eq {change : Change} {fails : ParseError → ParseError → Prop}
    {left right : Token} (tells : change.Tells fails left right) : right.describe = left.describe := by
  have text := tells.text
  obtain ⟨kind, leftText, location⟩ := left
  obtain ⟨_, rightText, other⟩ := right
  cases tells.kind
  cases kind <;> simp_all [Token.describe]

structure Reports (fails : ParseError → ParseError → Prop) : Prop where
  lex : ∀ error, fails (.lex error) (.lex (change.lexError error))
  grammar : ∀ location expected found, fails (.grammar ⟨location, expected, found⟩)
    (.grammar ⟨change.location location, expected, found⟩)

theorem reports_parseError : change.Reports fun left right => right = change.parseError left where
  lex _ := rfl
  grammar _ _ _ := rfl

end Change

end Gherkin
