import Gherkin.Token

/-!
Features.

The tree of a document. Every node knows where it stands: a block at its keyword, below any tags it
has, a step at its keyword too, and a doc string at the delimiter that opens it.
-/

namespace Gherkin

structure Tag where
  /-- The tag with its `@`. -/
  name : Text
  location : Location
  deriving DecidableEq

structure TableCell where
  /-- The text of the cell, without padding and escapes. -/
  value : Text
  /-- Where the text starts, or the border in front of an empty cell. A first cell of nothing but padding
  stands behind its padding. -/
  location : Location
  deriving DecidableEq

structure TableRow where
  cells : List TableCell
  /-- Where the opening border stands. -/
  location : Location
  deriving DecidableEq

def TableRow.values (row : TableRow) : List Text :=
  row.cells.map (·.value)

structure DataTable where
  rows : List TableRow
  /-- Where the first row stands. -/
  location : Location
  deriving DecidableEq

def DataTable.values (table : DataTable) : List (List Text) :=
  table.rows.map (·.values)

structure DocString where
  /-- The lines between the delimiters with their line breaks, less the indentation of the
  opening delimiter. -/
  lines : List Text
  delimiter : Text
  /-- Greatest number of characters taken off the front of each line. -/
  indent : Nat
  /-- Where the opening delimiter stands. -/
  location : Location
  deriving DecidableEq

/-- The whole text, without the break of its last line. -/
def DocString.content (doc : DocString) : Text :=
  Text.dropBreak doc.lines.flatten

inductive StepArgument where
  | dataTable (table : DataTable)
  | docString (doc : DocString)
  deriving DecidableEq

structure Step where
  /-- The keyword as written, with the character that sets it off. -/
  keyword : Text
  /-- The role of the step, which a conjunction takes from the step before it. -/
  role : StepKeyword
  name : Text
  argument : Option StepArgument
  location : Location
  deriving DecidableEq

structure Heading where
  /-- The keyword as written, without its colon. -/
  keyword : Text
  name : Text
  description : List Text
  /-- Where the keyword stands. -/
  location : Location
  deriving DecidableEq

structure Background extends Heading where
  steps : List Step
  deriving DecidableEq

structure Scenario extends Heading where
  tags : List Tag
  steps : List Step
  deriving DecidableEq

/-- A table of values for an outline. The first row names the columns. -/
structure Examples extends Heading where
  tags : List Tag
  table : DataTable
  deriving DecidableEq

def Examples.header? (examples : Examples) : Option TableRow :=
  examples.table.rows.head?

def Examples.dataRows (examples : Examples) : List TableRow :=
  examples.table.rows.tail

structure Outline extends Scenario where
  examples : List Examples
  deriving DecidableEq

inductive Definition where
  | scenario (scenario : Scenario)
  | outline (outline : Outline)
  deriving DecidableEq

namespace Definition

def toScenario : Definition → Scenario
  | .scenario plain => plain
  | .outline template => template.toScenario

def examples : Definition → List Examples
  | .scenario _ => []
  | .outline template => template.examples

end Definition

structure Rule extends Heading where
  tags : List Tag
  background : Option Background
  children : List Definition
  deriving DecidableEq

structure Feature extends Heading where
  tags : List Tag
  background : Option Background
  children : List Definition
  rules : List Rule
  /-- Code of the language the document is written in. -/
  language : Text
  deriving DecidableEq

end Gherkin
