import Gherkin.Dialect.Table
import Gherkin.Error
import Gherkin.Feature.Basic
import Gherkin.Feature.Placeholder

/-!
Test cases.

Compiling a feature unfolds it into a flat list of test cases: one for each scenario, and one for
each data row of each examples table of an outline. A test case starts with the background steps
of the feature and of its rule, which are taken as they are, and bears the tags of everything it
stands in.
-/

namespace Gherkin

structure TagSet where
  names : List Text
  distinct : names.Nodup
  deriving DecidableEq

namespace TagSet

def ofTags (tags : List Tag) : TagSet where
  names := keepFirst id (tags.map (·.name))
  distinct := pairwise_keepFirst id _

def contains (set : TagSet) (name : Text) : Bool :=
  set.names.contains name

def size (set : TagSet) : Nat :=
  set.names.length

end TagSet

structure TestCase where
  name : Text
  steps : List Step
  tags : TagSet
  /-- Where the keyword of the scenario or outline stands. -/
  location : Location
  /-- Where the row stands that filled in an outline. -/
  exampleLocation : Option Location
  /-- Name of the rule around. -/
  rule : Option Text
  deriving DecidableEq

/-! The steps of an outline are filled in before its name, so an error in a step is reported first. -/

def ExampleRow.fillAt (row : ExampleRow) (location : Location) (text : Text) :
    Except CompileError Text :=
  (row.fill text).mapError fun name => ⟨name, location, row.columns⟩

namespace TableCell

def fill (row : ExampleRow) (cell : TableCell) : Except CompileError TableCell := do
  return { cell with value := ← row.fillAt cell.location cell.value }

end TableCell

namespace TableRow

def fill (row : ExampleRow) (line : TableRow) : Except CompileError TableRow := do
  return { line with cells := ← line.cells.mapM (·.fill row) }

end TableRow

namespace DataTable

def fill (row : ExampleRow) (table : DataTable) : Except CompileError DataTable := do
  return { table with rows := ← table.rows.mapM (·.fill row) }

end DataTable

namespace DocString

def lineLocation (doc : DocString) (index : Nat) : Location :=
  ⟨doc.location.line + index + 1, doc.location.column⟩

def fill (row : ExampleRow) (doc : DocString) : Except CompileError DocString := do
  let lines ← doc.lines.zipIdx.mapM fun line => row.fillAt (doc.lineLocation line.2) line.1
  return { doc with lines }

end DocString

namespace StepArgument

def fill (row : ExampleRow) : StepArgument → Except CompileError StepArgument
  | dataTable table => return dataTable (← table.fill row)
  | docString doc => return docString (← doc.fill row)

end StepArgument

namespace Step

def fill (row : ExampleRow) (step : Step) : Except CompileError Step := do
  let name ← row.fillAt step.location step.name
  let argument ← step.argument.mapM (·.fill row)
  return { step with name, argument }

end Step

structure Scope where
  background : List Step
  tags : List Tag
  rule : Option Text

namespace Scope

def ofScenario (scope : Scope) (scenario : Scenario) : TestCase where
  name := scenario.name
  steps := scope.background ++ scenario.steps
  tags := .ofTags (scope.tags ++ scenario.tags)
  location := scenario.location
  exampleLocation := none
  rule := scope.rule

def ofRow (scope : Scope) (outline : Outline) (examples : Examples) (columns : List Text)
    (data : TableRow) : Except CompileError TestCase := do
  let row : ExampleRow := ⟨columns, data.values⟩
  let steps ← outline.steps.mapM (·.fill row)
  let name ← row.fillAt outline.location outline.name
  return {
    name
    steps := scope.background ++ steps
    tags := .ofTags (scope.tags ++ outline.tags ++ examples.tags)
    location := outline.location
    exampleLocation := some data.location
    rule := scope.rule }

/-- A table without a header has no data rows either. -/
def ofExamples (scope : Scope) (outline : Outline) (examples : Examples) :
    Except CompileError (List TestCase) :=
  match examples.header? with
  | none => return []
  | some header => examples.dataRows.mapM (scope.ofRow outline examples header.values)

def ofDefinition (scope : Scope) : Definition → Except CompileError (List TestCase)
  | .scenario scenario => return [scope.ofScenario scenario]
  | .outline outline => return (← outline.examples.mapM (scope.ofExamples outline)).flatten

def testCases (scope : Scope) (definitions : List Definition) :
    Except CompileError (List TestCase) := do
  return (← definitions.mapM scope.ofDefinition).flatten

end Scope

def backgroundSteps (background : Option Background) : List Step :=
  (background.map (·.steps)).getD []

namespace Feature

def scope (feature : Feature) : Scope where
  background := backgroundSteps feature.background
  tags := feature.tags
  rule := none

/-- The scope inside a rule. The feature's own comes first. -/
def ruleScope (feature : Feature) (rule : Rule) : Scope where
  background := backgroundSteps feature.background ++ backgroundSteps rule.background
  tags := feature.tags ++ rule.tags
  rule := some rule.name

def compile (feature : Feature) : Except CompileError (List TestCase) := do
  let own ← feature.scope.testCases feature.children
  let ruled ← feature.rules.mapM fun rule => (feature.ruleScope rule).testCases rule.children
  return own ++ ruled.flatten

end Feature

end Gherkin
