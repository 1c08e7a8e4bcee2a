import Gherkin.TestCase
import Mathlib.Data.List.Basic

/-!
What compiling yields.

The test cases of a feature are listed by where they come from: a scenario, or a data row of an
outline. Each origin determines its test case, given that values can be put in for all placeholders,
and the places where they are put in, in order. `compile_eq` says that compiling yields the test
cases of all origins, or else the failure at the first place of the first origin that has one.
-/

namespace Gherkin

/-! A traversal that stops at its first failure does two things at once. Told apart they are a search for the
first failure, and a value made as if nothing could fail. -/

section Outcomes

variable {α β γ ε : Type}

def outcome (failure : Option ε) (value : β) : Except ε β :=
  match failure with
  | some error => .error error
  | none => .ok value

theorem outcome_bind (failure : Option ε) (value : α) (later : α → Option ε) (result : α → β) :
    (outcome failure value >>= fun found => outcome (later found) (result found)) =
      outcome (failure.or (later value)) (result value) := by
  cases failure <;> rfl

theorem outcome_map (failure : Option ε) (value : α) (result : α → β) :
    (outcome failure value >>= fun found => pure (result found)) = outcome failure (result value) := by
  cases failure <;> rfl

/-- The first failure among all places of all elements is what a traversal stops at. -/
theorem mapM_outcome (visit : α → Except ε β) (places : α → List γ) (failure : γ → Option ε)
    (value : α → β)
    (each : ∀ element, visit element = outcome ((places element).findSome? failure) (value element))
    (elements : List α) :
    elements.mapM visit =
      outcome ((elements.flatMap places).findSome? failure) (elements.map value) := by
  induction elements with
  | nil => rfl
  | cons element elements ih =>
      have others : (elements.mapM visit >>= fun rest => pure (value element :: rest)) =
          outcome ((elements.flatMap places).findSome? failure) (value element :: elements.map value) := by
        rw [ih, outcome_map]
      rw [List.mapM_cons, each, List.flatMap_cons, List.findSome?_append]
      cases (places element).findSome? failure with
      | some error => rfl
      | none => exact others

theorem mapM_outcome_one (visit : α → Except ε β) (place : α → γ) (failure : γ → Option ε)
    (value : α → β) (each : ∀ element, visit element = outcome (failure (place element)) (value element))
    (elements : List α) :
    elements.mapM visit =
      outcome ((elements.map place).findSome? failure) (elements.map value) := by
  rw [List.map_eq_flatMap, mapM_outcome visit (fun element => [place element]) failure value]
  intro element
  rw [each, List.findSome?_singleton]

end Outcomes

namespace ExampleRow

/-- The text with values in place of placeholders. One without a value stays as it is. -/
def replace (row : ExampleRow) (text : Text) : Text :=
  (Piece.split text).flatMap fun
    | .literal c => [c]
    | .placeholder name => (row.value? name).getD (Piece.placeholder name).text

def missing? (row : ExampleRow) (text : Text) : Option Text :=
  (Piece.split text).findSome? fun
    | .literal _ => none
    | .placeholder name => if (row.value? name).isNone then some name else none

theorem fill_eq (row : ExampleRow) (text : Text) :
    row.fill text = outcome (row.missing? text) (row.replace text) := by
  have pieces := mapM_outcome_one row.fillPiece id
    (fun
      | .literal _ => none
      | .placeholder name => if (row.value? name).isNone then some name else none)
    (fun
      | .literal c => [c]
      | .placeholder name => (row.value? name).getD (Piece.placeholder name).text)
    (by
      intro piece
      cases piece with
      | literal c => rfl
      | placeholder name => cases found : row.value? name <;> simp [fillPiece, outcome, found])
    (Piece.split text)
  rw [fill, pieces, outcome_map, List.map_id]
  rfl

end ExampleRow

structure Site where
  location : Location
  text : Text

def ExampleRow.failure? (row : ExampleRow) (site : Site) : Option CompileError :=
  (row.missing? site.text).map fun name => ⟨name, site.location, row.columns⟩

theorem ExampleRow.fillAt_eq (row : ExampleRow) (location : Location) (text : Text) :
    row.fillAt location text = outcome (row.failure? ⟨location, text⟩) (row.replace text) := by
  rw [fillAt, fill_eq, failure?]
  cases row.missing? text <;> rfl

def TableCell.site (cell : TableCell) : Site :=
  ⟨cell.location, cell.value⟩

namespace DataTable

def sites (table : DataTable) : List Site :=
  table.rows.flatMap fun line => line.cells.map TableCell.site

def replace (row : ExampleRow) (table : DataTable) : DataTable :=
  { table with
    rows := table.rows.map fun line =>
      { line with cells := line.cells.map fun cell => { cell with value := row.replace cell.value } } }

theorem fill_eq (row : ExampleRow) (table : DataTable) :
    table.fill row = outcome (table.sites.findSome? row.failure?) (table.replace row) := by
  have cells : ∀ cell : TableCell, cell.fill row =
      outcome (row.failure? cell.site) { cell with value := row.replace cell.value } := by
    intro cell
    rw [TableCell.fill, ExampleRow.fillAt_eq, outcome_map]
    rfl
  have lines : ∀ line : TableRow, line.fill row =
      outcome ((line.cells.map TableCell.site).findSome? row.failure?)
        { line with cells := line.cells.map fun cell => { cell with value := row.replace cell.value } } := by
    intro line
    rw [TableRow.fill, mapM_outcome_one _ _ _ _ cells, outcome_map]
  rw [fill, mapM_outcome _ _ _ _ lines, outcome_map]
  rfl

end DataTable

namespace DocString

def sites (doc : DocString) : List Site :=
  doc.lines.mapIdx fun index line =>
    ⟨⟨doc.location.line + index + 1, doc.location.column⟩, line⟩

def replace (row : ExampleRow) (doc : DocString) : DocString :=
  { doc with lines := doc.lines.map row.replace }

theorem fill_eq (row : ExampleRow) (doc : DocString) :
    doc.fill row = outcome (doc.sites.findSome? row.failure?) (doc.replace row) := by
  have lines := mapM_outcome_one
    (fun line : Text × Nat => row.fillAt (doc.lineLocation line.2) line.1)
    (fun line => ⟨doc.lineLocation line.2, line.1⟩) row.failure? (fun line => row.replace line.1)
    (fun line => row.fillAt_eq _ _) doc.lines.zipIdx
  have places : doc.lines.zipIdx.map (fun line => (⟨doc.lineLocation line.2, line.1⟩ : Site)) =
      doc.sites := by
    rw [sites, List.mapIdx_eq_zipIdx_map]
    rfl
  have values : doc.lines.zipIdx.map (fun line => row.replace line.1) = doc.lines.map row.replace := by
    rw [← Function.comp_def row.replace Prod.fst, ← List.map_map, List.zipIdx_map_fst]
  rw [fill, lines, outcome_map, places, values]
  rfl

end DocString

namespace Step

def sites (step : Step) : List Site :=
  ⟨step.location, step.name⟩ ::
    match step.argument with
    | none => []
    | some (.dataTable table) => table.sites
    | some (.docString doc) => doc.sites

def replace (row : ExampleRow) (step : Step) : Step :=
  { step with
    name := row.replace step.name
    argument := step.argument.map fun
      | .dataTable table => .dataTable (table.replace row)
      | .docString doc => .docString (doc.replace row) }

theorem fill_eq (row : ExampleRow) (step : Step) :
    step.fill row = outcome (step.sites.findSome? row.failure?) (step.replace row) := by
  obtain ⟨keyword, role, name, argument, location⟩ := step
  rw [fill, ExampleRow.fillAt_eq, sites, List.findSome?_cons]
  cases row.failure? ⟨location, name⟩ with
  | some error => rfl
  | none =>
      match argument with
      | none => rfl
      | some (.dataTable table) =>
          simp only [Option.mapM_some, StepArgument.fill, DataTable.fill_eq]
          cases table.sites.findSome? row.failure? <;> rfl
      | some (.docString doc) =>
          simp only [Option.mapM_some, StepArgument.fill, DocString.fill_eq]
          cases doc.sites.findSome? row.failure? <;> rfl

/-- A step without the texts that values are put in: its name, the values of cells and the lines of
a doc string, each of which leaves an empty text behind. -/
def shape (step : Step) : Step :=
  { step with
    name := []
    argument := step.argument.map fun
      | .dataTable table => .dataTable { table with
          rows := table.rows.map fun line =>
            { line with cells := line.cells.map fun cell => { cell with value := [] } } }
      | .docString doc => .docString { doc with lines := doc.lines.map fun _ => [] } }

theorem shape_replace (row : ExampleRow) (step : Step) : (step.replace row).shape = step.shape := by
  obtain ⟨keyword, role, name, argument, location⟩ := step
  match argument with
  | none => rfl
  | some (.dataTable table) => simp [replace, shape, DataTable.replace]
  | some (.docString doc) => simp [replace, shape, DocString.replace]

end Step

section Tags

variable {α : Type} [DecidableEq α]

theorem keepFirst_filter (elements : List α) (keep : α → Bool) :
    keepFirst id (elements.filter keep) = (keepFirst id elements).filter keep := by
  induction elements with
  | nil => rfl
  | cons first rest ih =>
      by_cases kept : keep first = true
      · rw [List.filter_cons_of_pos kept, keepFirst, keepFirst, List.filter_cons_of_pos kept, ih,
          List.filter_filter, List.filter_filter]
        simp only [Bool.and_comm]
      · rw [List.filter_cons_of_neg kept, keepFirst, List.filter_cons_of_neg kept, ih,
          List.filter_filter]
        apply List.filter_congr
        intro other _
        by_cases same : other = first
        · simp [same, kept]
        · simp [same]

theorem keepFirst_eq_eraseDups [BEq α] [LawfulBEq α] (elements : List α) : keepFirst id elements = elements.eraseDups := by
  match elements with
  | [] => rfl
  | first :: rest =>
      have others := keepFirst_eq_eraseDups (rest.filter fun other => other ≠ first)
      have same : (fun other => decide (other ≠ first)) = fun other => !other == first := by
        funext other
        by_cases equal : other = first
        · simp [equal]
        · simp [equal]
      rw [keepFirst, List.eraseDups_cons, ← same, ← others, keepFirst_filter]
      rfl
termination_by elements.length
decreasing_by exact Nat.lt_succ_of_le (List.length_filter_le _ _)

theorem ofTags_eq (tags : List Tag) (distinct : ((tags.map (·.name)).eraseDups).Nodup) :
    TagSet.ofTags tags = ⟨(tags.map (·.name)).eraseDups, distinct⟩ := by
  simp only [TagSet.ofTags, keepFirst_eq_eraseDups]

end Tags

/-! Each test case has one origin, and the origins of a feature stand in document order. -/

structure DataRow where
  examples : Examples
  header : TableRow
  data : TableRow

def DataRow.values (row : DataRow) : ExampleRow :=
  ⟨row.header.values, row.data.values⟩

def Examples.rows (examples : Examples) : List DataRow :=
  match examples.table.rows with
  | [] => []
  | header :: others => others.map fun data => ⟨examples, header, data⟩

structure Origin where
  rule : Option Rule
  /-- The scenario, or the outline without its examples. -/
  scenario : Scenario
  row : Option DataRow

def Definition.origins (rule : Option Rule) : Definition → List Origin
  | .scenario plain => [⟨rule, plain, none⟩]
  | .outline template =>
      (template.examples.flatMap Examples.rows).map fun row => ⟨rule, template.toScenario, some row⟩

def Feature.origins (feature : Feature) : List Origin :=
  feature.children.flatMap (Definition.origins none) ++
    feature.rules.flatMap fun rule => rule.children.flatMap (Definition.origins (some rule))

namespace Origin

/-- Where values are put in, the name of the outline last. -/
def sites (origin : Origin) : List Site :=
  match origin.row with
  | none => []
  | some _ =>
      origin.scenario.steps.flatMap Step.sites ++ [⟨origin.scenario.location, origin.scenario.name⟩]

def failure? (origin : Origin) : Option CompileError :=
  origin.row.bind fun row => origin.sites.findSome? row.values.failure?

def tags (feature : Feature) (origin : Origin) : List Tag :=
  feature.tags ++ (origin.rule.map (·.tags)).getD [] ++ origin.scenario.tags ++
    (origin.row.map (·.examples.tags)).getD []

def background (feature : Feature) (origin : Origin) : List Step :=
  (feature.background.map (·.steps)).getD [] ++
    ((origin.rule.bind (·.background)).map (·.steps)).getD []

def testCase (feature : Feature) (origin : Origin) : TestCase where
  name :=
    match origin.row with
    | none => origin.scenario.name
    | some row => row.values.replace origin.scenario.name
  steps := origin.background feature ++
    match origin.row with
    | none => origin.scenario.steps
    | some row => origin.scenario.steps.map (Step.replace row.values)
  tags := {
    names := ((origin.tags feature).map (·.name)).eraseDups
    distinct := by
      rw [← keepFirst_eq_eraseDups]
      exact pairwise_keepFirst id _ }
  location := origin.scenario.location
  exampleLocation := origin.row.map (·.data.location)
  rule := origin.rule.map (·.name)

end Origin

theorem flatMap_mapM_outcome {α γ δ ε : Type} (visit : α → Except ε (List δ))
    (places : α → List γ) (failure : γ → Option ε) (value : γ → δ)
    (each : ∀ element, visit element =
      outcome ((places element).findSome? failure) ((places element).map value))
    (elements : List α) :
    (elements.mapM visit >>= fun found => pure found.flatten) =
      outcome ((elements.flatMap places).findSome? failure)
        ((elements.flatMap places).map value) := by
  rw [mapM_outcome visit places failure (fun element => (places element).map value) each,
    outcome_map, List.map_flatMap]
  rfl

section Scopes

variable (feature : Feature) (rule : Option Rule)

def Feature.scopeIn (feature : Feature) : Option Rule → Scope
  | none => feature.scope
  | some rule => feature.ruleScope rule

theorem background_scopeIn (origin : Origin) :
    (feature.scopeIn origin.rule).background = origin.background feature := by
  obtain ⟨rule, scenario, row⟩ := origin
  cases rule with
  | none => exact (List.append_nil _).symm
  | some rule => rfl

theorem tags_scopeIn (origin : Origin) :
    (feature.scopeIn origin.rule).tags ++ origin.scenario.tags ++
      (origin.row.map (·.examples.tags)).getD [] = origin.tags feature := by
  obtain ⟨rule, scenario, row⟩ := origin
  cases rule with
  | none => rw [Origin.tags, Option.map_none, Option.getD_none, List.append_nil]; rfl
  | some rule => rfl

theorem rule_scopeIn (rule : Option Rule) : (feature.scopeIn rule).rule = rule.map (·.name) := by
  cases rule <;> rfl

/-- The test case of an origin, from the scope it stands in. -/
theorem testCase_eq (origin : Origin) (name : Text) (steps : List Step)
    (named : name = (origin.testCase feature).name)
    (stepped : origin.background feature ++ steps = (origin.testCase feature).steps) :
    origin.testCase feature = {
      name
      steps := (feature.scopeIn origin.rule).background ++ steps
      tags := .ofTags ((feature.scopeIn origin.rule).tags ++ origin.scenario.tags ++
        (origin.row.map (·.examples.tags)).getD [])
      location := origin.scenario.location
      exampleLocation := origin.row.map (·.data.location)
      rule := (feature.scopeIn origin.rule).rule } := by
  rw [background_scopeIn, tags_scopeIn, rule_scopeIn, named, stepped,
    ofTags_eq _ (origin.testCase feature).tags.distinct]
  rfl

theorem ofScenario_eq (scenario : Scenario) :
    (feature.scopeIn rule).ofScenario scenario = Origin.testCase feature ⟨rule, scenario, none⟩ := by
  rw [testCase_eq feature ⟨rule, scenario, none⟩ scenario.name scenario.steps rfl rfl,
    Scope.ofScenario, Option.map_none, Option.getD_none, List.append_nil]
  rfl

theorem ofRow_eq (outline : Outline) (row : DataRow) :
    (feature.scopeIn rule).ofRow outline row.examples row.header.values row.data =
      outcome (Origin.failure? ⟨rule, outline.toScenario, some row⟩)
        (Origin.testCase feature ⟨rule, outline.toScenario, some row⟩) := by
  have steps := mapM_outcome (Step.fill row.values) Step.sites row.values.failure?
    (Step.replace row.values) (fun step => step.fill_eq row.values) outline.steps
  have name := row.values.fillAt_eq outline.location outline.name
  have failure : Origin.failure? ⟨rule, outline.toScenario, some row⟩ =
      ((outline.steps.flatMap Step.sites).findSome? row.values.failure?).or
        (row.values.failure? ⟨outline.location, outline.name⟩) := by
    rw [Origin.failure?, Origin.sites, Option.bind_some, List.findSome?_append,
      List.findSome?_singleton]
  rw [failure, testCase_eq feature ⟨rule, outline.toScenario, some row⟩
    (row.values.replace outline.name) (outline.steps.map (Step.replace row.values)) rfl rfl]
  unfold Scope.ofRow
  change (outline.steps.mapM (Step.fill row.values) >>= _) = _
  rw [steps]
  cases (outline.steps.flatMap Step.sites).findSome? row.values.failure? with
  | some error => rfl
  | none =>
      change (row.values.fillAt outline.location outline.name >>= _) = _
      rw [name, outcome_map]
      rfl

theorem ofExamples_eq (outline : Outline) (examples : Examples) :
    (feature.scopeIn rule).ofExamples outline examples =
      outcome
        ((examples.rows.map fun row => (⟨rule, outline.toScenario, some row⟩ : Origin)).findSome?
          Origin.failure?)
        ((examples.rows.map fun row => (⟨rule, outline.toScenario, some row⟩ : Origin)).map
          (Origin.testCase feature)) := by
  unfold Scope.ofExamples Examples.header? Examples.dataRows Examples.rows
  cases examples.table.rows with
  | nil => rfl
  | cons header others =>
      simp only [List.head?_cons, List.tail_cons, List.map_map]
      exact mapM_outcome_one _ _ Origin.failure? _
        (fun data => ofRow_eq feature rule outline ⟨examples, header, data⟩) others

theorem ofDefinition_eq (definition : Definition) :
    (feature.scopeIn rule).ofDefinition definition =
      outcome ((definition.origins rule).findSome? Origin.failure?)
        ((definition.origins rule).map (Origin.testCase feature)) := by
  cases definition with
  | scenario plain =>
      rw [Scope.ofDefinition, ofScenario_eq]
      rfl
  | outline template =>
      have origins : (Definition.outline template).origins rule =
          template.examples.flatMap fun examples =>
            examples.rows.map fun row => ⟨rule, template.toScenario, some row⟩ := by
        rw [Definition.origins, List.map_flatMap]
      rw [Scope.ofDefinition, origins]
      exact flatMap_mapM_outcome _ _ Origin.failure? (Origin.testCase feature)
        (ofExamples_eq feature rule template) template.examples

theorem testCases_eq (definitions : List Definition) :
    (feature.scopeIn rule).testCases definitions =
      outcome ((definitions.flatMap (Definition.origins rule)).findSome? Origin.failure?)
        ((definitions.flatMap (Definition.origins rule)).map (Origin.testCase feature)) :=
  flatMap_mapM_outcome _ _ Origin.failure? (Origin.testCase feature) (ofDefinition_eq feature rule)
    definitions

end Scopes

theorem compile_eq_outcome (feature : Feature) :
    feature.compile =
      outcome (feature.origins.findSome? Origin.failure?)
        (feature.origins.map (Origin.testCase feature)) := by
  have own := testCases_eq feature none feature.children
  have ruled := flatMap_mapM_outcome
    (fun rule : Rule => (feature.ruleScope rule).testCases rule.children) _ Origin.failure?
    (Origin.testCase feature) (fun rule => testCases_eq feature (some rule) rule.children)
    feature.rules
  -- The definitions outside rules come first, so a failure there is the first one.
  have joined : feature.compile =
      ((feature.scopeIn none).testCases feature.children >>= fun found =>
        (feature.rules.mapM (fun rule => (feature.ruleScope rule).testCases rule.children) >>=
          fun others => pure others.flatten) >>= fun others => pure (found ++ others)) := by
    simp only [bind_assoc, pure_bind]
    rfl
  rw [joined, own, ruled]
  simp only [outcome_map]
  rw [outcome_bind _ _ (fun _ => _), ← List.findSome?_append, ← List.map_append,
    ← Feature.origins]

theorem Feature.testCases_of_compile {feature : Feature} {tests : List TestCase}
    (compiled : feature.compile = .ok tests) : tests = feature.origins.map (Origin.testCase feature) := by
  rw [compile_eq_outcome] at compiled
  cases failure : feature.origins.findSome? Origin.failure? with
  | none =>
      rw [failure] at compiled
      exact (Except.ok.inj compiled).symm
  | some error =>
      rw [failure] at compiled
      cases compiled

/-- Putting in values changes nothing but the texts they are put in. -/
theorem shape_testCase (feature : Feature) (origin : Origin) :
    (origin.testCase feature).steps.map Step.shape =
      (origin.background feature ++ origin.scenario.steps).map Step.shape := by
  obtain ⟨rule, scenario, row⟩ := origin
  cases row with
  | none => rfl
  | some row =>
      have own : (scenario.steps.map (Step.replace row.values)).map Step.shape =
          scenario.steps.map Step.shape := by
        rw [List.map_map]
        apply List.map_congr_left
        intro step _
        exact Step.shape_replace row.values step
      rw [List.map_append, ← own, ← List.map_append]
      rfl

end Gherkin
