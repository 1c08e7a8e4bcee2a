import Gherkin.Proofs.Change
import Gherkin.Proofs.Contents

/-!
The test cases of a changed feature.

Compiling commutes with a change of the feature, failures included. What it takes is that putting in
values does so for each doc string: its lines are filled in one by one, and a failure names the line,
which is counted from the delimiter.
-/

namespace Gherkin

namespace Change

variable (change : Change)

section Outcomes

variable {α β γ δ : Type}

theorem compiled_bind {value : α → β} {result : γ → δ} (first : Except CompileError α)
    (next : α → Except CompileError γ) (other : β → Except CompileError δ)
    (same : ∀ found, other (value found) = change.compiled result (next found)) :
    (change.compiled value first >>= other) = change.compiled result (first >>= next) := by
  cases first with
  | error error => rfl
  | ok found => exact same found

theorem compiled_mapM (value : α → β) (result : γ → δ) (visit : α → Except CompileError γ)
    (other : β → Except CompileError δ) (elements : List α)
    (each : ∀ element ∈ elements, other (value element) = change.compiled result (visit element)) :
    (elements.map value).mapM other = change.compiled (List.map result) (elements.mapM visit) := by
  induction elements with
  | nil => rfl
  | cons element rest ih =>
      obtain ⟨here, others⟩ := List.forall_mem_cons.mp each
      rw [List.map_cons, List.mapM_cons, List.mapM_cons, here]
      apply change.compiled_bind
      intro found
      rw [ih others]
      apply change.compiled_bind
      exact fun _ => rfl

end Outcomes

variable (row : ExampleRow)

theorem fillAt_eq (place : Location) (text : Text) :
    row.fillAt (change.location place) text = change.compiled id (row.fillAt place text) := by
  rw [ExampleRow.fillAt, ExampleRow.fillAt]
  cases row.fill text <;> rfl

theorem fill_cell (cell : TableCell) :
    (change.cell cell).fill row = change.compiled change.cell (cell.fill row) := by
  rw [TableCell.fill, TableCell.fill]
  have here := change.fillAt_eq row cell.location cell.value
  have same : row.fillAt (change.cell cell).location (change.cell cell).value = _ := here
  rw [same]
  apply change.compiled_bind
  exact fun _ => rfl

theorem fill_table (table : DataTable) :
    (change.table table).fill row = change.compiled change.table (table.fill row) := by
  have lines : ∀ line : TableRow,
      (change.row line).fill row = change.compiled change.row (line.fill row) := by
    intro line
    have cells := change.compiled_mapM change.cell change.cell (TableCell.fill row)
      (TableCell.fill row) line.cells fun cell _ => change.fill_cell row cell
    rw [TableRow.fill, TableRow.fill, Change.row]
    simp only [cells]
    apply change.compiled_bind
    exact fun _ => rfl
  have rows := change.compiled_mapM change.row change.row (TableRow.fill row) (TableRow.fill row)
    table.rows fun line _ => lines line
  rw [DataTable.fill, DataTable.fill, Change.table]
  simp only [rows]
  apply change.compiled_bind
  exact fun _ => rfl

/-- Putting values into a doc string commutes with the change. -/
def Fits (doc : DocString) : Prop :=
  ∀ row : ExampleRow,
    (change.docString doc).fill row = change.compiled change.docString (doc.fill row)

/-- The lines of a doc string have to move as one. -/
theorem fits_of_lines {doc : DocString}
    (lines : ∀ line ∈ doc.lines, ∀ row : ExampleRow,
      row.fill (change.verbatim line) = (row.fill line).map change.verbatim)
    (places : ∀ index, index < doc.lines.length →
      change.line (doc.location.line + index + 1) = change.line doc.location.line + index + 1) :
    change.Fits doc := by
  intro row
  have each : ∀ line ∈ doc.lines.zipIdx,
      row.fillAt ((change.docString doc).lineLocation line.2) (change.verbatim line.1) =
        change.compiled change.verbatim (row.fillAt (doc.lineLocation line.2) line.1) := by
    rintro ⟨line, index⟩ member
    obtain ⟨_, bound, found⟩ := List.mem_zipIdx member
    have place : (change.docString doc).lineLocation index =
        change.location (doc.lineLocation index) := by
      simp only [DocString.lineLocation, docString, location, places index (by simpa using bound)]
    have filled := lines line (List.fst_mem_of_mem_zipIdx member) row
    rw [place, ExampleRow.fillAt, ExampleRow.fillAt, filled]
    cases row.fill line <;> rfl
  have all := change.compiled_mapM (Prod.map change.verbatim id) change.verbatim
    (fun line => row.fillAt (doc.lineLocation line.2) line.1)
    (fun line => row.fillAt ((change.docString doc).lineLocation line.2) line.1) doc.lines.zipIdx each
  rw [DocString.fill, DocString.fill]
  have numbered : (change.docString doc).lines.zipIdx =
      doc.lines.zipIdx.map (Prod.map change.verbatim id) := List.zipIdx_map ..
  rw [numbered, all]
  apply change.compiled_bind
  exact fun _ => rfl

theorem fill_argument (step : Step) (fits : ∀ doc ∈ step.docStrings, change.Fits doc) :
    (step.argument.map change.argument).mapM (StepArgument.fill row) =
      change.compiled (Option.map change.argument) (step.argument.mapM (StepArgument.fill row)) := by
  unfold Step.docStrings at fits
  cases here : step.argument with
  | none => rfl
  | some argument =>
      have same : (change.argument argument).fill row =
          change.compiled change.argument (argument.fill row) := by
        cases argument with
        | dataTable table =>
            rw [Change.argument, StepArgument.fill, StepArgument.fill, change.fill_table row table]
            apply change.compiled_bind
            exact fun _ => rfl
        | docString doc =>
            rw [here] at fits
            rw [Change.argument, StepArgument.fill, StepArgument.fill, fits doc (by simp) row]
            apply change.compiled_bind
            exact fun _ => rfl
      rw [Option.map_some, Option.mapM_some, Option.mapM_some, same]
      cases argument.fill row <;> rfl

theorem fill_step (step : Step) (fits : ∀ doc ∈ step.docStrings, change.Fits doc) :
    (change.step step).fill row = change.compiled change.step (step.fill row) := by
  rw [Step.fill, Step.fill]
  have name := change.fillAt_eq row step.location step.name
  have same : row.fillAt (change.step step).location (change.step step).name = _ := name
  rw [same]
  apply change.compiled_bind
  intro found
  have arguments : (change.step step).argument.mapM (·.fill row) = _ :=
    change.fill_argument row step fits
  rw [arguments]
  apply change.compiled_bind
  exact fun _ => rfl

def scope (scope : Scope) : Scope :=
  { scope with
    background := scope.background.map change.step
    tags := scope.tags.map change.tag }

theorem ofTags_eq (tags : List Tag) : TagSet.ofTags (tags.map change.tag) = TagSet.ofTags tags := by
  have names : (tags.map change.tag).map (·.name) = tags.map (·.name) := by
    rw [List.map_map]
    rfl
  simp only [TagSet.ofTags, names]

variable (scope : Scope)

theorem ofScenario_eq (scenario : Scenario) :
    (change.scope scope).ofScenario (change.scenario scenario) =
      change.testCase (scope.ofScenario scenario) := by
  have tags := change.ofTags_eq (scope.tags ++ scenario.tags)
  rw [List.map_append] at tags
  simp only [Scope.ofScenario, testCase, Change.scope, Change.scenario, Change.heading, tags,
    List.map_append, Option.map_none]

theorem ofRow_eq (outline : Outline) (examples : Examples) (columns : List Text) (data : TableRow)
    (fits : ∀ doc ∈ outline.steps.flatMap Step.docStrings, change.Fits doc) :
    (change.scope scope).ofRow (change.outline outline) (change.examples examples) columns
        (change.row data) =
      change.compiled change.testCase (scope.ofRow outline examples columns data) := by
  have values : (change.row data).values = data.values := by
    simp only [TableRow.values, Change.row, List.map_map]
    rfl
  have tags := change.ofTags_eq (scope.tags ++ outline.tags ++ examples.tags)
  rw [List.map_append, List.map_append] at tags
  have steps := change.compiled_mapM change.step change.step (Step.fill ⟨columns, data.values⟩)
    (Step.fill ⟨columns, data.values⟩) outline.steps fun step member =>
      change.fill_step ⟨columns, data.values⟩ step fun doc inside =>
        fits doc (List.mem_flatMap.mpr ⟨step, member, inside⟩)
  have name := change.fillAt_eq ⟨columns, data.values⟩ outline.location outline.name
  rw [Scope.ofRow, Scope.ofRow, values]
  -- The steps are filled first and then the name. Both fail alike, and the tags cannot.
  have allSteps : (change.outline outline).steps.mapM (Step.fill ⟨columns, data.values⟩) = _ := steps
  simp only [allSteps]
  apply change.compiled_bind
  intro filled
  have sameName : ExampleRow.fillAt ⟨columns, data.values⟩ (change.outline outline).location
      (change.outline outline).name = _ := name
  rw [sameName]
  apply change.compiled_bind
  intro found
  have sameTags : TagSet.ofTags ((change.scope scope).tags ++ (change.outline outline).tags ++
      (change.examples examples).tags) = _ := tags
  have sameSteps : (change.scope scope).background ++ filled.map change.step =
      (scope.background ++ filled).map change.step := by
    rw [List.map_append]
    rfl
  simp only [sameTags, sameSteps]
  rfl

theorem ofExamples_eq (outline : Outline) (examples : Examples)
    (fits : ∀ doc ∈ outline.steps.flatMap Step.docStrings, change.Fits doc) :
    (change.scope scope).ofExamples (change.outline outline) (change.examples examples) =
      change.compiled (List.map change.testCase) (scope.ofExamples outline examples) := by
  have header : (change.examples examples).header? = examples.header?.map change.row :=
    List.head?_map ..
  have data : (change.examples examples).dataRows = examples.dataRows.map change.row :=
    List.map_tail.symm
  rw [Scope.ofExamples, Scope.ofExamples, header, data]
  cases examples.header? with
  | none => rfl
  | some first =>
      have values : (change.row first).values = first.values := by
        simp only [TableRow.values, Change.row, List.map_map]
        rfl
      simp only [Option.map_some, values]
      apply change.compiled_mapM
      exact fun row _ => change.ofRow_eq scope outline examples first.values row fits

theorem ofDefinition_eq (definition : Definition)
    (fits : ∀ doc ∈ definition.docStrings, change.Fits doc) :
    (change.scope scope).ofDefinition (change.definition definition) =
      change.compiled (List.map change.testCase) (scope.ofDefinition definition) := by
  cases definition with
  | scenario scenario => exact congrArg (fun test => Except.ok [test]) (change.ofScenario_eq scope scenario)
  | outline outline =>
      have all := change.compiled_mapM change.examples (List.map change.testCase)
        (scope.ofExamples outline) ((change.scope scope).ofExamples (change.outline outline))
        outline.examples fun examples _ => change.ofExamples_eq scope outline examples fits
      rw [Change.definition, Scope.ofDefinition, Scope.ofDefinition]
      have listed : (change.outline outline).examples.mapM
          ((change.scope scope).ofExamples (change.outline outline)) = _ := all
      rw [listed]
      apply change.compiled_bind
      intro found
      exact congrArg Except.ok List.map_flatten.symm

theorem testCases_eq (definitions : List Definition)
    (fits : ∀ doc ∈ definitions.flatMap Definition.docStrings, change.Fits doc) :
    (change.scope scope).testCases (definitions.map change.definition) =
      change.compiled (List.map change.testCase) (scope.testCases definitions) := by
  have all := change.compiled_mapM change.definition (List.map change.testCase) scope.ofDefinition
    (change.scope scope).ofDefinition definitions fun definition member =>
      change.ofDefinition_eq scope definition fun doc inside =>
        fits doc (List.mem_flatMap.mpr ⟨definition, member, inside⟩)
  rw [Scope.testCases, Scope.testCases, all]
  apply change.compiled_bind
  intro found
  exact congrArg Except.ok List.map_flatten.symm

theorem backgroundSteps_eq (background : Option Background) :
    backgroundSteps (background.map change.background) =
      (backgroundSteps background).map change.step := by
  cases background <;> rfl

/-- Compiling a changed feature yields the changed test cases, or the changed failure. -/
theorem compile_eq_compiled (feature : Feature)
    (fits : ∀ doc ∈ feature.docStrings, change.Fits doc) :
    (change.feature feature).compile =
      change.compiled (List.map change.testCase) feature.compile := by
  have own := change.testCases_eq feature.scope feature.children fun doc member =>
    fits doc (List.mem_append_left _ (List.mem_append_right _ member))
  have ruled := change.compiled_mapM change.rule (List.map change.testCase)
    (fun rule => (feature.ruleScope rule).testCases rule.children)
    (fun rule => ((change.feature feature).ruleScope rule).testCases rule.children) feature.rules
    fun rule member => by
      have inside := change.testCases_eq (feature.ruleScope rule) rule.children fun doc held =>
        fits doc (List.mem_append_right _ (List.mem_flatMap.mpr
          ⟨rule, member, List.mem_append_right _ held⟩))
      have scope : change.scope (feature.ruleScope rule) =
          (change.feature feature).ruleScope (change.rule rule) := by
        simp [Change.scope, Feature.ruleScope, Change.feature, Change.rule, Change.heading,
          backgroundSteps_eq]
      rw [scope] at inside
      exact inside
  -- The scopes change with the feature, so the two halves of a compilation can be compared one by one.
  have scope : change.scope feature.scope = (change.feature feature).scope := by
    simp [Change.scope, Feature.scope, Change.feature, backgroundSteps_eq]
  rw [scope] at own
  rw [Feature.compile, Feature.compile]
  have children : (change.feature feature).scope.testCases (change.feature feature).children = _ := own
  rw [children]
  apply change.compiled_bind
  intro found
  have rules : (change.feature feature).rules.mapM
      (fun rule => ((change.feature feature).ruleScope rule).testCases rule.children) = _ := ruled
  rw [rules]
  apply change.compiled_bind
  intro others
  apply congrArg Except.ok
  rw [List.map_append, List.map_flatten]

end Change

end Gherkin
