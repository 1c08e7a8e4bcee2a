import Gherkin.Proofs.Parts

/-!
What a feature holds, and where it was derived.

A feature holds doc strings, which are arguments of its steps, and the cells of its examples. Both are
found in its parts. To say something about all of them it is enough to say what a step and a table
contribute to the stretch of tokens they are derived from, provided that stretches can be put together:
`Grammar.Composes` states these conditions, and an account that meets them is a listing of parts.
-/

namespace Gherkin

def Step.docStrings (step : Step) : List DocString :=
  match step.argument with
  | some (.docString doc) => [doc]
  | _ => []

def Background.docStrings (background : Option Background) : List DocString :=
  (background.map (·.steps)).getD [] |>.flatMap Step.docStrings

def Definition.docStrings (definition : Definition) : List DocString :=
  definition.toScenario.steps.flatMap Step.docStrings

def Rule.docStrings (rule : Rule) : List DocString :=
  Background.docStrings rule.background ++ rule.children.flatMap Definition.docStrings

def Feature.docStrings (feature : Feature) : List DocString :=
  Background.docStrings feature.background ++ feature.children.flatMap Definition.docStrings ++
    feature.rules.flatMap Rule.docStrings

def DataTable.cells (table : DataTable) : List TableCell :=
  table.rows.flatMap (·.cells)

def Definition.exampleCells (definition : Definition) : List TableCell :=
  definition.examples.flatMap (·.table.cells)

def Rule.exampleCells (rule : Rule) : List TableCell :=
  rule.children.flatMap Definition.exampleCells

def Feature.exampleCells (feature : Feature) : List TableCell :=
  feature.children.flatMap Definition.exampleCells ++ feature.rules.flatMap Rule.exampleCells

/-! An account of a document is put together from accounts of its pieces in the same way for doc strings and
for cells, so the walk over derivations is made once. -/

/-- What is said of a stretch of tokens, the doc strings and cells derived from it, and the tokens
after it. -/
abbrev Account := List Token → List DocString → List TableCell → List Token → Prop

structure Grammar.Composes (grammar : Grammar) (account : Account) : Prop where
  trans : ∀ {tokens middle rest docs otherDocs cells otherCells}, account tokens docs cells middle →
    account middle otherDocs otherCells rest →
    account tokens (docs ++ otherDocs) (cells ++ otherCells) rest
  passes : ∀ {tokens rest}, Passes tokens rest → account tokens [] [] rest
  step : ∀ {token name tokens rest} (step : Step), token.kind = .step → name.kind = .name →
    grammar.argument name tokens step.argument rest →
    account (token :: name :: tokens) step.docStrings [] rest
  table : ∀ {tokens rest table}, DerivesTable tokens table rest → account tokens [] table.cells rest

namespace Part

def docStrings : Part → List DocString
  | step action => action.docStrings
  | _ => []

def exampleCells : Part → List TableCell
  | examples table => table.cells
  | _ => []

@[simp]
theorem flatMap_docStrings_steps (steps : List Step) :
    (steps.map step).flatMap docStrings = steps.flatMap Step.docStrings :=
  List.flatMap_map ..

@[simp]
theorem flatMap_exampleCells_steps (steps : List Step) :
    (steps.map step).flatMap exampleCells = [] := by
  simp [exampleCells, List.flatMap_map]

@[simp]
theorem flatMap_docStrings_background (background : Option Background) :
    (background.toList.flatMap fun present => present.parts.flatMap docStrings) =
      Background.docStrings background := by
  cases background <;> simp [Background.parts, Background.docStrings, docStrings]

@[simp]
theorem flatMap_exampleCells_background (background : Option Background) :
    (background.toList.flatMap fun present => present.parts.flatMap exampleCells) = [] := by
  cases background <;> simp [Background.parts, exampleCells]

@[simp]
theorem flatMap_docStrings_definition (definition : Definition) :
    definition.parts.flatMap docStrings = definition.docStrings := by
  cases definition <;>
    simp [Definition.parts, Definition.docStrings, Definition.toScenario, Scenario.parts,
      Examples.parts, docStrings, List.flatMap_assoc]

@[simp]
theorem flatMap_exampleCells_definition (definition : Definition) :
    definition.parts.flatMap exampleCells = definition.exampleCells := by
  cases definition <;>
    simp [Definition.parts, Definition.exampleCells, Definition.examples, Scenario.parts,
      Examples.parts, exampleCells, List.flatMap_assoc]

@[simp]
theorem flatMap_docStrings_rule (rule : Rule) :
    rule.parts.flatMap docStrings = rule.docStrings := by
  simp [Rule.parts, Rule.docStrings, docStrings, List.flatMap_assoc]

@[simp]
theorem flatMap_exampleCells_rule (rule : Rule) :
    rule.parts.flatMap exampleCells = rule.exampleCells := by
  simp [Rule.parts, Rule.exampleCells, exampleCells, List.flatMap_assoc]

theorem flatMap_docStrings_feature (feature : Feature) :
    feature.parts.flatMap docStrings = feature.docStrings := by
  simp [Feature.parts, Feature.docStrings, docStrings, List.flatMap_assoc]

theorem flatMap_exampleCells_feature (feature : Feature) :
    feature.parts.flatMap exampleCells = feature.exampleCells := by
  simp [Feature.parts, Feature.exampleCells, exampleCells, List.flatMap_assoc]

end Part

namespace Grammar.Composes

variable {grammar : Grammar} {account : Account} (composes : grammar.Composes account)

include composes

theorem lists : grammar.Lists fun tokens parts rest =>
    account tokens (parts.flatMap Part.docStrings) (parts.flatMap Part.exampleCells) rest where
  refl tokens := composes.passes (.refl tokens)
  trans first second := by
    rw [List.flatMap_append, List.flatMap_append]
    exact composes.trans first second
  tags derived := composes.passes derived.passes
  heading derived := composes.passes (derived.passes DerivesOptionalName.passes)
  step role opens named takes := by
    rw [List.flatMap_singleton, List.flatMap_singleton]
    exact composes.step _ opens named takes
  table derived _ := by
    rw [List.flatMap_singleton, List.flatMap_singleton]
    exact composes.table derived

theorem document {tokens : List Token} {feature : Feature}
    (derived : grammar.DerivesDocument tokens feature) :
    ∃ eof : Token, eof.kind = .eof ∧
      account tokens feature.docStrings feature.exampleCells [eof] := by
  obtain ⟨eof, ends, whole⟩ := composes.lists.document derived
  rw [Part.flatMap_docStrings_feature, Part.flatMap_exampleCells_feature] at whole
  exact ⟨eof, ends, whole⟩

end Grammar.Composes

end Gherkin
