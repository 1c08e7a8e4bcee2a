import Gherkin.Text

/-!
What keywords mean.

Every dialect spells its keywords differently; `BlockKeyword` and `StepKeyword` name the roles
behind the spellings. A `Category` is one list of spellings in a dialect.
-/

namespace Gherkin

inductive BlockKeyword where
  | feature
  | rule
  | background
  | scenario
  | scenarioOutline
  | examples
  deriving DecidableEq

namespace BlockKeyword

def all : List BlockKeyword :=
  [.feature, .rule, .background, .scenario, .scenarioOutline, .examples]

def title : BlockKeyword → String
  | .feature => "Feature"
  | .rule => "Rule"
  | .background => "Background"
  | .scenario => "Scenario"
  | .scenarioOutline => "Scenario Outline"
  | .examples => "Examples"

end BlockKeyword

inductive StepKeyword where
  | given
  | when
  | «then»
  | and
  | but
  deriving DecidableEq

structure UnknownStepKeyword where
  text : Text
  deriving DecidableEq

def UnknownStepKeyword.message (error : UnknownStepKeyword) : String :=
  "invalid step keyword: " ++ String.ofList error.text

namespace StepKeyword

def all : List StepKeyword :=
  [.given, .when, .«then», .and, .but]

def title : StepKeyword → String
  | .given => "Given"
  | .when => "When"
  | .«then» => "Then"
  | .and => "And"
  | .but => "But"

def isConjunction : StepKeyword → Bool
  | .and | .but => true
  | _ => false

/-- The role a step takes after a step of role `previous`. A conjunction repeats that role, and
has none at the start of a block. The result is also what the next step sees as `previous`. -/
def resolve (keyword : StepKeyword) (previous : Option StepKeyword) : Option StepKeyword :=
  if keyword.isConjunction then previous else some keyword

def parse (text : Text) : Except UnknownStepKeyword StepKeyword :=
  let bare := text.trim
  match all.find? fun keyword => bare.map Char.toLower = keyword.title.toList.map Char.toLower with
  | some keyword => .ok keyword
  | none => .error ⟨bare⟩

end StepKeyword

inductive Category where
  | block (keyword : BlockKeyword)
  | step (keyword : StepKeyword)
  deriving DecidableEq

namespace Category

def all : List Category :=
  BlockKeyword.all.map block ++ StepKeyword.all.map step

/-- The categories no dialect may leave empty, in the order they are checked. Rules came to the
language late, so a dialect may have no word for them. -/
def required : List Category :=
  all.filter (· ≠ block .rule)

def field : Category → String
  | block .feature => "feature"
  | block .rule => "rule"
  | block .background => "background"
  | block .scenario => "scenario"
  | block .scenarioOutline => "scenarioOutline"
  | block .examples => "examples"
  | step .given => "given"
  | step .when => "when"
  | step .«then» => "then"
  | step .and => "and"
  | step .but => "but"

theorem mem_all (category : Category) : category ∈ all := by
  cases category with
  | block keyword => cases keyword <;> decide
  | step keyword => cases keyword <;> decide

theorem mem_required_iff {category : Category} : category ∈ required ↔ category ≠ block .rule := by
  simp [required, mem_all]

end Category

end Gherkin
