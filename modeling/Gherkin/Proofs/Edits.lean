import Gherkin.Proofs.Parts

/-!
Edits of tokens.

A document can be edited so that only the arguments of its steps change. `Grammar.Carries` says what must
be known of one step and of the tokens around steps, and `Carries.document` takes a whole derivation
over: the edited tokens derive the same tree with its steps changed.
-/

namespace Gherkin

section Trees

variable (change : Step → Step)

def Background.mapSteps (background : Background) : Background :=
  { background with steps := background.steps.map change }

def Scenario.mapSteps (scenario : Scenario) : Scenario :=
  { scenario with steps := scenario.steps.map change }

def Definition.mapSteps : Definition → Definition
  | .scenario plain => .scenario (plain.mapSteps change)
  | .outline template =>
      .outline { toScenario := template.toScenario.mapSteps change, examples := template.examples }

def Rule.mapSteps (rule : Rule) : Rule :=
  { rule with
    background := rule.background.map (·.mapSteps change)
    children := rule.children.map (·.mapSteps change) }

def Feature.mapSteps (feature : Feature) : Feature :=
  { feature with
    background := feature.background.map (·.mapSteps change)
    children := feature.children.map (·.mapSteps change)
    rules := feature.rules.map (·.mapSteps change) }

def Part.mapSteps : Part → Part
  | .step action => .step (change action)
  | part => part

theorem map_step_parts (steps : List Step) :
    (steps.map change).map Part.step = (steps.map Part.step).map (Part.mapSteps change) := by
  simp [Part.mapSteps]

theorem Background.parts_mapSteps (background : Background) :
    (background.mapSteps change).parts = background.parts.map (Part.mapSteps change) := by
  rw [parts, parts, List.map_cons, ← map_step_parts]
  rfl

theorem Scenario.parts_mapSteps (keyword : BlockKeyword) (scenario : Scenario) :
    (scenario.mapSteps change).parts keyword = (scenario.parts keyword).map (Part.mapSteps change) := by
  rw [parts, parts, List.map_cons, ← map_step_parts]
  rfl

theorem Definition.parts_mapSteps (definition : Definition) :
    (definition.mapSteps change).parts = definition.parts.map (Part.mapSteps change) := by
  cases definition with
  | scenario plain => exact plain.parts_mapSteps change .scenario
  | outline template =>
      have examples : ∀ examples : Examples,
          examples.parts.map (Part.mapSteps change) = examples.parts := fun _ => rfl
      simp only [mapSteps, parts, Scenario.parts_mapSteps, List.map_append, List.map_flatMap, examples]

theorem Rule.parts_mapSteps (rule : Rule) :
    (rule.mapSteps change).parts = rule.parts.map (Part.mapSteps change) := by
  cases founded : rule.background <;>
    simp [mapSteps, parts, founded, List.flatMap_map, List.map_flatMap, Background.parts_mapSteps,
      Definition.parts_mapSteps, Part.mapSteps]

theorem Feature.parts_mapSteps (feature : Feature) :
    (feature.mapSteps change).parts = feature.parts.map (Part.mapSteps change) := by
  cases founded : feature.background <;>
    simp [mapSteps, parts, founded, List.flatMap_map, List.map_flatMap, Background.parts_mapSteps,
      Definition.parts_mapSteps, Rule.parts_mapSteps, Part.mapSteps]

end Trees

def TokenKind.stays : TokenKind → Bool
  | step | eof => false
  | _ => true

section Staying

variable {edit : List Token → List Token}
  (stays : ∀ {token : Token} (tokens : List Token), token.kind.stays = true →
    edit (token :: tokens) = token :: edit tokens)
  {tokens rest : List Token}

theorem Many.edited {α β : Type} {item : Production α} {image : Production β} (function : α → β)
    {values : List α} (derived : Many item tokens values rest)
    (once : ∀ {tokens value rest}, item tokens value rest →
      image (edit tokens) (function value) (edit rest)) :
    Many image (edit tokens) (values.map function) (edit rest) := by
  induction derived with
  | nil => exact .nil
  | cons first _ ih => exact .cons (once first) ih

theorem Many.edited_same {α : Type} {item : Production α} {values : List α}
    (derived : Many item tokens values rest)
    (once : ∀ {tokens value rest}, item tokens value rest → item (edit tokens) value (edit rest)) :
    Many item (edit tokens) values (edit rest) := by
  have mapped : Many item (edit tokens) (values.map id) (edit rest) := derived.edited id once
  rwa [List.map_id] at mapped

include stays

theorem DerivesTagLine.edited {tags : List Tag} (derived : DerivesTagLine tokens tags rest) :
    DerivesTagLine (edit tokens) tags (edit rest) := by
  induction derived with
  | last opens ends =>
      rw [stays _ (by rw [opens]; rfl), stays _ (by rw [ends]; rfl)]
      exact .last opens ends
  | more opens _ ih =>
      rw [stays _ (by rw [opens]; rfl)]
      exact .more opens ih

theorem DerivesTags.edited {tags : List Tag} (derived : DerivesTags tokens tags rest) :
    DerivesTags (edit tokens) tags (edit rest) := by
  cases derived with
  | intro lined => exact .intro (lined.edited_same fun line => line.edited stays)

theorem DerivesName.edited {text : Text} (derived : DerivesName tokens text rest) :
    DerivesName (edit tokens) text (edit rest) := by
  cases derived with
  | intro opens =>
      rw [stays _ (by rw [opens]; rfl)]
      exact .intro opens

theorem DerivesOptionalName.edited {text : Text} (derived : DerivesOptionalName tokens text rest) :
    DerivesOptionalName (edit tokens) text (edit rest) := by
  cases derived with
  | absent => exact .absent
  | present here => exact .present (here.edited stays)

theorem DerivesDescriptionLine.edited {text : Text} (derived : DerivesDescriptionLine tokens text rest) :
    DerivesDescriptionLine (edit tokens) text (edit rest) := by
  cases derived with
  | intro opens =>
      rw [stays _ (by rw [opens]; rfl)]
      exact .intro opens

theorem DerivesHeading.edited {keyword : BlockKeyword} {name : Production Text} {heading : Heading}
    (once : ∀ {tokens text rest}, name tokens text rest → name (edit tokens) text (edit rest))
    (derived : DerivesHeading keyword name tokens heading rest) :
    DerivesHeading keyword name (edit tokens) heading (edit rest) := by
  cases derived with
  | intro opens named described =>
      rw [stays _ (by rw [opens]; rfl)]
      exact .intro opens (once named) (described.edited_same fun line => line.edited stays)

theorem DerivesCells.edited {border : Location} {cells : List TableCell}
    (derived : DerivesCells border tokens cells rest) :
    DerivesCells border (edit tokens) cells (edit rest) := by
  induction derived with
  | ending ends =>
      rw [stays _ (by rw [ends]; rfl)]
      exact .ending ends
  | empty closes _ ih =>
      rw [stays _ (by rw [closes]; rfl)]
      exact .empty closes ih
  | filled opens closes _ ih =>
      rw [stays _ (by rw [opens]; rfl), stays _ (by rw [closes]; rfl)]
      exact .filled opens closes ih

theorem DerivesRow.edited {row : TableRow} (derived : DerivesRow tokens row rest) :
    DerivesRow (edit tokens) row (edit rest) := by
  cases derived with
  | intro opens filled =>
      rw [stays _ (by rw [opens]; rfl)]
      exact .intro opens (filled.edited stays)

theorem DerivesTable.edited {table : DataTable} (derived : DerivesTable tokens table rest) :
    DerivesTable (edit tokens) table (edit rest) := by
  cases derived with
  | intro filled even => exact .intro (filled.edited_same fun row => row.edited stays) even

theorem edit_append {front : List Token} (plain : ∀ token ∈ front, token.kind.stays = true) :
    edit (front ++ tokens) = front ++ edit tokens := by
  induction front with
  | nil => rfl
  | cons token more ih =>
      obtain ⟨here, later⟩ := List.forall_mem_cons.mp plain
      rw [List.cons_append, stays _ here, ih later]
      rfl

theorem DerivesDocString.edited {block : Block} {doc : DocString}
    (derived : DerivesDocString block tokens doc rest) :
    DerivesDocString block (edit tokens) doc (edit rest) := by
  cases derived with
  | intro verbatim whole =>
      rw [edit_append stays fun token member => by rw [verbatim token member]; rfl]
      exact .intro verbatim whole

theorem Grammar.DerivesExamples.edited {examples : Examples}
    (derived : DerivesExamples tokens examples rest) :
    DerivesExamples (edit tokens) examples (edit rest) := by
  cases derived with
  | intro tagged headed filled distinct =>
      exact .intro (tagged.edited stays) (headed.edited stays fun named => named.edited stays)
        (filled.edited stays) distinct

end Staying

/-- An edit of tokens that goes with a change of steps. Steps keep all but their arguments, and the
argument that a changed step has must be derived from the edited tokens. -/
structure Grammar.Carries (grammar other : Grammar) (edit : List Token → List Token)
    (change : Step → Step) : Prop where
  dialect : other.dialect = grammar.dialect
  language : other.language = grammar.language
  stays : ∀ {token : Token} (tokens : List Token), token.kind.stays = true →
    edit (token :: tokens) = token :: edit tokens
  ending : ∀ {eof : Token}, eof.kind = .eof → ∃ last, edit [eof] = [last] ∧ last.kind = .eof
  step : ∀ {token name : Token} {tokens rest : List Token} {argument : Option StepArgument}
    (role : StepKeyword), token.kind = .step → name.kind = .name →
    grammar.argument name tokens argument rest → ∃ start taken,
      edit (token :: name :: tokens) = token :: name :: start ∧
      other.argument name start taken (edit rest) ∧
      change ⟨token.text, role, name.text, argument, token.location⟩ =
        ⟨token.text, role, name.text, taken, token.location⟩

namespace Grammar.Carries

variable {grammar other : Grammar} {edit : List Token → List Token} {change : Step → Step}
  (carries : grammar.Carries other edit change) {tokens rest : List Token}

include carries

theorem steps {earlier : List StepKeyword} {steps : List Step}
    (derived : grammar.DerivesSteps earlier tokens steps rest) :
    other.DerivesSteps earlier (edit tokens) (steps.map change) (edit rest) := by
  induction derived with
  | nil => exact .nil
  | @cons _ _ _ _ _ _ _ role _ _ opens spelled plays named takes _ ih =>
      obtain ⟨start, taken, split, further, same⟩ := carries.step role opens named takes
      rw [split, List.map_cons, same]
      exact .cons opens (carries.dialect ▸ spelled) plays named further ih

theorem background {background : Background}
    (derived : grammar.DerivesBackground tokens background rest) :
    other.DerivesBackground (edit tokens) (background.mapSteps change) (edit rest) := by
  cases derived with
  | intro headed filled =>
      exact .intro (headed.edited carries.stays fun named => named.edited carries.stays)
        (carries.steps filled)

theorem founded {background : Option Background}
    (derived : Maybe grammar.DerivesBackground tokens background rest) :
    Maybe other.DerivesBackground (edit tokens) (background.map (·.mapSteps change)) (edit rest) := by
  cases derived with
  | absent => exact .absent
  | present here => exact .present (carries.background here)

theorem scenario {keyword : BlockKeyword} {scenario : Scenario}
    (derived : grammar.DerivesScenario keyword tokens scenario rest) :
    other.DerivesScenario keyword (edit tokens) (scenario.mapSteps change) (edit rest) := by
  cases derived with
  | intro tagged headed filled =>
      exact .intro (tagged.edited carries.stays)
        (headed.edited carries.stays fun named => named.edited carries.stays) (carries.steps filled)

theorem definition {definition : Definition}
    (derived : grammar.DerivesDefinition tokens definition rest) :
    other.DerivesDefinition (edit tokens) (definition.mapSteps change) (edit rest) := by
  cases derived with
  | scenario here => exact .scenario (carries.scenario here)
  | outline here filled =>
      exact .outline (carries.scenario here) (filled.edited_same fun listed => listed.edited carries.stays)

theorem rule {rule : Rule} (derived : grammar.DerivesRule tokens rule rest) :
    other.DerivesRule (edit tokens) (rule.mapSteps change) (edit rest) := by
  cases derived with
  | intro tagged headed founded filled =>
      exact .intro (tagged.edited carries.stays)
        (headed.edited carries.stays fun named => named.edited carries.stays) (carries.founded founded)
        (filled.edited _ fun child => carries.definition child)

/-- The edited tokens of a document derive its tree with the steps changed. -/
theorem document {feature : Feature} (derived : grammar.DerivesDocument tokens feature) :
    other.DerivesDocument (edit tokens) (feature.mapSteps change) := by
  cases derived with
  | @intro _ _ _ _ eof _ _ _ _ _ tagged headed founded filled ruled ends =>
      obtain ⟨last, final, closes⟩ := carries.ending ends
      have ruled := ruled.edited _ fun rule => carries.rule rule
      rw [final] at ruled
      rw [← carries.language]
      exact .intro (tagged.edited carries.stays)
        (headed.edited carries.stays fun named => named.edited carries.stays) (carries.founded founded)
        (filled.edited _ fun child => carries.definition child) ruled closes

end Grammar.Carries

end Gherkin
