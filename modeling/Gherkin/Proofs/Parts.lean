import Gherkin.Proofs.Productions

/-!
The parts of a feature.

A feature is a tree of headings, steps and tables of examples. `Feature.parts` lists them in the order
they stand in a document. To say something about all of them it is enough to say what each contributes
to the stretch of tokens it is derived from, provided that stretches can be put together: `Grammar.Lists`
states these conditions, and `Lists.document` goes through a whole derivation. It follows that every
part has a derivation of its own, and that the parts stand one after the other.
-/

namespace Gherkin

/-- What the tree of a document is made of, tags aside. -/
inductive Part where
  | heading (keyword : BlockKeyword) (heading : Heading)
  | step (step : Step)
  | examples (table : DataTable)

def Part.location : Part → Location
  | heading _ opening => opening.location
  | step action => action.location
  | examples table => table.location

def Background.parts (background : Background) : List Part :=
  .heading .background background.toHeading :: background.steps.map .step

def Scenario.parts (keyword : BlockKeyword) (scenario : Scenario) : List Part :=
  .heading keyword scenario.toHeading :: scenario.steps.map .step

def Examples.parts (examples : Examples) : List Part :=
  [.heading .examples examples.toHeading, .examples examples.table]

def Definition.parts : Definition → List Part
  | .scenario plain => plain.parts .scenario
  | .outline template =>
      template.toScenario.parts .scenarioOutline ++ template.examples.flatMap Examples.parts

def Rule.parts (rule : Rule) : List Part :=
  .heading .rule rule.toHeading :: (rule.background.toList.flatMap Background.parts ++
    rule.children.flatMap Definition.parts)

def Feature.parts (feature : Feature) : List Part :=
  .heading .feature feature.toHeading :: (feature.background.toList.flatMap Background.parts ++
    feature.children.flatMap Definition.parts ++ feature.rules.flatMap Rule.parts)

abbrev Listing := List Token → List Part → List Token → Prop

structure Grammar.Lists (grammar : Grammar) (listing : Listing) : Prop where
  refl : ∀ tokens, listing tokens [] tokens
  trans : ∀ {tokens middle rest parts others}, listing tokens parts middle →
    listing middle others rest → listing tokens (parts ++ others) rest
  tags : ∀ {tokens tags rest}, DerivesTags tokens tags rest → listing tokens [] rest
  heading : ∀ {keyword tokens heading rest},
    DerivesHeading keyword DerivesOptionalName tokens heading rest →
    listing tokens [.heading keyword heading] rest
  step : ∀ {token name tokens rest argument} (role : StepKeyword), token.kind = .step →
    name.kind = .name → grammar.argument name tokens argument rest →
    listing (token :: name :: tokens)
      [.step ⟨token.text, role, name.text, argument, token.location⟩] rest
  table : ∀ {tokens table rest}, DerivesTable tokens table rest →
    (∀ header ∈ table.rows.head?, header.values.Nodup) → listing tokens [.examples table] rest

/-- A name that must be there can be. -/
theorem DerivesHeading.optional {keyword : BlockKeyword} {tokens rest : List Token} {heading : Heading}
    (derived : DerivesHeading keyword DerivesName tokens heading rest) :
    DerivesHeading keyword DerivesOptionalName tokens heading rest := by
  cases derived with
  | intro opens named described => exact .intro opens (.present named) described

namespace Grammar.Lists

variable {grammar : Grammar} {listing : Listing} (lists : grammar.Lists listing)
  {tokens rest : List Token}

include lists

theorem steps {earlier : List StepKeyword} {steps : List Step}
    (derived : grammar.DerivesSteps earlier tokens steps rest) :
    listing tokens (steps.map .step) rest := by
  induction derived with
  | nil => exact lists.refl _
  | cons opens _ _ named takes _ ih => exact lists.trans (lists.step _ opens named takes) ih

theorem many {α : Type} {item : Production α} {parts : α → List Part} {values : List α}
    (derived : Many item tokens values rest)
    (once : ∀ tokens value rest, item tokens value rest → listing tokens (parts value) rest) :
    listing tokens (values.flatMap parts) rest := by
  induction derived with
  | nil => exact lists.refl _
  | cons first _ ih => exact lists.trans (once _ _ _ first) ih

theorem background {background : Option Background}
    (derived : Maybe grammar.DerivesBackground tokens background rest) :
    listing tokens (background.toList.flatMap Background.parts) rest := by
  cases derived with
  | absent => exact lists.refl _
  | present here =>
      cases here with
      | intro headed filled =>
          have whole := lists.trans (lists.heading headed) (lists.steps filled)
          simpa [Background.parts] using whole

theorem scenario {keyword : BlockKeyword} {scenario : Scenario}
    (derived : grammar.DerivesScenario keyword tokens scenario rest) :
    listing tokens (scenario.parts keyword) rest := by
  cases derived with
  | intro tagged headed filled =>
      exact lists.trans (lists.tags tagged) (lists.trans (lists.heading headed) (lists.steps filled))

theorem examples {examples : Examples} (derived : DerivesExamples tokens examples rest) :
    listing tokens examples.parts rest := by
  cases derived with
  | intro tagged headed filled distinct =>
      exact lists.trans (lists.tags tagged)
        (lists.trans (lists.heading headed) (lists.table filled distinct))

theorem definition {definition : Definition}
    (derived : grammar.DerivesDefinition tokens definition rest) :
    listing tokens definition.parts rest := by
  cases derived with
  | scenario here => exact lists.scenario here
  | outline here listed => exact lists.trans (lists.scenario here) (lists.many listed fun _ _ _ => lists.examples)

theorem rule {rule : Rule} (derived : grammar.DerivesRule tokens rule rest) :
    listing tokens rule.parts rest := by
  cases derived with
  | intro tagged headed founded filled =>
      have inner := lists.trans (lists.background founded) (lists.many filled fun _ _ _ => lists.definition)
      exact lists.trans (lists.tags tagged) (lists.trans (lists.heading headed) inner)

theorem document {feature : Feature} (derived : grammar.DerivesDocument tokens feature) :
    ∃ eof : Token, eof.kind = .eof ∧ listing tokens feature.parts [eof] := by
  cases derived with
  | @intro _ _ _ _ eof _ _ _ _ _ tagged headed founded filled ruled ends =>
      have inner := lists.trans (lists.background founded) (lists.many filled fun _ _ _ => lists.definition)
      have outer := lists.trans inner (lists.many ruled fun _ _ _ => lists.rule)
      exact ⟨eof, ends,
        lists.trans (lists.tags tagged) (lists.trans (lists.heading headed.optional) outer)⟩

end Grammar.Lists

inductive Part.Derived (grammar : Grammar) (tokens : List Token) : Part → Prop where
  | heading {keyword : BlockKeyword} {heading : Heading} {start rest : List Token}
      (within : start <:+ tokens)
      (headed : DerivesHeading keyword DerivesOptionalName start heading rest) :
      Derived grammar tokens (.heading keyword heading)
  | step {token name : Token} {start rest : List Token} {role : StepKeyword}
      {argument : Option StepArgument} (within : token :: name :: start <:+ tokens)
      (opens : token.kind = .step) (named : name.kind = .name)
      (takes : grammar.argument name start argument rest) :
      Derived grammar tokens (.step ⟨token.text, role, name.text, argument, token.location⟩)
  | examples {table : DataTable} {start rest : List Token} (within : start <:+ tokens)
      (filled : DerivesTable start table rest)
      (distinct : ∀ header ∈ table.rows.head?, header.values.Nodup) :
      Derived grammar tokens (.examples table)

theorem Part.Derived.mono {grammar : Grammar} {tokens others : List Token} {part : Part}
    (derived : part.Derived grammar tokens) (within : tokens <:+ others) :
    part.Derived grammar others := by
  cases derived with
  | heading start headed => exact .heading (start.trans within) headed
  | step start opens named takes => exact .step (start.trans within) opens named takes
  | examples start filled distinct => exact .examples (start.trans within) filled distinct

/-- Parts that are derived from a stretch of tokens and begin with some of them, in order. -/
structure Traced (grammar : Grammar) (tokens : List Token) (parts : List Part) (rest : List Token) :
    Prop where
  derived : ∀ part ∈ parts, part.Derived grammar tokens
  places : ∃ taken, taken ++ rest = tokens ∧
    (parts.map Part.location).Sublist (taken.map (·.location))

section Tracing

variable {grammar : Grammar} {tokens middle rest : List Token} {parts others : List Part}

theorem Traced.trans (first : Traced grammar tokens parts middle)
    (second : Traced grammar middle others rest) : Traced grammar tokens (parts ++ others) rest := by
  obtain ⟨left, joined, early⟩ := first.places
  obtain ⟨right, further, late⟩ := second.places
  constructor
  case derived =>
    intro part member
    rcases List.mem_append.mp member with here | there
    · exact first.derived part here
    · exact (second.derived part there).mono ⟨left, joined⟩
  case places =>
    refine ⟨left ++ right, by rw [List.append_assoc, further, joined], ?_⟩
    rw [List.map_append, List.map_append]
    exact early.append late

theorem Passes.traced (passes : Passes tokens rest) : Traced grammar tokens [] rest := by
  obtain ⟨taken, joined, _⟩ := passes
  exact ⟨by simp, taken, joined, List.nil_sublist _⟩

/-- A part that begins with the first token of the stretch. -/
theorem traced_singleton {token : Token} {part : Part} (derived : part.Derived grammar (token :: tokens))
    (place : part.location = token.location) (within : rest <:+ tokens) :
    Traced grammar (token :: tokens) [part] rest := by
  obtain ⟨taken, joined⟩ := within
  refine ⟨by simpa using derived, token :: taken, by simp [joined], ?_⟩
  rw [List.map_singleton, List.map_cons, place]
  exact (List.nil_sublist _).cons_cons _

theorem lists_traced (takes : ∀ {name tokens argument rest},
    grammar.argument name tokens argument rest → rest <:+ tokens) : grammar.Lists (Traced grammar) where
  refl tokens := (Passes.refl tokens).traced
  trans := Traced.trans
  tags derived := derived.passes.traced
  heading derived := by
    have here : Part.Derived grammar _ _ := .heading (List.suffix_refl _) derived
    cases derived with
    | intro opens named described =>
        have passes := named.passes.trans (described.passes DerivesDescriptionLine.passes)
        exact traced_singleton here rfl passes.suffix
  step role opens named taken := by
    refine traced_singleton (.step (List.suffix_refl _) opens named taken) rfl ?_
    exact (takes taken).trans (List.suffix_cons _ _)
  table derived distinct := by
    have here : Part.Derived grammar _ _ := .examples (List.suffix_refl _) derived distinct
    cases derived with
    | intro filled _ =>
        cases filled with
        | cons first others =>
            cases first with
            | intro opens cells =>
                have passes := cells.passes.trans (others.passes DerivesRow.passes)
                exact traced_singleton here rfl passes.suffix

theorem Grammar.DerivesDocument.traced (takes : ∀ {name tokens argument rest},
    grammar.argument name tokens argument rest → rest <:+ tokens) {feature : Feature}
    (derived : grammar.DerivesDocument tokens feature) :
    (∀ part ∈ feature.parts, part.Derived grammar tokens) ∧
      (feature.parts.map Part.location).Sublist (tokens.dropLast.map (·.location)) := by
  obtain ⟨eof, _, traced⟩ := (lists_traced takes).document derived
  obtain ⟨taken, joined, places⟩ := traced.places
  rw [← joined, List.dropLast_concat]
  exact ⟨joined ▸ traced.derived, places⟩

end Tracing

end Gherkin
