import Gherkin.Proofs.Arrangement
import Gherkin.Proofs.Headers
import Gherkin.Proofs.Keywords

/-!
The roles of steps.

A step has the role of its keyword, and a conjunction that of the step in front of it. In front means in
the same list: the steps of every background, scenario and outline begin anew. So a list never begins
with a conjunction, and no step has the role of one. Compiling leaves roles as they are.
-/

namespace Gherkin

def blockSteps (background : Option Background) (children : List Definition) : List (List Step) :=
  background.toList.map (·.steps) ++ children.map (·.toScenario.steps)

def Feature.stepLists (feature : Feature) : List (List Step) :=
  blockSteps feature.background feature.children ++
    feature.rules.flatMap fun rule => blockSteps rule.background rule.children

namespace Dialect

/-- The role of a step behind some others of its list: that of its own keyword, unless this is a
conjunction. -/
def Plays (dialect : Dialect) (before : List Step) (step : Step) : Prop :=
  ∃ keyword, dialect.stepRole? step.keyword.trimEnd = some keyword ∧
    (keyword.isConjunction = false ∧ step.role = keyword ∨
      keyword.isConjunction = true ∧ ∃ prior ∈ before.getLast?, step.role = prior.role)

def Resolves (dialect : Dialect) (steps : List Step) : Prop :=
  ∀ before step behind, steps = before ++ step :: behind → dialect.Plays before step

variable {dialect : Dialect} {prior : List Step} {step : Step}

theorem resolves_nil (dialect : Dialect) : dialect.Resolves [] := by
  intro before step behind split
  simp at split

theorem resolves_concat :
    dialect.Resolves (prior ++ [step]) ↔ dialect.Resolves prior ∧ dialect.Plays prior step := by
  constructor
  · intro resolves
    refine ⟨?_, resolves prior step [] rfl⟩
    intro before other behind split
    exact resolves before other (behind ++ [step]) (by simp [split])
  · rintro ⟨earlier, last⟩ before other behind split
    rcases List.eq_nil_or_concat' behind with rfl | ⟨behind, final, rfl⟩
    · obtain ⟨rfl, same⟩ := List.append_inj' split rfl
      cases same
      exact last
    · have whole : prior ++ [step] = (before ++ other :: behind) ++ [final] := by simp [split]
      exact earlier before other behind (List.append_inj' whole rfl).1

/-- No step has the role of a conjunction: it has its own role, or one that another step has. -/
theorem Resolves.role {steps : List Step} (resolves : dialect.Resolves steps) :
    ∀ step ∈ steps, step.role.isConjunction = false := by
  induction steps using List.reverseRecOn with
  | nil => simp
  | append_singleton prior last ih =>
      obtain ⟨earlier, keyword, _, plays⟩ := resolves_concat.mp resolves
      intro step member
      rcases List.mem_append.mp member with held | final
      · exact ih earlier step held
      · rw [List.mem_singleton.mp final]
        rcases plays with ⟨own, same⟩ | ⟨_, other, before, same⟩
        · rw [same, own]
        · rw [same]
          exact ih earlier other (List.mem_of_getLast? before)

theorem Resolves.first {steps : List Step} (resolves : dialect.Resolves steps) :
    ∀ step ∈ steps.head?, ∃ keyword, dialect.stepRole? step.keyword.trimEnd = some keyword ∧
      keyword.isConjunction = false := by
  intro step first
  obtain ⟨behind, rfl⟩ := List.head?_eq_some_iff.mp first
  obtain ⟨keyword, found, ⟨own, _⟩ | ⟨_, _, none, _⟩⟩ := resolves [] step behind rfl
  · exact ⟨keyword, found, own⟩
  · cases none

end Dialect

namespace Grammar

variable {grammar : Grammar} {tokens rest : List Token}

/-- What the keywords before a step tell about its role is the role of the last step before it. -/
theorem DerivesSteps.resolves {earlier : List StepKeyword} {steps prior : List Step}
    (derived : grammar.DerivesSteps earlier tokens steps rest)
    (known : earlier.find? (fun other => !other.isConjunction) = prior.getLast?.map (·.role))
    (resolves : grammar.dialect.Resolves prior) : grammar.dialect.Resolves (prior ++ steps) := by
  induction derived generalizing prior with
  | nil => rwa [List.append_nil]
  | @cons earlier token name tokens middle rest keyword role argument steps opens spelled plays named
      takes _ ih =>
      have found := spelled
      rw [Dialect.stepKeyword?_eq] at found
      rw [List.append_cons]
      refine ih ?_ (Dialect.resolves_concat.mpr ⟨resolves, keyword, found, ?_⟩)
      · simpa using plays
      · rw [Transcript.find?_role, known, StepKeyword.resolve] at plays
        cases conjunction : keyword.isConjunction with
        | false =>
            rw [conjunction] at plays
            exact Or.inl ⟨rfl, (Option.some.inj plays).symm⟩
        | true =>
            rw [conjunction, if_pos rfl] at plays
            obtain ⟨last, before, same⟩ := Option.map_eq_some_iff.mp plays
            exact Or.inr ⟨rfl, last, before, same.symm⟩

/-- A list of steps that is derived somewhere among the tokens, with nothing in front of it. -/
def Holds (grammar : Grammar) (tokens : List Token) (steps : List Step) : Prop :=
  ∃ start rest, start <:+ tokens ∧ grammar.DerivesSteps [] start steps rest

theorem Holds.mono {others : List Token} {steps : List Step} (holds : grammar.Holds others steps)
    (within : others <:+ tokens) : grammar.Holds tokens steps := by
  obtain ⟨start, rest, among, derived⟩ := holds
  exact ⟨start, rest, among.trans within, derived⟩

theorem DerivesScenario.holds {keyword : BlockKeyword} {scenario : Scenario}
    (derived : grammar.DerivesScenario keyword tokens scenario rest) :
    grammar.Holds tokens scenario.steps := by
  cases derived with
  | intro tagged headed filled =>
      have headed := (headed.passes DerivesOptionalName.passes).suffix
      exact ⟨_, _, headed.trans tagged.passes.suffix, filled⟩

theorem DerivesDefinition.holds {definition : Definition}
    (derived : grammar.DerivesDefinition tokens definition rest) :
    grammar.Holds tokens definition.toScenario.steps := by
  cases derived with
  | scenario here => exact here.holds
  | outline here _ => exact here.holds

theorem holds_of_background {background : Option Background}
    (derived : Maybe grammar.DerivesBackground tokens background rest) :
    ∀ held ∈ background.toList, grammar.Holds tokens held.steps := by
  cases derived with
  | absent => simp
  | present here =>
      cases here with
      | intro headed filled =>
          intro held member
          rw [List.mem_singleton.mp member]
          exact ⟨_, _, (headed.passes DerivesOptionalName.passes).suffix, filled⟩

section Suffixes

variable (takes : ∀ {name tokens argument rest}, grammar.argument name tokens argument rest →
  rest <:+ tokens)

include takes

theorem holds_of_blocks {middle : List Token} {background : Option Background}
    {children : List Definition}
    (founded : Maybe grammar.DerivesBackground tokens background middle)
    (filled : Many grammar.DerivesDefinition middle children rest) :
    ∀ steps ∈ blockSteps background children, grammar.Holds tokens steps := by
  intro steps listed
  rcases List.mem_append.mp listed with ground | defined
  · obtain ⟨held, member, rfl⟩ := List.mem_map.mp ground
    exact holds_of_background founded held member
  · obtain ⟨definition, member, rfl⟩ := List.mem_map.mp defined
    obtain ⟨start, stop, within, here⟩ :=
      filled.exists_of_mem (fun derived => (derived.suffix takes).1) member
    exact here.holds.mono (within.trans (suffix_of_background takes founded))

theorem DerivesRule.holds {rule : Rule} (derived : grammar.DerivesRule tokens rule rest) :
    ∀ steps ∈ blockSteps rule.background rule.children, grammar.Holds tokens steps := by
  cases derived with
  | intro tagged headed founded filled =>
      have opening := (headed.passes DerivesOptionalName.passes).suffix.trans tagged.passes.suffix
      exact fun steps listed => (holds_of_blocks takes founded filled steps listed).mono opening

/-- The steps of every block are derived as a list of their own. -/
theorem DerivesDocument.holds {feature : Feature} (derived : grammar.DerivesDocument tokens feature) :
    ∀ steps ∈ feature.stepLists, grammar.Holds tokens steps := by
  cases derived with
  | intro tagged headed founded filled ruled _ =>
      have opening :=
        (headed.optional.passes DerivesOptionalName.passes).suffix.trans tagged.passes.suffix
      have behind := (suffix_of_definitions takes filled).trans (suffix_of_background takes founded)
      intro steps listed
      rcases List.mem_append.mp listed with own | inner
      · exact (holds_of_blocks takes founded filled steps own).mono opening
      · obtain ⟨rule, among, held⟩ := List.mem_flatMap.mp inner
        obtain ⟨start, stop, within, here⟩ :=
          ruled.exists_of_mem (fun derived => (derived.suffix takes).1) among
        exact (here.holds takes steps held).mono ((within.trans behind).trans opening)

/-- A step keeps the text and the place of its keyword. -/
theorem DerivesSteps.exists_token {earlier : List StepKeyword} {steps : List Step}
    (derived : grammar.DerivesSteps earlier tokens steps rest) {step : Step} (member : step ∈ steps) :
    ∃ token ∈ tokens, token.kind = .step ∧ token.text = step.keyword ∧
      token.location = step.location := by
  induction derived with
  | nil => cases member
  | @cons _ token name _ _ _ _ _ _ _ opens _ _ _ taken _ ih =>
      rcases List.mem_cons.mp member with rfl | later
      · exact ⟨token, List.mem_cons_self, opens, rfl, rfl⟩
      · obtain ⟨other, held, found⟩ := ih later
        have inside := (takes taken).subset held
        exact ⟨other, List.mem_cons_of_mem token (List.mem_cons_of_mem name inside), found⟩

end Suffixes

end Grammar

theorem exists_of_mem_background {background : Option Background} {step : Step}
    (member : step ∈ (background.map (·.steps)).getD []) (children : List Definition) :
    ∃ steps ∈ blockSteps background children, step ∈ steps := by
  cases background with
  | none => cases member
  | some held => exact ⟨held.steps, List.mem_cons_self, member⟩

/-- The steps of a test case are taken from the blocks around. -/
theorem Feature.exists_of_mem_origins {feature : Feature} {origin : Origin}
    (member : origin ∈ feature.origins) {step : Step}
    (held : step ∈ origin.background feature ++ origin.scenario.steps) :
    ∃ steps ∈ feature.stepLists, step ∈ steps := by
  have outer : ∀ steps ∈ blockSteps feature.background feature.children, steps ∈ feature.stepLists :=
    fun steps listed => List.mem_append_left _ listed
  have inner : ∀ rule ∈ feature.rules, ∀ steps ∈ blockSteps rule.background rule.children,
      steps ∈ feature.stepLists := fun rule among steps listed =>
    List.mem_append_right _ (List.mem_flatMap.mpr ⟨rule, among, listed⟩)
  rcases List.mem_append.mp held with before | own
  · rcases List.mem_append.mp before with ground | ruled
    · obtain ⟨steps, listed, found⟩ := exists_of_mem_background ground feature.children
      exact ⟨steps, outer steps listed, found⟩
    · rcases Feature.origin_cases member with ⟨rule, _⟩ | ⟨parent, among, rule, _⟩
      · rw [rule] at ruled
        cases ruled
      · rw [rule] at ruled
        obtain ⟨steps, listed, found⟩ := exists_of_mem_background ruled parent.children
        exact ⟨steps, inner parent among steps listed, found⟩
  · rcases Feature.origin_cases member with ⟨_, definition, child, made⟩ |
      ⟨parent, among, _, definition, child, made⟩
    · rw [made.scenario] at own
      exact ⟨_, outer _ (List.mem_append_right _ (List.mem_map_of_mem child)), own⟩
    · rw [made.scenario] at own
      exact ⟨_, inner parent among _ (List.mem_append_right _ (List.mem_map_of_mem child)), own⟩

/-- A step of a test case is one of the feature, up to what values are put in. -/
theorem exists_of_compile {feature : Feature} {tests : List TestCase}
    (compiled : feature.compile = .ok tests) {test : TestCase} (member : test ∈ tests) {step : Step}
    (held : step ∈ test.steps) :
    ∃ steps ∈ feature.stepLists, ∃ source ∈ steps, step.shape = source.shape := by
  rw [Feature.testCases_of_compile compiled] at member
  obtain ⟨origin, listed, rfl⟩ := List.mem_map.mp member
  have shaped : step.shape ∈ (origin.testCase feature).steps.map Step.shape := List.mem_map_of_mem held
  rw [shape_testCase] at shaped
  obtain ⟨source, inside, same⟩ := List.mem_map.mp shaped
  obtain ⟨steps, among, found⟩ := Feature.exists_of_mem_origins listed inside
  exact ⟨steps, among, source, found, same.symm⟩

/-- The steps of every block are resolved in the dialect of the document, and their keywords are written
there. -/
theorem resolves_of_parse {setup : Setup} {text : Text} {feature : Feature}
    (parsed : parse setup text = .ok feature) :
    ∃ dialect, setup.registry.find? feature.language = some dialect ∧
      ∀ steps ∈ feature.stepLists, dialect.Resolves steps ∧
        ∀ step ∈ steps, text.Has step.location step.keyword := by
  obtain ⟨tokens, last, reads, derived⟩ := derives_of_parse parsed
  obtain ⟨_, done, _⟩ := tokenize_of_reads_ok reads
  have language : feature.language = text.language setup := by
    rw [← language_of_reads reads]
    cases derived
    exact congrArg Mode.language done.reached
  have dialect : (Grammar.ofReader (.afterDocument setup text)).dialect = last.dialect :=
    congrArg Mode.dialect done.reached
  refine ⟨last.dialect, by rw [language]; exact registered_of_reads reads, ?_⟩
  intro steps listed
  obtain ⟨start, rest, within, stepped⟩ := derived.holds Grammar.suffix_ofReader steps listed
  constructor
  · rw [← dialect]
    exact stepped.resolves (by rfl) (Dialect.resolves_nil _)
  · intro step member
    obtain ⟨token, held, kind, keyword, place⟩ := stepped.exists_token Grammar.suffix_ofReader member
    have read := mem_of_mem_presented (within.subset held) (by simp [kind])
    rw [← keyword, ← place]
    exact has_of_reads reads read (by simp [kind])

/-- In every list of steps of an accepted document a step has the role of its keyword in the dialect of
the document, and a conjunction has that of the step in front of it in the list, where there is one. So
all roles, also those in test cases, are proper ones. Keywords are kept as they are written. -/
theorem roles_within_blocks (setup : Setup) (text : Text) (feature : Feature)
    (parsed : parse setup text = .ok feature) :
    ∃ dialect, setup.registry.find? feature.language = some dialect ∧
      (∀ steps ∈ feature.stepLists, dialect.Resolves steps ∧
        (∀ first ∈ steps.head?, ∃ keyword, dialect.stepRole? first.keyword.trimEnd = some keyword ∧
          keyword.isConjunction = false) ∧
        ∀ step ∈ steps, step.role.isConjunction = false ∧ text.Has step.location step.keyword) ∧
      ∀ tests, feature.compile = .ok tests → ∀ test ∈ tests, ∀ step ∈ test.steps,
        step.role.isConjunction = false ∧
        ∃ steps ∈ feature.stepLists, ∃ source ∈ steps, step.role = source.role ∧
          step.keyword = source.keyword ∧ step.location = source.location := by
  obtain ⟨dialect, registered, blocks⟩ := resolves_of_parse parsed
  refine ⟨dialect, registered, ?_, ?_⟩
  · intro steps listed
    obtain ⟨resolves, written⟩ := blocks steps listed
    exact ⟨resolves, resolves.first, fun step member => ⟨resolves.role step member, written step member⟩⟩
  · intro tests compiled test member step held
    obtain ⟨steps, listed, source, among, same⟩ := exists_of_compile compiled member held
    have role : step.role = source.role := congrArg (·.role) same
    refine ⟨?_, steps, listed, source, among, role, congrArg (·.keyword) same,
      congrArg (·.location) same⟩
    rw [role]
    exact (blocks steps listed).1.role source among

def continuedText : Text :=
  "# language: fr\nFonctionnalité: f\nContexte:\nSoit a\nEt b\nRègle: r\nContexte:\nQuand c\nMais d\nScénario: s\nAlors e\nEt que f\n".toList

theorem roles_within_blocks_continuedText :
    ∃ feature dialect tests, parse .standard continuedText = .ok feature ∧
      Setup.standard.registry.find? feature.language = some dialect ∧
      (∀ steps ∈ feature.stepLists, dialect.Resolves steps) ∧ feature.compile = .ok tests ∧
      tests.map (fun test => test.steps.map (·.role)) =
        [[.given, .given, .when, .when, .«then», .«then»]] ∧
      ∀ test ∈ tests, ∀ step ∈ test.steps, step.role.isConjunction = false := by
  have outcome : (parse .standard continuedText).toOption.map (fun feature =>
      feature.compile.toOption.map fun tests => tests.map fun test => test.steps.map (·.role)) =
        some (some [[.given, .given, .when, .when, .«then», .«then»]]) := by decide +kernel
  obtain ⟨feature, parsed, compiles⟩ := exists_of_outcome outcome
  obtain ⟨tests, compiled, roles⟩ := exists_of_outcome compiles
  obtain ⟨dialect, registered, blocks, units⟩ :=
    roles_within_blocks .standard continuedText feature parsed
  exact ⟨feature, dialect, tests, parsed, registered, fun steps listed => (blocks steps listed).1,
    compiled, roles, fun test member step held => (units tests compiled test member step held).1⟩

end Gherkin
