import Gherkin.Proofs.CaseOrder
import Gherkin.Proofs.Soundness
import Mathlib

/-!
Phrases.

The grammar as languages over tokens. A phrase of a production is what it can take whatever comes after,
and phrases go together as the productions do. A beginning can be completed to a phrase. The beginnings
of documents are the tokens that break no rule so far: here a doc string is any run of its lines, as
delimiters leave no tokens. A table of examples is not such a beginning once its header names a column
twice, however it goes on.
-/

namespace Gherkin

open scoped Computability

/-! A production can be completed from some tokens if they begin one of its phrases. Sums and products of
languages take the place of alternatives and sequences. -/

section Languages

variable {α : Type} {left right : Language Token}

def phrases (production : Production α) : Language Token :=
  {taken | ∃ value, ∀ rest, production (taken ++ rest) value rest}

/-- What can be completed. -/
def begun (language : Language Token) : Language Token :=
  {taken | ∃ more, taken ++ more ∈ language}

def single (kind : TokenKind) : Language Token :=
  {taken | ∃ token : Token, token.kind = kind ∧ taken = [token]}

theorem le_begun : left ≤ begun left := by
  intro taken member
  exact ⟨[], by rw [List.append_nil]; exact member⟩

theorem begun_mono (le : left ≤ right) : begun left ≤ begun right := by
  rintro taken ⟨more, member⟩
  exact ⟨more, le member⟩

theorem begun_of_append {front more : List Token} (member : front ++ more ∈ begun left) :
    front ∈ begun left := by
  obtain ⟨others, whole⟩ := member
  exact ⟨more ++ others, by rw [← List.append_assoc]; exact whole⟩

/-- What comes after can be added, if there is such a thing. -/
theorem begun_le_mul {word : List Token} (inhabited : word ∈ right) :
    begun left ≤ begun (left * right) := by
  rintro taken ⟨more, member⟩
  refine ⟨more ++ word, ?_⟩
  rw [← List.append_assoc]
  exact Language.append_mem_mul member inhabited

theorem mul_begun_le : left * begun right ≤ begun (left * right) := by
  intro taken member
  obtain ⟨first, here, second, ⟨more, there⟩, rfl⟩ := Language.mem_mul.mp member
  refine ⟨more, ?_⟩
  rw [List.append_assoc]
  exact Language.append_mem_mul here there

theorem nil_mem_star : [] ∈ left∗ :=
  Language.nil_mem_kstar left

theorem nil_mem_begun {word : List Token} (inhabited : word ∈ left) : [] ∈ begun left :=
  ⟨word, inhabited⟩

theorem mem_single (kind : TokenKind) : [⟨kind, [], ⟨0, 0⟩⟩] ∈ single kind :=
  ⟨_, rfl, rfl⟩

end Languages

section Making

variable {α : Type} {item : Production α}

theorem star_le_many : (phrases item)∗ ≤ phrases (Many item) := by
  intro taken member
  obtain ⟨parts, rfl, each⟩ := Language.mem_kstar.mp member
  clear member
  induction parts with
  | nil => exact ⟨[], fun rest => .nil⟩
  | cons first others ih =>
      obtain ⟨⟨value, here⟩, later⟩ := List.forall_mem_cons.mp each
      obtain ⟨values, there⟩ := ih later
      refine ⟨value :: values, fun rest => ?_⟩
      rw [List.flatten_cons, List.append_assoc]
      exact .cons (here _) (there _)

theorem nil_mem_maybe : [] ∈ phrases (Maybe item) :=
  ⟨none, fun _ => .absent⟩

theorem le_maybe : phrases item ≤ phrases (Maybe item) := by
  rintro taken ⟨value, here⟩
  exact ⟨some value, fun rest => .present (here rest)⟩

theorem nil_mem_tags : [] ∈ phrases DerivesTags :=
  ⟨_, fun _ => .intro .nil⟩

theorem single_le_name : single .name ≤ phrases DerivesName := by
  rintro _ ⟨token, kind, rfl⟩
  exact ⟨_, fun _ => .intro kind⟩

theorem nil_mem_optionalName : [] ∈ phrases DerivesOptionalName :=
  ⟨_, fun _ => .absent⟩

theorem single_le_optionalName : single .name ≤ phrases DerivesOptionalName := by
  rintro _ ⟨token, kind, rfl⟩
  exact ⟨_, fun _ => .present (.intro kind)⟩

theorem single_le_descriptionLine : single .descriptionLine ≤ phrases DerivesDescriptionLine := by
  rintro _ ⟨token, kind, rfl⟩
  exact ⟨_, fun _ => .intro kind⟩

theorem heading_le (keyword : BlockKeyword) (name : Production Text) :
    single (.block keyword) * (phrases name * (single .descriptionLine)∗) ≤
      phrases (DerivesHeading keyword name) := by
  intro taken member
  obtain ⟨_, ⟨token, opens, rfl⟩, _, further, rfl⟩ := Language.mem_mul.mp member
  obtain ⟨middle, ⟨text, named⟩, lines, listed, rfl⟩ := Language.mem_mul.mp further
  obtain ⟨values, described⟩ := star_le_many (kstar_mono single_le_descriptionLine listed)
  refine ⟨⟨token.keywordText, text, values, token.location⟩, fun rest => ?_⟩
  simp only [List.append_assoc]
  exact .intro opens (named _) (described rest)

theorem mem_heading (keyword : BlockKeyword) :
    [⟨.block keyword, [], ⟨0, 0⟩⟩] ∈ phrases (DerivesHeading keyword DerivesOptionalName) := by
  apply heading_le
  exact Language.append_mem_mul (mem_single _)
    (Language.append_mem_mul nil_mem_optionalName nil_mem_star)

end Making

/-- What a step can take as far as tokens show. The delimiters of a doc string leave no tokens, and what
else it has does not matter here. -/
inductive DerivesShownArgument : Production (Option StepArgument) where
  | absent {tokens : List Token} : DerivesShownArgument tokens none tokens
  | table {tokens rest : List Token} {table : DataTable} (here : DerivesTable tokens table rest) :
      DerivesShownArgument tokens (some (.dataTable table)) rest
  | docString {lines rest : List Token} (doc : DocString)
      (verbatim : ∀ token ∈ lines, token.kind = .docStringLine) :
      DerivesShownArgument (lines ++ rest) (some (.docString doc)) rest

def Grammar.shown (dialect : Dialect) : Grammar where
  dialect := dialect
  language := []
  argument _ := DerivesShownArgument

def documents (dialect : Dialect) : Language Token :=
  {tokens | ∃ feature, (Grammar.shown dialect).DerivesDocument tokens feature}

/-- Tokens that break no rule so far: some document starts with them. -/
def Viable (dialect : Dialect) (tokens : List Token) : Prop :=
  tokens ∈ begun (documents dialect)

section Blocks

variable {dialect : Dialect}

theorem nil_mem_steps {grammar : Grammar} (earlier : List StepKeyword) :
    [] ∈ phrases (grammar.DerivesSteps earlier) :=
  ⟨[], fun _ => .nil⟩

theorem steps_le {token : Token} {keyword role : StepKeyword} {earlier : List StepKeyword}
    (opens : token.kind = .step) (spelled : dialect.stepKeyword? token.text = some keyword)
    (plays : (keyword :: earlier).find? (fun other => !other.isConjunction) = some role) :
    {[token]} * (single .name * (phrases DerivesShownArgument *
      phrases ((Grammar.shown dialect).DerivesSteps (keyword :: earlier)))) ≤
      phrases ((Grammar.shown dialect).DerivesSteps earlier) := by
  intro taken member
  obtain ⟨_, rfl, _, after, rfl⟩ := Language.mem_mul.mp member
  obtain ⟨_, ⟨name, named, rfl⟩, _, behind, rfl⟩ := Language.mem_mul.mp after
  obtain ⟨own, ⟨argument, takes⟩, others, ⟨steps, later⟩, rfl⟩ := Language.mem_mul.mp behind
  refine ⟨⟨token.text, role, name.text, argument, token.location⟩ :: steps, fun rest => ?_⟩
  simp only [List.append_assoc]
  exact .cons opens spelled plays named (takes _) (later rest)

theorem background_le : phrases (DerivesHeading .background DerivesOptionalName) *
    phrases ((Grammar.shown dialect).DerivesSteps []) ≤
      phrases (Grammar.shown dialect).DerivesBackground := by
  intro taken member
  obtain ⟨first, ⟨heading, headed⟩, second, ⟨steps, filled⟩, rfl⟩ := Language.mem_mul.mp member
  refine ⟨{ toHeading := heading, steps }, fun rest => ?_⟩
  rw [List.append_assoc]
  exact .intro (headed _) (filled rest)

theorem scenario_le (keyword : BlockKeyword) : phrases DerivesTags *
    (phrases (DerivesHeading keyword DerivesOptionalName) *
      phrases ((Grammar.shown dialect).DerivesSteps [])) ≤
      phrases ((Grammar.shown dialect).DerivesScenario keyword) := by
  intro taken member
  obtain ⟨first, ⟨tags, tagged⟩, _, further, rfl⟩ := Language.mem_mul.mp member
  obtain ⟨second, ⟨heading, headed⟩, third, ⟨steps, filled⟩, rfl⟩ := Language.mem_mul.mp further
  refine ⟨{ toHeading := heading, tags, steps }, fun rest => ?_⟩
  simp only [List.append_assoc]
  exact .intro (tagged _) (headed _) (filled rest)

def distinctTables : Language Token :=
  phrases fun tokens table rest =>
    DerivesTable tokens table rest ∧ ∀ header ∈ table.rows.head?, header.values.Nodup

theorem examples_le : phrases DerivesTags *
    (phrases (DerivesHeading .examples DerivesOptionalName) * distinctTables) ≤
      phrases Grammar.DerivesExamples := by
  intro taken member
  obtain ⟨first, ⟨tags, tagged⟩, _, further, rfl⟩ := Language.mem_mul.mp member
  obtain ⟨second, ⟨heading, headed⟩, third, ⟨table, filled⟩, rfl⟩ := Language.mem_mul.mp further
  refine ⟨{ toHeading := heading, tags, table }, fun rest => ?_⟩
  simp only [List.append_assoc]
  exact .intro (tagged _) (headed _) (filled rest).1 (filled rest).2

theorem scenario_le_definition : phrases ((Grammar.shown dialect).DerivesScenario .scenario) ≤
    phrases (Grammar.shown dialect).DerivesDefinition := by
  rintro taken ⟨scenario, here⟩
  exact ⟨.scenario scenario, fun rest => .scenario (here rest)⟩

theorem outline_le_definition : phrases ((Grammar.shown dialect).DerivesScenario .scenarioOutline) *
    (phrases Grammar.DerivesExamples)∗ ≤ phrases (Grammar.shown dialect).DerivesDefinition := by
  intro taken member
  obtain ⟨first, ⟨scenario, here⟩, second, listed, rfl⟩ := Language.mem_mul.mp member
  obtain ⟨examples, filled⟩ := star_le_many listed
  refine ⟨.outline { toScenario := scenario, examples }, fun rest => ?_⟩
  rw [List.append_assoc]
  exact .outline (here _) (filled rest)

def bodies (dialect : Dialect) : Language Token :=
  phrases (Maybe (Grammar.shown dialect).DerivesBackground) *
    (phrases (Grammar.shown dialect).DerivesDefinition)∗

theorem nil_mem_bodies : [] ∈ bodies dialect :=
  Language.append_mem_mul nil_mem_maybe nil_mem_star

theorem rule_le : phrases DerivesTags *
    (phrases (DerivesHeading .rule DerivesOptionalName) * bodies dialect) ≤
      phrases (Grammar.shown dialect).DerivesRule := by
  intro taken member
  obtain ⟨first, ⟨tags, tagged⟩, _, further, rfl⟩ := Language.mem_mul.mp member
  obtain ⟨second, ⟨heading, headed⟩, _, body, rfl⟩ := Language.mem_mul.mp further
  obtain ⟨third, ⟨background, founded⟩, fourth, listed, rfl⟩ := Language.mem_mul.mp body
  obtain ⟨children, filled⟩ := star_le_many listed
  refine ⟨{ toHeading := heading, tags, background, children }, fun rest => ?_⟩
  simp only [List.append_assoc]
  exact .intro (tagged _) (headed _) (founded _) (filled rest)

theorem document_le : phrases DerivesTags *
    (phrases (DerivesHeading .feature DerivesName) * (bodies dialect *
      ((phrases (Grammar.shown dialect).DerivesRule)∗ * single .eof))) ≤ documents dialect := by
  intro taken member
  obtain ⟨first, ⟨tags, tagged⟩, _, further, rfl⟩ := Language.mem_mul.mp member
  obtain ⟨second, ⟨heading, headed⟩, _, under, rfl⟩ := Language.mem_mul.mp further
  obtain ⟨_, body, _, behind, rfl⟩ := Language.mem_mul.mp under
  obtain ⟨third, ⟨background, founded⟩, fourth, listed, rfl⟩ := Language.mem_mul.mp body
  obtain ⟨fifth, ruled, _, ⟨eof, ends, rfl⟩, rfl⟩ := Language.mem_mul.mp behind
  obtain ⟨children, filled⟩ := star_le_many listed
  obtain ⟨rules, ruled⟩ := star_le_many ruled
  refine ⟨{ toHeading := heading, tags, background, children, rules, language := [] }, ?_⟩
  simp only [List.append_assoc]
  exact .intro (tagged _) (headed _) (founded _) (filled _) (ruled [eof]) ends

theorem exists_featureHeading : ∃ word, word ∈ phrases (DerivesHeading .feature DerivesName) := by
  have named := single_le_name (mem_single .name)
  exact ⟨_, heading_le .feature DerivesName (Language.append_mem_mul (mem_single _)
    (Language.append_mem_mul named nil_mem_star))⟩

/-- The least document is a feature with a name. -/
theorem exists_document : ∃ word, word ∈ documents dialect := by
  obtain ⟨word, headed⟩ := exists_featureHeading
  exact ⟨_, document_le (Language.append_mem_mul nil_mem_tags (Language.append_mem_mul headed
    (Language.append_mem_mul nil_mem_bodies (Language.append_mem_mul nil_mem_star (mem_single .eof)))))⟩

theorem tags_le_definition :
    phrases DerivesTags ≤ begun (phrases (Grammar.shown dialect).DerivesDefinition) := by
  intro taken member
  refine ⟨[⟨.block .scenario, [], ⟨0, 0⟩⟩], ?_⟩
  apply scenario_le_definition
  apply scenario_le
  exact Language.append_mem_mul member
    (Language.append_mem_mul (mem_heading .scenario) (nil_mem_steps []))

end Blocks

def Doubled (tokens : List Token) : Prop :=
  ∃ start heading middle table header, start <:+ tokens ∧
    DerivesHeading .examples DerivesOptionalName start heading middle ∧
    DerivesTable middle table [] ∧ table.rows.head? = some header ∧ ¬ header.values.Nodup

def StartsExamples (tokens : List Token) : Prop :=
  ∃ heading middle table rest, DerivesHeading .examples DerivesOptionalName tokens heading middle ∧
    DerivesTable middle table rest ∧ ∀ header ∈ table.rows.head?, header.values.Nodup

/-- Between two places in a document, every keyword of examples starts a block of them. -/
def Tabled (tokens rest : List Token) : Prop :=
  ∀ keyword more, keyword :: more <:+ tokens → keyword.kind = .block .examples →
    keyword :: more <:+ rest ∨ StartsExamples (keyword :: more)

namespace Tabled

variable {tokens middle rest : List Token}

theorem refl (tokens : List Token) : Tabled tokens tokens :=
  fun _ _ within _ => Or.inl within

theorem trans (first : Tabled tokens middle) (second : Tabled middle rest) : Tabled tokens rest := by
  intro keyword more within kind
  rcases first keyword more within kind with later | starts
  · exact second keyword more later kind
  · exact Or.inr starts

theorem cons {token : Token} (other : token.kind ≠ .block .examples) (later : Tabled tokens rest) :
    Tabled (token :: tokens) rest := by
  intro keyword more within kind
  rcases List.suffix_cons_iff.mp within with same | inside
  · cases same
    exact absurd kind other
  · exact later keyword more inside kind

end Tabled

theorem Spans.tabled {tokens rest : List Token} (spans : Spans.Unblocked tokens rest) :
    Tabled tokens rest := by
  obtain ⟨taken, rfl, none⟩ := spans
  induction taken with
  | nil => exact Tabled.refl _
  | cons token others ih =>
      obtain ⟨here, later⟩ := List.forall_mem_cons.mp none
      refine Tabled.cons ?_ (ih later)
      intro kind
      rw [kind] at here
      cases here

section Derived

variable {dialect : Dialect} {tokens rest : List Token}

theorem DerivesHeading.unblocked {keyword : BlockKeyword} {heading : Heading} {token : Token}
    (derived : DerivesHeading keyword DerivesOptionalName (token :: tokens) heading rest) :
    Spans.Unblocked tokens rest := by
  cases derived with
  | intro opens named described =>
      exact named.unblocked.trans (described.spans DerivesDescriptionLine.unblocked)

theorem DerivesHeading.tabled {keyword : BlockKeyword} {heading : Heading}
    (derived : DerivesHeading keyword DerivesOptionalName tokens heading rest)
    (other : keyword ≠ .examples) : Tabled tokens rest := by
  have whole := derived
  cases derived with
  | intro opens named described =>
      exact Tabled.cons (by rw [opens]; simpa using other) whole.unblocked.tabled

theorem DerivesShownArgument.unblocked {argument : Option StepArgument}
    (derived : DerivesShownArgument tokens argument rest) : Spans.Unblocked tokens rest := by
  cases derived with
  | absent => exact .refl _
  | table here => exact here.spans.unblocked_of_tabular
  | docString doc verbatim =>
      exact ⟨_, rfl, fun token member => by rw [verbatim token member]; rfl⟩

theorem unblocked_of_steps {earlier : List StepKeyword} {steps : List Step}
    (derived : (Grammar.shown dialect).DerivesSteps earlier tokens steps rest) :
    Spans.Unblocked tokens rest := by
  induction derived with
  | nil => exact .refl _
  | cons opens _ _ named takes _ ih =>
      refine .cons (by rw [opens]; rfl) (.cons (by rw [named]; rfl) ?_)
      exact (DerivesShownArgument.unblocked takes).trans ih

theorem Many.tabled {α : Type} {item : Production α} {values : List α}
    (once : ∀ {tokens value rest}, item tokens value rest → Tabled tokens rest)
    (derived : Many item tokens values rest) : Tabled tokens rest := by
  induction derived with
  | nil => exact Tabled.refl _
  | cons first _ ih => exact (once first).trans ih

theorem tabled_of_scenario {keyword : BlockKeyword} {scenario : Scenario}
    (derived : (Grammar.shown dialect).DerivesScenario keyword tokens scenario rest)
    (other : keyword ≠ .examples) : Tabled tokens rest := by
  cases derived with
  | intro tagged headed filled =>
      exact (tagged.spans.unblocked_of_tagging.tabled.trans (headed.tabled other)).trans
        (unblocked_of_steps filled).tabled

theorem tabled_of_examples {examples : Examples}
    (derived : Grammar.DerivesExamples tokens examples rest) : Tabled tokens rest := by
  cases derived with
  | intro tagged headed filled distinct =>
      apply tagged.spans.unblocked_of_tagging.tabled.trans
      intro keyword more within kind
      have starts : StartsExamples _ := ⟨_, _, _, _, headed, filled, distinct⟩
      have whole := headed
      cases headed with
      | intro opens named described =>
          rcases List.suffix_cons_iff.mp within with same | inside
          · rw [same]
            exact Or.inr starts
          · -- Behind the keyword there is no other one.
            have spans := whole.unblocked.trans filled.spans.unblocked_of_tabular
            exact spans.tabled keyword more inside kind

theorem tabled_of_definition {definition : Definition}
    (derived : (Grammar.shown dialect).DerivesDefinition tokens definition rest) :
    Tabled tokens rest := by
  cases derived with
  | scenario here => exact tabled_of_scenario here (by simp)
  | outline here listed =>
      exact (tabled_of_scenario here (by simp)).trans (listed.tabled tabled_of_examples)

theorem tabled_of_background {background : Option Background}
    (derived : Maybe (Grammar.shown dialect).DerivesBackground tokens background rest) :
    Tabled tokens rest := by
  cases derived with
  | absent => exact Tabled.refl _
  | present here =>
      cases here with
      | intro headed filled =>
          exact (headed.tabled (by simp)).trans (unblocked_of_steps filled).tabled

theorem tabled_of_rule {rule : Rule}
    (derived : (Grammar.shown dialect).DerivesRule tokens rule rest) : Tabled tokens rest := by
  cases derived with
  | intro tagged headed founded filled =>
      refine (tagged.spans.unblocked_of_tagging.tabled.trans (headed.tabled (by simp))).trans ?_
      exact (tabled_of_background founded).trans (filled.tabled tabled_of_definition)

theorem startsExamples_of_document {feature : Feature} {keyword : Token} {more : List Token}
    (derived : (Grammar.shown dialect).DerivesDocument tokens feature)
    (within : keyword :: more <:+ tokens) (kind : keyword.kind = .block .examples) :
    StartsExamples (keyword :: more) := by
  cases derived with
  | intro tagged headed founded filled ruled ends =>
      have tabled := tagged.spans.unblocked_of_tagging.tabled.trans
        ((headed.optional.tabled (by simp)).trans ((tabled_of_background founded).trans
          ((filled.tabled tabled_of_definition).trans (ruled.tabled tabled_of_rule))))
      rcases tabled keyword more within kind with final | starts
      · rcases List.suffix_cons_iff.mp final with same | none
        · cases same
          rw [ends] at kind
          cases kind
        · cases List.suffix_nil.mp none
      · exact starts

/-- Cells are read off the tokens in one way only. -/
theorem DerivesCells.unique {border : Location} {cells others : List TableCell}
    {extra last : List Token} (derived : DerivesCells border tokens cells rest)
    (again : DerivesCells border (tokens ++ extra) others last) : others = cells := by
  induction derived generalizing others with
  | ending ends =>
      rw [List.cons_append] at again
      generalize _ ++ extra = behind at again
      cases again with
      | ending => rfl
      | empty closes => rw [ends] at closes; cases closes
      | filled opens => rw [ends] at opens; cases opens
  | empty closes _ ih =>
      rw [List.cons_append] at again
      generalize same : _ ++ extra = behind at again
      cases again with
      | ending ends => rw [closes] at ends; cases ends
      | empty _ later =>
          subst same
          rw [ih later]
      | filled opens => rw [closes] at opens; cases opens
  | filled opens closes _ ih =>
      rw [List.cons_append, List.cons_append] at again
      cases again with
      | ending ends => rw [opens] at ends; cases ends
      | empty border => rw [opens] at border; cases border
      | filled _ _ later => rw [ih later]

theorem DerivesTable.header_unique {table other : DataTable} {extra last : List Token}
    (derived : DerivesTable tokens table rest) (again : DerivesTable (tokens ++ extra) other last) :
    other.rows.head? = table.rows.head? := by
  cases derived with
  | intro filled _ =>
      cases filled with
      | cons first _ =>
          cases first with
          | intro opens cells =>
              rw [List.cons_append] at again
              generalize same : _ ++ extra = behind at again
              cases again with
              | intro others _ =>
                  cases others with
                  | cons second _ =>
                      cases second with
                      | intro _ further =>
                          subst same
                          rw [cells.unique further]
                          rfl

theorem DerivesHeading.borderless {keyword : BlockKeyword} {heading : Heading}
    (derived : DerivesHeading keyword DerivesOptionalName tokens heading rest) :
    Spans (fun kind => kind ≠ .pipe) tokens rest := by
  obtain ⟨head, between, split, opens, plain⟩ := derived.headed
  refine ⟨head :: between, by rw [split]; rfl, List.forall_mem_cons.mpr ⟨by simp [opens], ?_⟩⟩
  intro token member border
  have inner := plain token member
  rw [border] at inner
  cases inner

/-- The table is found at the first border. -/
theorem Spans.dropWhile_border {tokens rest : List Token}
    (spans : Spans (fun kind => kind ≠ .pipe) tokens rest)
    (border : ∀ token ∈ rest.head?, token.kind = .pipe) :
    tokens.dropWhile (fun token => token.kind ≠ .pipe) = rest := by
  obtain ⟨taken, rfl, none⟩ := spans
  rw [List.dropWhile_append_of_pos (by simpa using none)]
  cases rest with
  | nil => rfl
  | cons token more => exact List.dropWhile_cons_of_neg (by simp [border token rfl])

theorem DerivesTable.border {table : DataTable} (derived : DerivesTable tokens table rest) :
    ∀ token ∈ tokens.head?, token.kind = .pipe := by
  cases derived with
  | intro filled _ =>
      cases filled with
      | cons first _ =>
          cases first with
          | intro opens _ =>
              rintro token ⟨⟩
              exact opens

end Derived

/-- No document goes on from a doubled column. -/
theorem Doubled.not_viable {dialect : Dialect} {tokens : List Token} (doubled : Doubled tokens) :
    ¬ Viable dialect tokens := by
  rintro ⟨extra, feature, derived⟩
  obtain ⟨start, heading, middle, table, header, within, headed, filled, first, repeated⟩ := doubled
  have starts : StartsExamples (start ++ extra) := by
    obtain ⟨before, rfl⟩ := within
    cases headed with
    | intro opens =>
        refine startsExamples_of_document derived ⟨before, ?_⟩ opens
        rw [List.append_assoc]
        rfl
  obtain ⟨_, behind, other, last, again, refilled, distinct⟩ := starts
  -- Both readings of the block have the same heading, so the header is the same row in both.
  have same : behind = middle ++ extra := by
    obtain ⟨taken, rfl, none⟩ := headed.borderless
    have here : Spans (fun kind => kind ≠ .pipe) (taken ++ middle ++ extra) (middle ++ extra) :=
      ⟨taken, by rw [List.append_assoc], none⟩
    rw [← again.borderless.dropWhile_border refilled.border, here.dropWhile_border ?_]
    have border := filled.border
    cases filled with
    | intro rows _ =>
        cases rows with
        | cons row _ =>
            cases row
            exact border
  rw [same] at refilled
  apply repeated
  apply distinct
  rw [filled.header_unique refilled]
  exact first

end Gherkin
