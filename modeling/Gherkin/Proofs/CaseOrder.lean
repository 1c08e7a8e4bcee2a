import Gherkin.Proofs.Arrangement

/-!
The order of test cases.

Test cases come in the order of the text: scenarios and outlines by their keywords, and the cases of one
outline by the rows they are filled in from. A mark is the kind and place of a token. The marks of a
feature are its block keywords and the borders that open the rows of its examples; they are found among
the tokens of the document, in order, and no other token there is a block keyword. Everything else follows
from the order of marks.
-/

namespace Gherkin

namespace Location

variable {first second third : Location}

theorem Before.irrefl : ¬ first.Before first := by
  rintro (above | ⟨_, left⟩)
  · exact Nat.lt_irrefl _ above
  · exact Nat.lt_irrefl _ left

theorem Before.trans (left : first.Before second) (right : second.Before third) :
    first.Before third := by
  unfold Before at *
  omega

theorem Before.asymm (left : first.Before second) : ¬ second.Before first :=
  fun right => Before.irrefl (left.trans right)

end Location

/-! The marks of the parts of a tree are marks of tokens, and tokens stand in the order of their places. So
the order of test cases can be read off the marks alone. -/

namespace TokenKind

def isBlock : TokenKind → Bool
  | block _ => true
  | _ => false

def startsDefinition : TokenKind → Bool
  | block .scenario | block .scenarioOutline => true
  | _ => false

theorem isBlock_of_startsDefinition {kind : TokenKind} (starts : kind.startsDefinition = true) :
    kind.isBlock = true := by
  cases kind with
  | block keyword => rfl
  | _ => cases starts

end TokenKind

structure Mark where
  kind : TokenKind
  location : Location

def Token.mark (token : Token) : Mark :=
  ⟨token.kind, token.location⟩

/-- Where a part shows: its keyword, or the borders that open its rows. -/
def Part.marks : Part → List Mark
  | heading keyword opening => [⟨.block keyword, opening.location⟩]
  | step _ => []
  | examples table => table.rows.map fun row => ⟨.pipe, row.location⟩

/-- The marks of some parts are those of tokens they are derived from, in order, and include all block
keywords there. -/
def Marked (tokens : List Token) (parts : List Part) (rest : List Token) : Prop :=
  ∃ taken, taken ++ rest = tokens ∧ (parts.flatMap Part.marks).Sublist (taken.map Token.mark) ∧
    ∀ token ∈ taken, token.kind.isBlock = true → token.mark ∈ parts.flatMap Part.marks

section Marking

variable {tokens middle rest : List Token} {parts others : List Part}

theorem Marked.trans (first : Marked tokens parts middle) (second : Marked middle others rest) :
    Marked tokens (parts ++ others) rest := by
  obtain ⟨left, joined, early, all⟩ := first
  obtain ⟨right, further, late, rest⟩ := second
  refine ⟨left ++ right, by rw [List.append_assoc, further, joined], ?_, ?_⟩
  · rw [List.flatMap_append, List.map_append]
    exact early.append late
  · intro token member block
    rw [List.flatMap_append]
    rcases List.mem_append.mp member with here | there
    · exact List.mem_append_left _ (all token here block)
    · exact List.mem_append_right _ (rest token there block)

abbrev Spans.Unblocked (tokens rest : List Token) : Prop :=
  Spans (fun kind => kind.isBlock = false) tokens rest

theorem Spans.marked (spans : Spans.Unblocked tokens rest) : Marked tokens [] rest := by
  obtain ⟨taken, joined, none⟩ := spans
  refine ⟨taken, joined, List.nil_sublist _, ?_⟩
  intro token member block
  rw [none token member] at block
  cases block

theorem Spans.unblocked_of_tabular (spans : Spans TokenKind.tabular tokens rest) :
    Spans.Unblocked tokens rest := by
  apply spans.imp
  rintro kind (rfl | rfl | rfl) <;> rfl

theorem Spans.unblocked_of_tagging (spans : Spans TokenKind.tagging tokens rest) :
    Spans.Unblocked tokens rest := by
  apply spans.imp
  rintro kind (rfl | rfl) <;> rfl

theorem DerivesOptionalName.unblocked {text : Text} (derived : DerivesOptionalName tokens text rest) :
    Spans.Unblocked tokens rest := by
  cases derived with
  | absent => exact .refl _
  | present here =>
      cases here with
      | intro opens => exact .cons (by rw [opens]; rfl) (.refl _)

theorem DerivesDescriptionLine.unblocked {text : Text}
    (derived : DerivesDescriptionLine tokens text rest) : Spans.Unblocked tokens rest := by
  cases derived with
  | intro opens => exact .cons (by rw [opens]; rfl) (.refl _)

theorem DerivesArgument.unblocked {blocks : List Block} {argument : Option StepArgument}
    (derived : DerivesArgument blocks tokens argument rest) : Spans.Unblocked tokens rest := by
  cases derived with
  | absent => exact .refl _
  | table here => exact here.spans.unblocked_of_tabular
  | docString known here =>
      cases here with
      | intro verbatim => exact ⟨_, rfl, fun token member => by rw [verbatim token member]; rfl⟩

theorem marks_of_rows {rows : List TableRow} (derived : Many DerivesRow tokens rows rest) :
    ∃ taken, taken ++ rest = tokens ∧
      (rows.map fun row => (⟨.pipe, row.location⟩ : Mark)).Sublist (taken.map Token.mark) := by
  induction derived with
  | nil => exact ⟨[], rfl, List.nil_sublist _⟩
  | cons first _ ih =>
      obtain ⟨later, further, below⟩ := ih
      cases first with
      | @intro pipe _ _ _ opens filled =>
          obtain ⟨cells, joined, _⟩ := filled.spans
          refine ⟨pipe :: cells ++ later, by simp [further, joined], ?_⟩
          have shown : pipe.mark = ⟨.pipe, pipe.location⟩ := by rw [Token.mark, opens]
          rw [List.map_cons, List.map_append, List.map_cons, shown]
          exact (below.trans (List.sublist_append_right _ _)).cons_cons _

theorem lists_marked {grammar : Grammar} (takes : ∀ {name tokens argument rest},
    grammar.argument name tokens argument rest → Spans.Unblocked tokens rest) :
    grammar.Lists Marked where
  refl tokens := Spans.marked (.refl tokens)
  trans := Marked.trans
  tags derived := derived.spans.unblocked_of_tagging.marked
  heading derived := by
    cases derived with
    | @intro token _ _ _ _ _ opens named described =>
        obtain ⟨taken, joined, none⟩ :=
          named.unblocked.trans (described.spans DerivesDescriptionLine.unblocked)
        refine ⟨token :: taken, by rw [← joined]; rfl, ?_, ?_⟩
        · rw [List.flatMap_singleton, Part.marks, ← opens]
          exact (List.nil_sublist _).cons_cons _
        · intro other member block
          rcases List.mem_cons.mp member with rfl | later
          · simp [Part.marks, Token.mark, opens]
          · rw [none other later] at block
            cases block
  step role opens named taken :=
    Spans.marked (.cons (by rw [opens]; rfl) (.cons (by rw [named]; rfl) (takes taken)))
  table derived _ := by
    obtain ⟨taken, joined, none⟩ := derived.spans.unblocked_of_tabular
    cases derived with
    | intro filled even =>
        obtain ⟨same, further, marks⟩ := marks_of_rows filled
        obtain rfl : same = taken := List.append_cancel_right (further.trans joined.symm)
        refine ⟨same, joined, by simpa [Part.marks] using marks, ?_⟩
        intro token member block
        rw [none token member] at block
        cases block

end Marking

section Accepted

variable {setup : Setup} {text : Text} {feature : Feature} {tokens : List Token} {last : Mode}

theorem marks_of_derives
    (derived : (Grammar.ofReader (.afterDocument setup text)).DerivesDocument (presented text tokens)
      feature) :
    (feature.parts.flatMap Part.marks).Sublist ((uncommented tokens).map Token.mark) ∧
      ∀ token ∈ tokens, token.kind.isBlock = true →
        token.mark ∈ feature.parts.flatMap Part.marks := by
  obtain ⟨eof, _, taken, joined, marks, all⟩ :=
    (lists_marked DerivesArgument.unblocked).document derived
  obtain ⟨rfl, _⟩ := List.append_inj' joined rfl
  refine ⟨marks, ?_⟩
  intro token member block
  refine all token ((mem_uncommented _ _).mpr ⟨member, ?_⟩) block
  intro comment
  rw [comment] at block
  cases block

theorem ordered_of_reads
    (reads : Mode.Reads setup (.initial setup) (Line.split text) tokens (.ok last)) :
    tokens.Pairwise fun left right => left.location.Before right.location :=
  reads.run.1.ordered setup.known (Line.consecutive_split text)

/-- Marks rise, as the tokens do that they belong to. -/
theorem marks_rise (reads : Mode.Reads setup (.initial setup) (Line.split text) tokens (.ok last))
    (marks : (feature.parts.flatMap Part.marks).Sublist ((uncommented tokens).map Token.mark)) :
    (feature.parts.flatMap Part.marks).Pairwise fun left right =>
      left.location.Before right.location := by
  have kept : ((uncommented tokens).map Token.mark).Pairwise fun left right =>
      left.location.Before right.location := List.pairwise_map.mpr ((ordered_of_reads reads).filter _)
  exact kept.sublist marks

end Accepted

namespace Definition

def location (definition : Definition) : Location :=
  definition.toScenario.location

def marks (definition : Definition) : List Mark :=
  definition.parts.flatMap Part.marks

theorem marks_steps (steps : List Step) : (steps.map Part.step).flatMap Part.marks = [] := by
  simp [List.flatMap_map, Part.marks]

theorem marks_outline (outline : Outline) :
    (Definition.outline outline).marks = ⟨.block .scenarioOutline, outline.location⟩ ::
      outline.examples.flatMap fun examples => ⟨.block .examples, examples.location⟩ ::
        examples.table.rows.map fun row => ⟨.pipe, row.location⟩ := by
  simp [marks, parts, Scenario.parts, Examples.parts, Part.marks, marks_steps, List.flatMap_assoc]

theorem head_marks (definition : Definition) : ∃ keyword more,
    definition.marks = ⟨.block keyword, definition.location⟩ :: more := by
  cases definition with
  | scenario plain => exact ⟨.scenario, _, rfl⟩
  | outline template => exact ⟨.scenarioOutline, _, rfl⟩

def places : Definition → List (Location × Option Location)
  | .scenario plain => [(plain.location, none)]
  | .outline template =>
      (template.examples.flatMap Examples.dataRows).map fun row => (template.location, some row.location)

theorem fst_of_mem_places {definition : Definition} {place : Location × Option Location}
    (member : place ∈ definition.places) : place.1 = definition.location := by
  cases definition with
  | scenario plain => rw [List.mem_singleton.mp member]; rfl
  | outline template =>
      obtain ⟨row, _, rfl⟩ := List.mem_map.mp member
      rfl

end Definition

theorem Examples.data_rows (examples : Examples) :
    examples.rows.map (·.data) = examples.dataRows := by
  unfold rows dataRows
  cases examples.table.rows with
  | nil => rfl
  | cons header others =>
      rw [List.map_map]
      exact List.map_id' others

theorem Definition.places_origins (rule : Option Rule) (definition : Definition) :
    (definition.origins rule).map (fun origin =>
      (origin.scenario.location, origin.row.map (·.data.location))) = definition.places := by
  cases definition with
  | scenario plain => rfl
  | outline template =>
      have rows : (template.examples.flatMap Examples.rows).map (·.data) =
          template.examples.flatMap Examples.dataRows := by
        rw [List.map_flatMap]
        simp only [Examples.data_rows]
      rw [places, ← rows, origins, List.map_map, List.map_map]
      rfl

def TestCase.place (test : TestCase) : Location × Option Location :=
  (test.location, test.exampleLocation)

theorem places_of_compile {feature : Feature} {tests : List TestCase}
    (compiled : feature.compile = .ok tests) :
    tests.map TestCase.place = feature.definitions.flatMap Definition.places := by
  have filled := Feature.testCases_of_compile compiled
  have shown : TestCase.place ∘ Origin.testCase feature = fun origin : Origin =>
      (origin.scenario.location, origin.row.map (·.data.location)) := rfl
  rw [filled, List.map_map, shown, Feature.origins, Feature.definitions, List.map_append,
    List.map_flatMap, List.map_flatMap, List.flatMap_append, List.flatMap_assoc]
  simp only [List.map_flatMap, Definition.places_origins]

/-- A definition's parts stand together. -/
theorem Feature.infix_parts {feature : Feature} {definition : Definition}
    (member : definition ∈ feature.definitions) : definition.parts <:+: feature.parts := by
  have among : ∀ {definitions : List Definition}, definition ∈ definitions →
      definition.parts <:+: definitions.flatMap Definition.parts := by
    intro definitions held
    obtain ⟨before, behind, rfl⟩ := List.append_of_mem held
    exact ⟨before.flatMap Definition.parts, behind.flatMap Definition.parts, by simp⟩
  rcases List.mem_append.mp member with own | ruled
  · refine (among own).trans ⟨.heading .feature feature.toHeading ::
      feature.background.toList.flatMap Background.parts, feature.rules.flatMap Rule.parts, ?_⟩
    simp [Feature.parts]
  · obtain ⟨rule, held, inside⟩ := List.mem_flatMap.mp ruled
    obtain ⟨before, behind, split⟩ := List.append_of_mem held
    refine (among inside).trans ⟨.heading .feature feature.toHeading ::
      (feature.background.toList.flatMap Background.parts ++
        feature.children.flatMap Definition.parts ++ before.flatMap Rule.parts ++
        .heading .rule rule.toHeading :: rule.background.toList.flatMap Background.parts),
      behind.flatMap Rule.parts, ?_⟩
    simp [Feature.parts, Rule.parts, split]

theorem DerivesCells.ends {border : Location} {tokens rest : List Token} {cells : List TableCell}
    (derived : DerivesCells border tokens cells rest) :
    ∃ eol, eol.kind = .eol ∧ eol :: rest <:+ tokens := by
  induction derived with
  | ending ends => exact ⟨_, ends, List.suffix_refl _⟩
  | empty _ _ ih =>
      obtain ⟨eol, kind, within⟩ := ih
      exact ⟨eol, kind, within.trans (List.suffix_cons _ _)⟩
  | filled _ _ _ ih =>
      obtain ⟨eol, kind, within⟩ := ih
      exact ⟨eol, kind, within.trans ((List.suffix_cons _ _).trans (List.suffix_cons _ _))⟩

/-- A row other than the first comes right after the end of the row before it. -/
theorem neighbours_of_row {tokens rest : List Token} {first row : TableRow} {rows : List TableRow}
    (derived : Many DerivesRow tokens (first :: rows) rest) (member : row ∈ rows) :
    ∃ eol pipe more, eol :: pipe :: more <:+ tokens ∧ eol.kind = .eol ∧ pipe.kind = .pipe ∧
      pipe.location = row.location := by
  induction rows generalizing tokens first with
  | nil => cases member
  | cons next others ih =>
      cases derived with
      | cons here later =>
          cases here with
          | @intro pipe cells _ _ opens filled =>
              obtain ⟨eol, kind, within⟩ := filled.ends
              have inside := within.trans (List.suffix_cons pipe cells)
              rcases List.mem_cons.mp member with rfl | there
              · cases later with
                | cons second _ =>
                    cases second with
                    | intro border _ => exact ⟨eol, _, _, inside, kind, border, rfl⟩
              · obtain ⟨eol, pipe, more, deeper, found⟩ := ih later there
                exact ⟨eol, pipe, more, deeper.trans ((List.suffix_cons _ _).trans inside), found⟩

def TokenKind.goesOn : TokenKind → Bool
  | tag | pipe | cell | block _ | step => true
  | _ => false

theorem TokenKind.goesOn_of_precedes {left right : TokenKind} (precedes : left.precedes right = true) :
    left.goesOn = true := by
  cases left <;> simp_all [TokenKind.precedes, goesOn]

theorem OnLine.goesOn {number : Nat} {tokens : List Token} (onLine : OnLine number tokens) :
    tokens.Pairwise fun left _ => left.kind.goesOn = true := by
  have chain := onLine.chain
  clear onLine
  induction tokens with
  | nil => exact List.Pairwise.nil
  | cons token rest ih =>
      cases rest with
      | nil => exact List.pairwise_singleton _ _
      | cons next more =>
          obtain ⟨here, later⟩ := List.isChain_cons_cons.mp chain
          refine List.pairwise_cons.mpr ⟨fun _ _ => TokenKind.goesOn_of_precedes here, ih later⟩

namespace Mode

variable {setup : Setup} {mode last : Mode} {lines : List Line} {tokens : List Token} {number : Nat}

theorem Run.goesOn (run : Run setup mode lines tokens last)
    (numbered : Line.Consecutive number lines) :
    tokens.Pairwise fun left right =>
      left.location.line = right.location.line → left.kind.goesOn = true := by
  induction run generalizing number with
  | nil => exact List.Pairwise.nil
  | cons step later ih =>
      refine List.pairwise_append.mpr ⟨?_, ih numbered.2, ?_⟩
      · apply step.onLine.goesOn.imp
        intro left right goes _
        exact goes
      intro left here right there same
      have above := (later.line_of_mem numbered.2 right there).1
      have below := step.onLine.line left here
      have first := numbered.1
      omega

end Mode

theorem eq_or_of_pairwise {α : Type} {R : α → α → Prop} {list : List α} (pairwise : list.Pairwise R)
    {left right : α} (member : left ∈ list) (other : right ∈ list) :
    left = right ∨ R left right ∨ R right left := by
  have either := List.Pairwise.forall_of_forall_of_flip
    (R := fun left right => left = right ∨ R left right ∨ R right left)
    (fun _ _ => Or.inl rfl) (pairwise.imp fun before => Or.inr (Or.inl before))
    (pairwise.imp fun before => Or.inr (Or.inr before))
  exact either member other

def Token.Leads (tokens : List Token) (token : Token) : Prop :=
  ∀ other ∈ tokens, other.location.line = token.location.line →
    other = token ∨ token.location.Before other.location

/-- What comes right after the end of a line is the first of its own. -/
theorem leads_of_neighbours {setup : Setup} {text : Text} {tokens : List Token} {last : Mode}
    (reads : Mode.Reads setup (.initial setup) (Line.split text) tokens (.ok last))
    {before behind : List Token} {eol token : Token}
    (split : uncommented tokens = before ++ eol :: token :: behind) (ends : eol.kind = .eol) :
    token.Leads tokens := by
  have ordered := ordered_of_reads reads
  have goesOn := reads.run.1.goesOn (Line.consecutive_split text)
  have both := ordered.and goesOn
  have kept := both.filter fun token : Token => token.kind ≠ .comment
  change (uncommented tokens).Pairwise _ at kept
  rw [split, List.pairwise_append, List.pairwise_cons, List.pairwise_cons] at kept
  obtain ⟨-, ⟨after, later, -⟩, earlier⟩ := kept
  have member : token ∈ tokens := by
    apply ((mem_uncommented tokens token).mp _).1
    simp [split]
  have below : eol.location.line < token.location.line := by
    obtain ⟨place, same⟩ := after token List.mem_cons_self
    rcases place with above | ⟨here, _⟩
    · exact above
    · have goes := same here
      rw [ends] at goes
      cases goes
  intro other held line
  rcases eq_or_of_pairwise both held member with same | ⟨place, goes⟩ | ⟨place, _⟩
  · exact Or.inl same
  · -- A token before it on the line would stand between the two neighbours.
    have counts : other ∈ uncommented tokens := by
      refine (mem_uncommented tokens other).mpr ⟨held, ?_⟩
      intro comment
      have goes := goes line
      rw [comment] at goes
      cases goes
    rw [split] at counts
    rcases List.mem_append.mp counts with old | new
    · have order := (earlier other old eol List.mem_cons_self).1
      unfold Location.Before at order
      omega
    · rcases List.mem_cons.mp new with rfl | new
      · omega
      · rcases List.mem_cons.mp new with same | new
        · exact Or.inl same
        · exact Or.inr (later other new).1
  · exact Or.inr place

/-- The order of test cases: by keyword, and under one keyword by row. -/
def ComesBefore (left right : Location × Option Location) : Prop :=
  left.1.Before right.1 ∨
    left.1 = right.1 ∧ ∃ row other, left.2 = some row ∧ right.2 = some other ∧ row.Before other

theorem ComesBefore.ne {left right : Location × Option Location} (before : ComesBefore left right) :
    left ≠ right := by
  rintro rfl
  rcases before with above | ⟨_, row, other, one, two, above⟩
  · exact above.irrefl
  · obtain rfl : row = other := Option.some.inj (one.symm.trans two)
    exact above.irrefl

namespace Definition

theorem mem_marks_of_row {outline : Outline} {examples : Examples} {row : TableRow}
    (held : examples ∈ outline.examples) (listed : row ∈ examples.dataRows) :
    ⟨.pipe, row.location⟩ ∈ outline.examples.flatMap fun examples : Examples =>
      (⟨.block .examples, examples.location⟩ : Mark) ::
        examples.table.rows.map fun row => ⟨.pipe, row.location⟩ := by
  refine List.mem_flatMap.mpr ⟨examples, held, List.mem_cons_of_mem _ ?_⟩
  exact List.mem_map.mpr ⟨row, List.mem_of_mem_tail listed, rfl⟩

theorem startsDefinition_of_mem_marks {definition : Definition} {mark : Mark}
    (member : mark ∈ definition.marks) (starts : mark.kind.startsDefinition = true) :
    mark.location = definition.location := by
  cases definition with
  | scenario plain =>
      have only : (Definition.scenario plain).marks = [⟨.block .scenario, plain.location⟩] := by
        simp [marks, parts, Scenario.parts, Part.marks, marks_steps]
      rw [only] at member
      rw [List.mem_singleton.mp member]
      rfl
  | outline template =>
      rw [marks_outline] at member
      rcases List.mem_cons.mp member with rfl | inside
      · rfl
      · obtain ⟨examples, _, shown⟩ := List.mem_flatMap.mp inside
        rcases List.mem_cons.mp shown with rfl | shown
        · cases starts
        · obtain ⟨row, _, rfl⟩ := List.mem_map.mp shown
          cases starts

/-- The test cases of a definition are in the order of its rows. -/
theorem ordered_places {definition : Definition}
    (rise : definition.marks.Pairwise fun left right => left.location.Before right.location) :
    definition.places.Pairwise ComesBefore := by
  cases definition with
  | scenario plain => exact List.pairwise_singleton _ _
  | outline template =>
      rw [marks_outline] at rise
      have rows : ((template.examples.flatMap Examples.dataRows).map fun row =>
          (⟨.pipe, row.location⟩ : Mark)).Sublist
          (template.examples.flatMap fun examples => ⟨.block .examples, examples.location⟩ ::
            examples.table.rows.map fun row => ⟨.pipe, row.location⟩) := by
        rw [List.map_flatMap]
        apply List.Sublist.flatMap_right
        intro examples _
        exact ((List.tail_sublist _).map _).trans (List.sublist_cons_self _ _)
      have kept := List.pairwise_map.mp ((List.pairwise_cons.mp rise).2.sublist rows)
      apply List.pairwise_map.mpr
      apply kept.imp
      intro row other above
      exact Or.inr ⟨rfl, row.location, other.location, rfl, rfl, above⟩

end Definition

section Ordered

variable {feature : Feature} {tokens : List Token}
  (rise : (feature.parts.flatMap Part.marks).Pairwise fun left right =>
    left.location.Before right.location)

include rise

theorem ordered_definitions :
    (feature.definitions.flatMap Definition.places).Pairwise ComesBefore := by
  have marks := rise.sublist (feature.sublist_definitions.flatMap Part.marks)
  rw [List.flatMap_assoc] at marks
  obtain ⟨inside, across⟩ := List.pairwise_flatMap.mp marks
  refine List.pairwise_flatMap.mpr
    ⟨fun definition member => Definition.ordered_places (inside definition member), ?_⟩
  apply across.imp
  intro left right apart place member other further
  obtain ⟨_, _, shown⟩ := left.head_marks
  obtain ⟨_, _, opens⟩ := right.head_marks
  rw [← Definition.marks, ← Definition.marks, shown, opens] at apart
  have above := apart _ List.mem_cons_self _ List.mem_cons_self
  rw [← Definition.fst_of_mem_places member, ← Definition.fst_of_mem_places further] at above
  exact Or.inl above

/-- What belongs to a definition comes before the next one. -/
theorem before_next_definition {definition : Definition} (member : definition ∈ feature.definitions)
    {mark keyword : Mark} (own : mark ∈ definition.marks)
    (shown : keyword ∈ feature.parts.flatMap Part.marks)
    (starts : keyword.kind.startsDefinition = true)
    (later : definition.location.Before keyword.location) : mark.location.Before keyword.location := by
  obtain ⟨before, behind, split⟩ := Feature.infix_parts member
  obtain ⟨_, more, opens⟩ := definition.head_marks
  rw [← split, List.flatMap_append, List.flatMap_append, ← Definition.marks] at rise shown
  obtain ⟨upper, _, lower⟩ := List.pairwise_append.mp rise
  obtain ⟨_, _, across⟩ := List.pairwise_append.mp upper
  rcases List.mem_append.mp shown with shown | below
  · rcases List.mem_append.mp shown with above | inside
    · -- A keyword above the definition does not come later.
      have first := across keyword above ⟨_, definition.location⟩ (by rw [opens]; exact List.mem_cons_self)
      exact absurd first later.asymm
    · rw [Definition.startsDefinition_of_mem_marks inside starts] at later
      exact absurd later Location.Before.irrefl
  · exact lower mark (List.mem_append_right _ own) keyword below

end Ordered

/-- A data row that a test case is filled in from. Its opening border is the first token of its line,
after the keyword of the outline and before the keyword of the next definition. -/
structure FromRow (feature : Feature) (tokens : List Token) (keyword place : Location) : Prop where
  row : ∃ outline examples row, .outline outline ∈ feature.definitions ∧
    outline.location = keyword ∧ examples ∈ outline.examples ∧ row ∈ examples.dataRows ∧
    row.location = place
  border : ∃ pipe ∈ tokens, pipe.kind = .pipe ∧ pipe.location = place ∧ pipe.Leads tokens
  below : keyword.Before place
  above : ∀ next ∈ tokens, next.kind.startsDefinition = true →
    keyword.Before next.location → place.Before next.location

/-- Only the last token is the end of the document. -/
theorem cut_of_presented {text : Text} {tokens before more : List Token} {token : Token}
    (split : before ++ token :: more = presented text tokens) (counts : token.kind ≠ .eof) :
    ∃ behind, uncommented tokens = before ++ token :: behind := by
  rcases List.eq_nil_or_concat more with rfl | ⟨behind, final, rfl⟩
  · obtain ⟨_, same⟩ := List.append_inj' split rfl
    rw [List.singleton_inj.mp same] at counts
    exact absurd rfl counts
  · refine ⟨behind, ?_⟩
    rw [List.concat_eq_append, ← List.cons_append, ← List.append_assoc] at split
    exact (List.append_inj' split rfl).1.symm

section Places

variable {setup : Setup} {text : Text} {feature : Feature} {tokens : List Token} {last : Mode}
  (reads : Mode.Reads setup (.initial setup) (Line.split text) tokens (.ok last))
  (derived : (Grammar.ofReader (.afterDocument setup text)).DerivesDocument (presented text tokens)
    feature)

include derived

theorem token_of_mark {mark : Mark} (member : mark ∈ feature.parts.flatMap Part.marks) :
    ∃ token ∈ tokens, token.mark = mark := by
  obtain ⟨marks, _⟩ := marks_of_derives derived
  obtain ⟨token, held, shown⟩ := List.mem_map.mp (marks.subset member)
  exact ⟨token, ((mem_uncommented _ _).mp held).1, shown⟩

theorem token_of_definition {definition : Definition} (member : definition ∈ feature.definitions)
    {mark : Mark} (own : mark ∈ definition.marks) : ∃ token ∈ tokens, token.mark = mark := by
  apply token_of_mark derived
  obtain ⟨part, inside, shown⟩ := List.mem_flatMap.mp own
  exact List.mem_flatMap.mpr ⟨part, (Feature.infix_parts member).subset inside, shown⟩

include reads

theorem leads_of_row {outline : Outline} (member : .outline outline ∈ feature.definitions)
    {examples : Examples} (held : examples ∈ outline.examples) {row : TableRow}
    (listed : row ∈ examples.dataRows) :
    ∃ pipe ∈ tokens, pipe.kind = .pipe ∧ pipe.location = row.location ∧ pipe.Leads tokens := by
  have part : .examples examples.table ∈ feature.parts := by
    apply Feature.mem_parts_of_outline member
    apply List.mem_append_right
    exact List.mem_flatMap.mpr ⟨examples, held, by simp [Examples.parts]⟩
  have takes : ∀ {name tokens argument rest},
      (Grammar.ofReader (.afterDocument setup text)).argument name tokens argument rest →
        rest <:+ tokens := fun taken => DerivesArgument.suffix taken
  cases (derived.traced takes).1 _ part with
  | examples within filled distinct =>
      unfold Examples.dataRows at listed
      cases table : examples.table with
      | mk rows location =>
          rw [table] at filled listed
          cases filled with
          | intro filled even =>
              obtain ⟨eol, pipe, more, found, ends, opens, place⟩ := neighbours_of_row filled listed
              obtain ⟨before, split⟩ := found.trans within
              rw [List.append_cons] at split
              obtain ⟨behind, cut⟩ := cut_of_presented split (by rw [opens]; simp)
              rw [List.append_assoc] at cut
              refine ⟨pipe, ?_, opens, place, leads_of_neighbours reads cut ends⟩
              exact ((mem_uncommented tokens pipe).mp (by simp [cut])).1

theorem fromRow_of_reads {outline : Outline} (member : .outline outline ∈ feature.definitions)
    {examples : Examples} (held : examples ∈ outline.examples) {row : TableRow}
    (listed : row ∈ examples.dataRows) :
    FromRow feature tokens outline.location row.location := by
  obtain ⟨marks, all⟩ := marks_of_derives derived
  have rise := marks_rise reads marks
  have inside := Definition.mem_marks_of_row held listed
  constructor
  case row => exact ⟨outline, examples, row, member, rfl, held, listed, rfl⟩
  case border => exact leads_of_row reads derived member held listed
  case below =>
    have own := rise.sublist ((Feature.infix_parts member).sublist.flatMap Part.marks)
    rw [← Definition.marks, Definition.marks_outline] at own
    exact (List.pairwise_cons.mp own).1 _ inside
  case above =>
    intro next there starts later
    have own : ⟨.pipe, row.location⟩ ∈ (Definition.outline outline).marks := by
      rw [Definition.marks_outline]
      exact List.mem_cons_of_mem _ inside
    have shown := all next there (TokenKind.isBlock_of_startsDefinition starts)
    exact before_next_definition rise member own shown starts later

omit derived in
/-- The end of the document changes nothing about rows. -/
theorem FromRow.ending {keyword place : Location} (source : FromRow feature tokens keyword place) :
    FromRow feature (tokens ++ [⟨.eof, [], Line.finish (Line.split text)⟩]) keyword place := by
  constructor
  case row => exact source.row
  case border =>
    obtain ⟨pipe, member, opens, here, leads⟩ := source.border
    refine ⟨pipe, List.mem_append_left _ member, opens, here, ?_⟩
    intro other there line
    rcases List.mem_append.mp there with real | final
    · exact leads other real line
    · rw [List.mem_singleton.mp final, Line.finish_split]
      rcases before_eof reads member with before | ⟨ends, _⟩
      · exact Or.inr before
      · rw [opens] at ends
        cases ends
  case below => exact source.below
  case above =>
    intro next there starts later
    rcases List.mem_append.mp there with real | final
    · exact source.above next real starts later
    · rw [List.mem_singleton.mp final] at starts
      cases starts

end Places

/-- Test cases come one after another in the order of the text. Each of them names the keyword of its
scenario, or the keyword of its outline and the row it is filled in from. -/
theorem cases_in_order (setup : Setup) (text : Text) (feature : Feature) (tests : List TestCase)
    (parsed : parse setup text = .ok feature) (compiled : feature.compile = .ok tests) :
    ∃ tokens, tokenize setup text = .ok tokens ∧
      (tests.map TestCase.place).Pairwise ComesBefore ∧ (tests.map TestCase.place).Nodup ∧
      ∀ test ∈ tests,
        (∃ keyword ∈ tokens, keyword.location = test.location ∧ keyword.kind =
          .block (if test.exampleLocation.isSome then .scenarioOutline else .scenario)) ∧
        ∀ place, test.exampleLocation = some place → FromRow feature tokens test.location place := by
  obtain ⟨tokens, last, reads, derived⟩ := derives_of_parse parsed
  have ordered := ordered_definitions (marks_rise reads (marks_of_derives derived).1)
  rw [← places_of_compile compiled] at ordered
  refine ⟨_, (tokenize_of_reads_ok reads).1, ordered, ordered.imp ComesBefore.ne, ?_⟩
  intro test member
  have place : test.place ∈ feature.definitions.flatMap Definition.places := by
    rw [← places_of_compile compiled]
    exact List.mem_map_of_mem member
  -- The test case is one of a definition, and the definition has a keyword among the tokens.
  obtain ⟨definition, held, among⟩ := List.mem_flatMap.mp place
  cases definition with
  | scenario plain =>
      obtain ⟨here, none⟩ := Prod.mk.inj (List.mem_singleton.mp among)
      obtain ⟨keyword, shown, mark⟩ := token_of_definition derived held List.mem_cons_self
      refine ⟨⟨keyword, List.mem_append_left _ shown, ?_, ?_⟩, ?_⟩
      · rw [here]
        exact congrArg Mark.location mark
      · rw [none]
        exact congrArg Mark.kind mark
      · intro row found
        rw [none] at found
        cases found
  | outline template =>
      obtain ⟨row, listed, same⟩ := List.mem_map.mp among
      obtain ⟨here, some⟩ := Prod.mk.inj same
      obtain ⟨examples, inside, listed⟩ := List.mem_flatMap.mp listed
      obtain ⟨keyword, shown, mark⟩ := token_of_definition derived held List.mem_cons_self
      refine ⟨⟨keyword, List.mem_append_left _ shown, ?_, ?_⟩, ?_⟩
      · rw [← here]
        exact congrArg Mark.location mark
      · rw [← some]
        exact congrArg Mark.kind mark
      · intro place found
        obtain rfl : row.location = place := Option.some.inj (some.trans found)
        rw [← here]
        exact (fromRow_of_reads reads derived held inside listed).ending reads

def mixedText : Text :=
  "Feature: f\n  Scenario Outline: o\n    Examples:\n      | a |\n      | 1 |\n    Examples:\n      | a |\n      | 2 |\n  Rule: r\n    Scenario: s\n    Scenario Outline: p\n      Examples:\n        | b |\n        | 3 |".toList

theorem cases_in_order_mixedText :
    ∃ feature tests tokens, parse .standard mixedText = .ok feature ∧ feature.compile = .ok tests ∧
      tokenize .standard mixedText = .ok tokens ∧
      tests.map TestCase.place = [(⟨2, 3⟩, some ⟨5, 7⟩), (⟨2, 3⟩, some ⟨8, 7⟩), (⟨10, 5⟩, none),
        (⟨11, 5⟩, some ⟨14, 9⟩)] ∧
      (tests.map TestCase.place).Pairwise ComesBefore ∧
      FromRow feature tokens ⟨11, 5⟩ ⟨14, 9⟩ := by
  have outcome : (parse .standard mixedText).toOption.map (fun feature =>
      feature.compile.toOption.map (List.map TestCase.place)) =
      some (some [(⟨2, 3⟩, some ⟨5, 7⟩), (⟨2, 3⟩, some ⟨8, 7⟩), (⟨10, 5⟩, none),
        (⟨11, 5⟩, some ⟨14, 9⟩)]) := by decide +kernel
  obtain ⟨feature, parsed, compiles⟩ := exists_of_outcome outcome
  obtain ⟨tests, compiled, places⟩ := exists_of_outcome compiles
  obtain ⟨tokens, lexed, ordered, _, each⟩ :=
    cases_in_order .standard mixedText feature tests parsed compiled
  have final : (⟨11, 5⟩, some ⟨14, 9⟩) ∈ tests.map TestCase.place := by
    rw [places]
    decide
  obtain ⟨test, member, place⟩ := List.mem_map.mp final
  obtain ⟨here, row⟩ := Prod.mk.inj place
  have source := (each test member).2 _ row
  rw [here] at source
  exact ⟨feature, tests, tokens, parsed, compiled, lexed, places, ordered, source⟩

end Gherkin
