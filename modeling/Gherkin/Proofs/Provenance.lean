import Gherkin.Proofs.Compilation
import Gherkin.Proofs.Contents
import Gherkin.Proofs.Soundness

/-!
Where the texts of a feature come from.

A doc string of a feature holds the lines of a block, and a cell of its examples the text of a token,
unless it is empty. A token in turn is made of characters of its line, and a line of a doc string is
the whole of it. So whatever is true of all lines of a document is true of these texts. The doc
strings of test cases are those of the feature, with values of its examples put in.
-/

namespace Gherkin

/-! A derivation makes nothing up: doc strings are lines of recorded blocks and cells are tokens between
borders. -/

def DocString.From (blocks : List Block) (tokens : List Token) (doc : DocString) : Prop :=
  ∃ block ∈ blocks, ∃ lines : List Token,
    (∀ token ∈ lines, token ∈ tokens ∧ token.kind = .docStringLine) ∧
    lines.map (·.location.line) =
      List.range' (block.location.line + 1) (block.stop - (block.location.line + 1)) ∧
    doc = ⟨lines.map fun token => DocString.unindent (block.location.column - 1) token.text,
      block.delimiter.text, block.location.column - 1, block.location⟩

theorem DocString.unindent_suffix (count : Nat) (text : Text) : unindent count text <:+ text := by
  fun_induction unindent count text with
  | case1 => exact List.suffix_refl _
  | case2 => exact List.suffix_refl _
  | case3 count c rest _ ih => exact ih.trans (List.suffix_cons c rest)
  | case4 => exact List.suffix_refl _

theorem number_of_range' {lines : List Token} {first count : Nat}
    (whole : lines.map (·.location.line) = List.range' first count) {index : Nat}
    (within : index < lines.length) : lines[index].location.line = first + index := by
  have length := congrArg List.length whole
  rw [List.length_map, List.length_range'] at length
  have entry := congrArg (fun numbers => numbers[index]?) whole
  simpa [List.getElem?_eq_getElem within, List.getElem?_range' (length ▸ within)] using entry

def TableCell.From (tokens : List Token) (cell : TableCell) : Prop :=
  cell.value = [] ∨ ∃ token ∈ tokens, token.kind = .cell ∧ cell = .ofToken token

section Sources

variable {blocks : List Block} {tokens others rest : List Token}

/-- The end of a document is no source of anything. -/
theorem DocString.From.mono {doc : DocString} (source : doc.From blocks tokens)
    (more : ∀ token ∈ tokens, token.kind ≠ .eof → token ∈ others) : doc.From blocks others := by
  obtain ⟨block, known, lines, verbatim, whole, same⟩ := source
  refine ⟨block, known, lines, ?_, whole, same⟩
  intro token member
  obtain ⟨held, kind⟩ := verbatim token member
  exact ⟨more token held (by simp [kind]), kind⟩

theorem TableCell.From.mono {cell : TableCell} (source : cell.From tokens)
    (more : ∀ token ∈ tokens, token.kind ≠ .eof → token ∈ others) : cell.From others := by
  rcases source with empty | ⟨token, member, kind, same⟩
  · exact Or.inl empty
  · exact Or.inr ⟨token, more token member (by simp [kind]), kind, same⟩

structure Sources (blocks : List Block) (tokens : List Token) (docs : List DocString)
    (cells : List TableCell) (rest : List Token) : Prop where
  suffix : rest <:+ tokens
  docs : ∀ doc ∈ docs, doc.From blocks tokens
  cells : ∀ cell ∈ cells, cell.From tokens

theorem Sources.trans {middle : List Token} {docs otherDocs : List DocString}
    {cells otherCells : List TableCell} (first : Sources blocks tokens docs cells middle)
    (second : Sources blocks middle otherDocs otherCells rest) :
    Sources blocks tokens (docs ++ otherDocs) (cells ++ otherCells) rest where
  suffix := second.suffix.trans first.suffix
  docs doc member := by
    rcases List.mem_append.mp member with here | there
    · exact first.docs doc here
    · exact (second.docs doc there).mono fun _ inside _ => first.suffix.subset inside
  cells cell member := by
    rcases List.mem_append.mp member with here | there
    · exact first.cells cell here
    · exact (second.cells cell there).mono fun _ inside _ => first.suffix.subset inside

theorem DerivesDocString.source {block : Block} {doc : DocString} (known : block ∈ blocks)
    (derived : DerivesDocString block tokens doc rest) : doc.From blocks tokens := by
  obtain ⟨lines, rfl, verbatim, whole, same⟩ := derived.lines
  refine ⟨block, known, lines, ?_, whole, same⟩
  exact fun token member => ⟨List.mem_append_left rest member, verbatim token member⟩

theorem DerivesCells.source {border : Location} {cells : List TableCell}
    (derived : DerivesCells border tokens cells rest) : ∀ cell ∈ cells, cell.From tokens := by
  induction derived with
  | ending ends => simp
  | empty closes _ ih =>
      intro cell member
      rcases List.mem_cons.mp member with rfl | later
      · exact Or.inl rfl
      · exact (ih cell later).mono fun _ inside _ => List.mem_cons_of_mem _ inside
  | @filled _ token _ _ _ _ opens closes _ ih =>
      intro cell member
      rcases List.mem_cons.mp member with rfl | later
      · exact Or.inr ⟨token, List.mem_cons_self, opens, rfl⟩
      · exact (ih cell later).mono fun _ inside _ =>
          List.mem_cons_of_mem _ (List.mem_cons_of_mem _ inside)

theorem sources_rows {rows : List TableRow} (derived : Many DerivesRow tokens rows rest) :
    Sources blocks tokens [] (rows.flatMap (·.cells)) rest := by
  induction derived with
  | nil => exact ⟨List.suffix_refl _, by simp, by simp⟩
  | cons first _ ih =>
      have suffix := first.passes.suffix
      cases first with
      | intro opens filled =>
          have here : Sources blocks _ [] _ _ :=
            ⟨suffix, by simp, fun cell member =>
              (filled.source cell member).mono fun _ inside _ => List.mem_cons_of_mem _ inside⟩
          exact here.trans ih

theorem composes_sources {grammar : Grammar}
    (known : ∀ {name tokens argument rest}, grammar.argument name tokens argument rest →
      DerivesArgument blocks tokens argument rest) : grammar.Composes (Sources blocks) where
  trans := Sources.trans
  passes passes := ⟨passes.suffix, by simp, by simp⟩
  table derived := by
    cases derived with
    | intro filled _ => exact sources_rows filled
  step := by
    intro token name tokens rest step _ _ takes
    have behind : tokens <:+ token :: name :: tokens :=
      (List.suffix_cons name tokens).trans (List.suffix_cons token _)
    have suffix := (known takes).suffix.trans behind
    refine ⟨suffix, ?_, by simp⟩
    unfold Step.docStrings
    generalize step.argument = argument at takes
    cases known takes with
    | absent => simp
    | table => simp
    | docString held here =>
        intro doc member
        rw [List.mem_singleton.mp member]
        exact (here.source held).mono fun _ inside _ => behind.subset inside

end Sources

section Texts

variable {setup : Setup} {mode after last : Mode} {line : Line} {lines : List Line}
  {tokens : List Token} {token : Token}

theorem Text.mem_of_mem_wordsFrom {offset : Nat} {text : Text} {word : Word}
    (member : word ∈ wordsFrom offset text) {c : Char} (inside : c ∈ word.text) : c ∈ text := by
  induction text generalizing offset word with
  | nil => cases member
  | cons d rest ih =>
      rw [wordsFrom] at member
      split at member
      · exact List.mem_cons_of_mem d (ih member inside)
      · cases later : wordsFrom (offset + 1) rest with
        | nil =>
            simp only [later, List.mem_singleton] at member
            subst member
            exact List.mem_singleton.mp inside ▸ List.mem_cons_self
        | cons next others =>
            have further : ∀ other ∈ next :: others, c ∈ other.text → c ∈ rest :=
              fun other held present => ih (later ▸ held) present
            simp only [later] at member
            split at member
            · rcases List.mem_cons.mp member with rfl | held
              · rcases List.mem_cons.mp inside with rfl | present
                · exact List.mem_cons_self
                · exact List.mem_cons_of_mem d (further next List.mem_cons_self present)
              · exact List.mem_cons_of_mem d (further word (List.mem_cons_of_mem next held) inside)
            · rcases List.mem_cons.mp member with rfl | held
              · exact List.mem_singleton.mp inside ▸ List.mem_cons_self
              · exact List.mem_cons_of_mem d (further word held inside)

theorem Text.mem_of_mem_trim {text : Text} {c : Char} (inside : c ∈ text.trim) : c ∈ text := by
  obtain ⟨dropped, split, _⟩ := dropTrailing_append isSpace text.trimStart
  apply (List.dropWhile_sublist isSpace).subset
  rw [← trimStart, split]
  exact List.mem_append_left dropped inside

namespace Line

variable {c : Char}

theorem mem_raw_of_content (inside : c ∈ line.content) : c ∈ line.raw :=
  List.mem_append_left _ inside

theorem mem_raw_of_body (inside : c ∈ line.body) : c ∈ line.raw :=
  mem_raw_of_content ((List.dropWhile_sublist Text.isSpace).subset inside)

theorem mem_raw_of_layout {start : Location} {parts : List Row.Part}
    (made : ∀ part ∈ parts, ∀ c ∈ part.text, c ∈ line.raw) (member : token ∈ Row.layout start parts)
    (inside : c ∈ token.text) : c ∈ line.raw := by
  induction parts generalizing start with
  | nil => cases member
  | cons part rest ih =>
      obtain ⟨first, others⟩ := List.forall_mem_cons.mp made
      rcases List.mem_cons.mp member with rfl | later
      · exact first c inside
      · exact ih others later

theorem mem_raw_of_keywordTokens {kind : TokenKind} {width : Nat}
    (member : token ∈ line.keywordTokens kind width) (inside : c ∈ token.text) : c ∈ line.raw := by
  rcases List.mem_cons.mp member with rfl | named
  · exact mem_raw_of_body (List.mem_of_mem_take inside)
  · rcases nameTokens_cases (line.start.shift width) (line.body.drop width) with none | one
    · rw [none] at named
      cases named
    · rw [one] at named
      rw [List.mem_singleton.mp named] at inside
      exact mem_raw_of_body (List.mem_of_mem_drop (Text.mem_of_mem_trim inside))

/-- A token is made of characters of its line. -/
theorem mem_raw_of_tokens {shape : Shape} (read : line.tokens shape = .ok tokens)
    (member : token ∈ tokens) (inside : c ∈ token.text) : c ∈ line.raw := by
  -- Only the last token of a line holds its break; all others come from its content.
  have ending : ∀ c ∈ line.ending.text, c ∈ line.raw :=
    fun c present => List.mem_append_right _ present
  cases shape with
  | blank | delimiter =>
      cases read
      cases member
  | comment =>
      cases read
      rw [List.mem_singleton.mp member] at inside
      exact mem_raw_of_content (Text.mem_of_mem_trim inside)
  | row =>
      obtain ⟨rest, body, _, rfl⟩ := Row.tokens_eq_ok _ _ _ _ read
      refine mem_raw_of_layout ?_ member inside
      intro part held d present
      rcases List.mem_append.mp held with row | last
      · rcases List.mem_cons.mp row with rfl | later
        · apply mem_raw_of_body
          rw [body, List.mem_singleton.mp present]
          exact List.mem_cons_self
        · apply mem_raw_of_body
          rw [body, ← Row.flatMap_text_parts rest]
          exact List.mem_cons_of_mem _ (List.mem_flatMap.mpr ⟨part, later, present⟩)
      · rw [List.mem_singleton.mp last] at present
        exact ending d present
  | tags =>
      rw [tagTokens_eq_ok line tokens read] at member
      rcases List.mem_append.mp member with tag | last
      · obtain ⟨word, held, rfl⟩ := List.mem_map.mp tag
        have listed : word ∈ Text.wordsFrom 1 line.content :=
          (List.takeWhile_sublist _).subset held
        exact mem_raw_of_content (Text.mem_of_mem_wordsFrom listed inside)
      · rw [List.mem_singleton.mp last] at inside
        exact ending c inside
  | block surface =>
      cases read
      exact mem_raw_of_keywordTokens member inside
  | step surface =>
      cases read
      exact mem_raw_of_keywordTokens member inside
  | description =>
      cases read
      rw [List.mem_singleton.mp member] at inside
      exact mem_raw_of_body inside

end Line

namespace Mode

theorem Step.mem_raw (step : Step setup mode line tokens after) (member : token ∈ tokens) {c : Char}
    (inside : c ∈ token.text) : c ∈ line.raw := by
  cases step with
  | closing | blank | opening => cases member
  | verbatim =>
      rw [List.mem_singleton.mp member] at inside
      exact inside
  | comment | header =>
      rw [List.mem_singleton.mp member] at inside
      exact Line.mem_raw_of_content (Text.mem_of_mem_trim inside)
  | content _ _ _ read => exact Line.mem_raw_of_tokens read member inside

theorem Run.mem_raw (run : Run setup mode lines tokens last) (member : token ∈ tokens) {c : Char}
    (inside : c ∈ token.text) : c ∈ lines.flatMap Line.raw := by
  induction run with
  | nil => cases member
  | cons step _ ih =>
      rw [List.flatMap_cons]
      rcases List.mem_append.mp member with here | later
      · exact List.mem_append_left _ (step.mem_raw here inside)
      · exact List.mem_append_right _ (ih later)

/-- A line of a doc string is taken as it stands. -/
theorem Run.line_of_verbatim (run : Run setup mode lines tokens last) (member : token ∈ tokens)
    (verbatim : token.kind = .docStringLine) :
    ∃ line ∈ lines, line.number = token.location.line ∧ token.text = line.raw := by
  induction run with
  | nil => cases member
  | @cons _ _ _ line rest tokens later step _ ih =>
      rcases List.mem_append.mp member with here | there
      · refine ⟨line, List.mem_cons_self, (step.onLine.line token here).symm, ?_⟩
        cases step with
        | closing | blank | opening => cases here
        | verbatim => rw [List.mem_singleton.mp here]
        | comment | header =>
            rw [List.mem_singleton.mp here] at verbatim
            cases verbatim
        | content _ _ filled read =>
            have content := Line.isContent_tokens _ line tokens filled read token here
            rw [verbatim] at content
            cases content
      · obtain ⟨other, held, found⟩ := ih there
        exact ⟨other, List.mem_cons_of_mem line held, found⟩

end Mode

end Texts

def presented (text : Text) (tokens : List Token) : List Token :=
  uncommented tokens ++ [⟨.eof, [], Line.finish (Line.split text)⟩]

theorem mem_of_mem_presented {text : Text} {tokens : List Token} {token : Token}
    (member : token ∈ presented text tokens) (counts : token.kind ≠ .eof) : token ∈ tokens := by
  rcases List.mem_append.mp member with real | final
  · exact ((mem_uncommented _ _).mp real).1
  · exact absurd (by rw [List.mem_singleton.mp final]) counts

/-- An accepted document is read without errors and derives its tree. -/
theorem derives_of_parse {setup : Setup} {text : Text} {feature : Feature}
    (parsed : parse setup text = .ok feature) :
    ∃ tokens last, Mode.Reads setup (.initial setup) (Line.split text) tokens (.ok last) ∧
      (Grammar.ofReader (.afterDocument setup text)).DerivesDocument (presented text tokens)
        feature := by
  obtain ⟨all, lexed⟩ := exists_tokens_of_parse parsed
  obtain ⟨tokens, last, reads, rfl⟩ := reads_of_tokenize_ok lexed
  have derived := derivesDocument_of_parse lexed
    (Transcript.serves_ofReader (Transcript.ofTokens lexed)) parsed
  have shown : uncommented (tokens ++ [⟨.eof, [], Line.finish (Line.split text)⟩]) =
      presented text tokens := uncommented_append _ _
  rw [shown] at derived
  exact ⟨tokens, last, reads, derived⟩

/-- The lines of an accepted document are read without an error, and the doc strings and cells of the
feature come from their tokens. -/
theorem sources_of_parse {setup : Setup} {text : Text} {feature : Feature}
    (parsed : parse setup text = .ok feature) :
    ∃ tokens last, Mode.Reads setup (.initial setup) (Line.split text) tokens (.ok last) ∧
      (∀ doc ∈ feature.docStrings, doc.From last.closed tokens) ∧
      ∀ cell ∈ feature.exampleCells, cell.From tokens := by
  obtain ⟨tokens, last, reads, derived⟩ := derives_of_parse parsed
  obtain ⟨_, done, _⟩ := tokenize_of_reads_ok reads
  have blocks : (Reader.afterDocument setup text).mode.blocks = last.closed := by
    rw [done.reached, blocks_of_outside last done.outside]
  have known : ∀ {name tokens argument rest},
      (Grammar.ofReader (.afterDocument setup text)).argument name tokens argument rest →
        DerivesArgument last.closed tokens argument rest := fun takes => blocks ▸ takes
  obtain ⟨_, _, sources⟩ := (composes_sources known).document derived
  refine ⟨tokens, last, reads, ?_, ?_⟩
  · exact fun doc member => (sources.docs doc member).mono fun _ => mem_of_mem_presented
  · exact fun cell member => (sources.cells cell member).mono fun _ => mem_of_mem_presented

def TestCase.docStrings (test : TestCase) : List DocString :=
  test.steps.flatMap Step.docStrings

structure Origin.Within (feature : Feature) (origin : Origin) : Prop where
  steps : ∀ doc ∈ origin.scenario.steps.flatMap Step.docStrings, doc ∈ feature.docStrings
  background : ∀ doc ∈ (origin.background feature).flatMap Step.docStrings, doc ∈ feature.docStrings
  cells : ∀ row ∈ origin.row, ∀ cell ∈ row.data.cells, cell ∈ feature.exampleCells

structure Origin.Of (definition : Definition) (origin : Origin) : Prop where
  scenario : origin.scenario = definition.toScenario
  cells : ∀ row ∈ origin.row, ∀ cell ∈ row.data.cells, cell ∈ definition.exampleCells

theorem Definition.of_mem_origins {rule : Option Rule} {definition : Definition} {origin : Origin}
    (member : origin ∈ definition.origins rule) : origin.rule = rule ∧ origin.Of definition := by
  cases definition with
  | scenario plain =>
      rw [List.mem_singleton.mp member]
      exact ⟨rfl, rfl, by simp⟩
  | outline template =>
      obtain ⟨row, listed, rfl⟩ := List.mem_map.mp member
      refine ⟨rfl, rfl, ?_⟩
      rintro _ ⟨⟩ cell inside
      obtain ⟨examples, held, found⟩ := List.mem_flatMap.mp listed
      apply List.mem_flatMap.mpr ⟨examples, held, ?_⟩
      unfold Examples.rows at found
      cases rows : examples.table.rows with
      | nil => simp [rows] at found
      | cons header others =>
          rw [rows] at found
          obtain ⟨data, among, rfl⟩ := List.mem_map.mp found
          apply List.mem_flatMap.mpr ⟨data, ?_, inside⟩
          rw [rows]
          exact List.mem_cons_of_mem header among

/-- A test case comes from a definition of the feature or of one of its rules. -/
theorem Feature.origin_cases {feature : Feature} {origin : Origin} (member : origin ∈ feature.origins) :
    (origin.rule = none ∧ ∃ definition ∈ feature.children, origin.Of definition) ∨
      ∃ rule ∈ feature.rules, origin.rule = some rule ∧
        ∃ definition ∈ rule.children, origin.Of definition := by
  rcases List.mem_append.mp member with own | ruled
  · obtain ⟨definition, child, listed⟩ := List.mem_flatMap.mp own
    obtain ⟨none, made⟩ := Definition.of_mem_origins listed
    exact Or.inl ⟨none, definition, child, made⟩
  · obtain ⟨rule, among, inner⟩ := List.mem_flatMap.mp ruled
    obtain ⟨definition, child, listed⟩ := List.mem_flatMap.mp inner
    obtain ⟨around, made⟩ := Definition.of_mem_origins listed
    exact Or.inr ⟨rule, among, around, definition, child, made⟩

theorem Feature.within_of_mem_origins {feature : Feature} {origin : Origin}
    (member : origin ∈ feature.origins) : origin.Within feature := by
  rcases Feature.origin_cases member with ⟨rule, definition, child, made⟩ |
    ⟨parent, among, rule, definition, child, made⟩
  · constructor
    case steps =>
        intro doc held
        rw [made.scenario] at held
        apply List.mem_append_left _ (List.mem_append_right _ ?_)
        exact List.mem_flatMap.mpr ⟨definition, child, held⟩
    case background =>
        intro doc held
        rw [Origin.background, rule, Option.bind_none, Option.map_none, Option.getD_none,
          List.append_nil] at held
        exact List.mem_append_left _ (List.mem_append_left _ held)
    case cells =>
        intro row here cell inside
        apply List.mem_append_left _ ?_
        exact List.mem_flatMap.mpr ⟨definition, child, made.cells row here cell inside⟩
  · -- A scenario of a rule has the background of the feature above that of the rule.
    have ruleDocs : ∀ doc ∈ parent.docStrings, doc ∈ feature.docStrings := by
      intro doc held
      exact List.mem_append_right _ (List.mem_flatMap.mpr ⟨parent, among, held⟩)
    constructor
    case steps =>
        intro doc held
        rw [made.scenario] at held
        apply ruleDocs doc (List.mem_append_right _ ?_)
        exact List.mem_flatMap.mpr ⟨definition, child, held⟩
    case background =>
        intro doc held
        rw [Origin.background, rule, List.flatMap_append] at held
        rcases List.mem_append.mp held with outer | inner
        · exact List.mem_append_left _ (List.mem_append_left _ outer)
        · exact ruleDocs doc (List.mem_append_left _ inner)
    case cells =>
        intro row here cell inside
        apply List.mem_append_right _ (List.mem_flatMap.mpr ⟨parent, among, ?_⟩)
        exact List.mem_flatMap.mpr ⟨definition, child, made.cells row here cell inside⟩

theorem Step.docStrings_replace (row : ExampleRow) (step : Step) :
    (step.replace row).docStrings = step.docStrings.map (DocString.replace row) := by
  obtain ⟨keyword, role, name, argument, location⟩ := step
  match argument with
  | none => rfl
  | some (.dataTable table) => rfl
  | some (.docString doc) => rfl

/-- A doc string of a test case is one of the feature, or one with values of examples put in. -/
theorem docString_of_compile {feature : Feature} {tests : List TestCase}
    (compiled : feature.compile = .ok tests) {test : TestCase} (member : test ∈ tests)
    {doc : DocString} (held : doc ∈ test.docStrings) :
    doc ∈ feature.docStrings ∨ ∃ source ∈ feature.docStrings, ∃ row : ExampleRow,
      (∀ value ∈ row.values, ∃ cell ∈ feature.exampleCells, cell.value = value) ∧
      doc = source.replace row := by
  rw [Feature.testCases_of_compile compiled] at member
  obtain ⟨origin, listed, rfl⟩ := List.mem_map.mp member
  have within := Feature.within_of_mem_origins listed
  rw [TestCase.docStrings, Origin.testCase, List.flatMap_append] at held
  rcases List.mem_append.mp held with before | own
  · exact Or.inl (within.background doc before)
  · cases filled : origin.row with
    | none =>
        rw [filled] at own
        exact Or.inl (within.steps doc own)
    | some row =>
        right
        rw [filled, List.flatMap_map] at own
        obtain ⟨step, among, inside⟩ := List.mem_flatMap.mp own
        rw [Step.docStrings_replace] at inside
        obtain ⟨source, here, rfl⟩ := List.mem_map.mp inside
        refine ⟨source, within.steps source (List.mem_flatMap.mpr ⟨step, among, here⟩),
          row.values, ?_, rfl⟩
        intro value listed
        obtain ⟨cell, present, same⟩ := List.mem_map.mp listed
        exact ⟨cell, within.cells row filled cell present, same⟩

end Gherkin
