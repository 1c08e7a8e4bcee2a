import Gherkin.Proofs.Closure
import Gherkin.Proofs.StepTokens

/-!
Steps without antecedent.

One error of the grammar is about step keywords: a conjunction has nothing to continue. The grammar
reports it also when it does not find the text of the keyword, which does not happen. `Quiet` parsers do
not report it. All others are `Fair`: where they report it, the step is the first one behind a heading
and its keyword is a conjunction.
-/

namespace Gherkin

open scoped Computability

namespace Parse

def Quiet {α : Type} (parser : Parse α) : Prop :=
  ∀ cursor error after, parser cursor = (.error (.grammar error), after) → error.expected ≠ antecedent

theorem quiet_bind {α β : Type} {first : Parse α} {next : α → Parse β} (head : Quiet first)
    (tail : ∀ value, Quiet (next value)) : Quiet (first >>= next) := by
  intro cursor error after run
  rw [bind_apply] at run
  cases ran : first cursor with
  | mk result middle =>
      rw [ran] at run
      cases result with
      | ok value => exact tail value middle error after run
      | error other =>
          cases run
          exact head cursor error after ran

theorem quiet_fetch : Quiet fetch := by
  intro cursor error after run
  rw [fetch] at run
  split at run <;> cases run

theorem closed_quiet : Closed @Quiet where
  pure _ := by rintro cursor error after ⟨⟩
  bind := quiet_bind
  inspect some cursor := some cursor cursor
  fetch := quiet_fetch
  consume := by rintro cursor error after ⟨⟩
  throw _ other := by
    rintro cursor error after ⟨⟩
    exact other

end Parse

namespace Supply

variable {supply : Supply} {cursor after : Cursor} {tokens rest : List Token} {error : SyntaxError}

/-- The error is about a conjunction that has nothing to continue. -/
structure Orphan (dialect : Dialect) (token : Token) (error : SyntaxError) : Prop where
  kind : token.kind = .step
  conjunction : ∃ keyword, dialect.stepKeyword? token.text = some keyword ∧
    keyword.isConjunction = true
  error : error = ⟨token.location, antecedent, token.describe⟩

def Accuses (supply : Supply) (error : SyntaxError) : Prop :=
  ∃ (before between rest : List Token) (head token : Token) (keyword : BlockKeyword),
    supply.tokens = before ++ head :: (between ++ token :: rest) ∧ head.kind = .block keyword ∧
      (∀ other ∈ between, other.kind.isHeading = true) ∧ Orphan supply.dialect token error

/-- Asks for an antecedent where a conjunction has none, and nowhere else. -/
def Fair {α : Type} (supply : Supply) (parser : Parse α) : Prop :=
  ∀ cursor tokens error after, supply.Shows cursor tokens → Clear tokens →
    parser cursor = (.error (.grammar error), after) → error.expected = antecedent →
      supply.Accuses error

section Sequences

variable {α β : Type} {first : Parse α} {next : α → Parse β} {taken viable : Language Token}

theorem fair_of_quiet {parser : Parse α} (quiet : Parse.Quiet parser) : supply.Fair parser :=
  fun cursor _ error after _ _ run lacks => absurd lacks (quiet cursor error after run)

theorem fair_bind (head : supply.Fair first) (verdict : supply.Verdict first taken viable)
    (tail : ∀ value, supply.Fair (next value)) : supply.Fair (first >>= next) := by
  intro cursor tokens error after shows clear run lacks
  have given := verdict cursor tokens shows clear
  rw [Parse.bind_apply] at run
  cases ran : first cursor with
  | mk result middle =>
      rw [ran] at run given
      cases given with
      | success split shown fresh member => exact tail _ _ _ _ _ shown fresh run lacks
      | fault =>
          cases run
          exact head cursor tokens error after shows clear ran lacks

theorem fair_map (head : supply.Fair first) (function : α → β) :
    supply.Fair (first >>= fun value => pure (function value)) := by
  intro cursor tokens error after shows clear run lacks
  rw [Parse.bind_apply] at run
  cases ran : first cursor with
  | mk result middle =>
      rw [ran] at run
      cases result with
      | ok value => cases run
      | error other =>
          cases run
          exact head cursor tokens error after shows clear ran lacks

theorem fair_collectFrom {item : β → Parse (Option (α × β))} (once : ∀ state, supply.Fair (item state))
    (obeys : ∀ state, supply.Verdict (item state) taken viable) (fuel : Nat) (state : β) :
    supply.Fair (Parse.collectFrom item fuel state) := by
  induction fuel generalizing state with
  | zero => exact fair_of_quiet (Parse.closed_quiet.pure [])
  | succ fuel ih =>
      refine fair_bind (once state) (obeys state) fun found => ?_
      cases found with
      | none => exact fair_of_quiet (Parse.closed_quiet.pure [])
      | some pair => exact fair_map (ih pair.2) _

theorem fair_many {item : Parse (Option α)} (once : supply.Fair item)
    (obeys : supply.Obeys item taken) : supply.Fair (Parse.many item) :=
  fun cursor => fair_collectFrom (fun _ => fair_map once _) (fun _ => obeys_map obeys _) _ () cursor

end Sequences

def Spelled (supply : Supply) : Prop :=
  ∀ token ∈ supply.tokens, token.kind = .step →
    ∃ keyword, supply.dialect.stepKeyword? token.text = some keyword

variable {previous : Option StepKeyword}

/-- A keyword that is found has a role, unless it is a conjunction and nothing comes before it. -/
theorem orphan_of_step (spelled : supply.Spelled) (shows : supply.Shows cursor tokens)
    (run : Parse.step previous cursor = (.error (.grammar error), after))
    (lacks : error.expected = antecedent) :
    previous = none ∧ ∃ token rest, tokens = token :: rest ∧ Orphan supply.dialect token error := by
  have within := shows.within
  have given := shows.takeIf (show TokenKind.step ≠ .eof by decide)
  rw [Parse.step, Parse.bind_apply] at run
  cases taken : Parse.takeIf .step cursor with
  | mk result middle =>
      rw [taken] at run given
      cases given with
      | declined => cases run
      | failure => cases run
      | @taken token rest _ split opens shown =>
          subst split
          obtain ⟨keyword, found⟩ := spelled token (within.subset List.mem_cons_self) opens
          simp only [Parse.bind_apply, Parse.reader_apply, shown.dialect, found, Option.bind_some]
            at run
          cases resolved : keyword.resolve previous with
          | some role =>
              -- The rest of a step does not ask for an antecedent.
              simp only [resolved] at run
              have quiet := Parse.closed_quiet.bind (Parse.closed_quiet.expect .name
                (show "a step name" ≠ antecedent by decide)) fun name =>
                  Parse.closed_quiet.map (Parse.closed_quiet.argument token.location.line) fun argument =>
                    some ((⟨token.text, role, name.text, argument, token.location⟩ : Step), some role)
              exact absurd lacks (quiet middle error after run)
          | none =>
              simp only [resolved] at run
              cases run
              rw [StepKeyword.resolve] at resolved
              by_cases conjunction : keyword.isConjunction = true
              · rw [if_pos conjunction] at resolved
                exact ⟨resolved, token, rest, rfl, opens, ⟨keyword, found, conjunction⟩, rfl⟩
              · rw [if_neg conjunction] at resolved
                cases resolved

/-- What has been read is a step, so the next one has something to continue. -/
theorem role_of_step {step : Step} {next : Option StepKeyword}
    (run : Parse.step previous cursor = (.ok (some (step, next)), after)) : next = some step.role := by
  obtain ⟨found, _, _, run⟩ := (Parse.bind_eq_ok _ _ _ _ _).mp run
  cases found with
  | none => cases run
  | some token =>
      obtain ⟨reader, _, _, run⟩ := (Parse.bind_eq_ok _ _ _ _ _).mp run
      cases resolved : (reader.mode.dialect.stepKeyword? token.text).bind (·.resolve previous) with
      | none =>
          rw [resolved] at run
          cases run
      | some role =>
          rw [resolved] at run
          obtain ⟨name, _, _, run⟩ := (Parse.bind_eq_ok _ _ _ _ _).mp run
          obtain ⟨argument, _, _, run⟩ := (Parse.bind_eq_ok _ _ _ _ _).mp run
          cases run
          rfl

theorem orphan_of_steps (spelled : supply.Spelled) (fuel : Nat)
    (shows : supply.Shows cursor tokens) (clear : Clear tokens)
    (run : Parse.collectFrom Parse.step fuel previous cursor = (.error (.grammar error), after))
    (lacks : error.expected = antecedent) :
    previous = none ∧ ∃ token rest, tokens = token :: rest ∧ Orphan supply.dialect token error := by
  induction fuel generalizing previous cursor tokens with
  | zero => cases run
  | succ fuel ih =>
      have given := item_step previous shows clear
      rw [Parse.collectFrom_succ] at run
      cases here : Parse.step previous cursor with
      | mk result middle =>
          rw [here] at run given
          cases given with
          | last => cases run
          | @next step next _ used rest split shown fresh =>
              simp only [Parse.bind_apply] at run
              cases later : Parse.collectFrom Parse.step fuel next middle with
              | mk result last =>
                  simp only [later] at run
                  cases result with
                  | ok others => cases run
                  | error other =>
                      cases run
                      have first := (ih shown fresh later).1
                      rw [role_of_step here] at first
                      cases first
          | fault =>
              cases run
              exact orphan_of_step spelled shows here lacks

/-- Of the steps behind a heading only the first one can lack an antecedent. -/
theorem fair_headed {α : Type} (spelled : supply.Spelled) (keyword : BlockKeyword)
    (function : Heading → List Step → α) :
    supply.Fair (Parse.heading keyword Parse.optionalName >>= fun heading =>
      Parse.steps >>= fun steps => pure (function heading steps)) := by
  intro cursor tokens error after shows clear run lacks
  have given := obeys_optionalHeading keyword cursor tokens shows clear
  rw [Parse.bind_apply] at run
  cases headed : Parse.heading keyword Parse.optionalName cursor with
  | mk result middle =>
      rw [headed] at run given
      cases given with
      | fault =>
          cases run
          have quiet := Parse.closed_quiet.heading keyword Parse.closed_quiet.optionalName
          exact absurd lacks (quiet cursor error after headed)
      | @success heading _ used rest split shown fresh member =>
          obtain ⟨_, derived⟩ := member
          obtain ⟨head, between, same, opens, plain⟩ := (derived rest).headed
          obtain ⟨before, whole⟩ := shows.within
          simp only [Parse.bind_apply, Parse.steps, Parse.collect_apply] at run
          cases stepped : Parse.collectFrom Parse.step (middle.limit + 1) none middle with
          | mk result last =>
              simp only [stepped] at run
              cases result with
              | ok steps => cases run
              | error other =>
                  cases run
                  obtain ⟨_, token, more, rfl, orphan⟩ :=
                    orphan_of_steps spelled _ shown fresh stepped lacks
                  refine ⟨before, between, more, head, token, keyword, ?_, opens, plain, orphan⟩
                  rw [← whole, split, same]

theorem obeys_peek : supply.Obeys Parse.peek 1 := by
  intro cursor tokens shows clear
  have looked := shows.peek
  generalize Parse.peek cursor = answer at looked
  cases looked with
  | token _ shown => exact .success (List.nil_append tokens).symm shown clear rfl
  | failure none failed =>
      subst none
      exact .fault (fault_of_lex failed (le_begun rfl))

section Blocks

variable (spelled : supply.Spelled)

include spelled

theorem fair_scenario (keyword : BlockKeyword) : supply.Fair (Parse.scenario keyword) :=
  fair_bind (fair_of_quiet Parse.closed_quiet.tags) obeys_tags fun _ => fair_headed spelled keyword _

theorem fair_background : supply.Fair Parse.background := by
  refine fair_bind (fair_of_quiet Parse.closed_quiet.kindAfterTags) verdict_kindAfterTags fun kind => ?_
  split
  · refine fair_bind (fair_of_quiet Parse.closed_quiet.peek) obeys_peek fun token => ?_
    split
    · exact fair_of_quiet (Parse.closed_quiet.unexpected token (by decide))
    · exact fair_headed spelled .background _
  · exact fair_of_quiet (Parse.closed_quiet.pure none)

theorem fair_definition : supply.Fair Parse.definition := by
  refine fair_bind (fair_of_quiet Parse.closed_quiet.kindAfterTags) verdict_kindAfterTags fun kind => ?_
  split
  · exact fair_map (fair_scenario spelled _) _
  · refine fair_bind (fair_scenario spelled _) (obeys_scenario _) fun scenario => fair_of_quiet ?_
    exact Parse.closed_quiet.map (Parse.closed_quiet.many Parse.closed_quiet.examples) _
  · exact fair_of_quiet (Parse.closed_quiet.pure none)

theorem fair_definitions : supply.Fair (Parse.many Parse.definition) :=
  fair_many (fair_definition spelled) obeys_definition

theorem fair_rule : supply.Fair Parse.rule := by
  refine fair_bind (fair_of_quiet Parse.closed_quiet.kindAfterTags) verdict_kindAfterTags fun kind => ?_
  split
  · refine fair_bind (fair_of_quiet Parse.closed_quiet.tags) obeys_tags fun tags => ?_
    refine fair_bind (fair_of_quiet (Parse.closed_quiet.heading _ Parse.closed_quiet.optionalName))
      (obeys_optionalHeading _) fun heading => ?_
    refine fair_bind (fair_background spelled) verdict_background fun background => ?_
    exact fair_map (fair_definitions spelled) _
  · exact fair_of_quiet (Parse.closed_quiet.pure none)

theorem fair_feature : supply.Fair Parse.feature := by
  refine fair_bind (fair_of_quiet Parse.closed_quiet.tags) obeys_tags fun tags => ?_
  refine fair_bind (fair_of_quiet (Parse.closed_quiet.heading _ Parse.closed_quiet.featureName))
    (obeys_heading .feature obeys_featureName (single_le_name (mem_single .name))) fun heading => ?_
  refine fair_bind (fair_background spelled) verdict_background fun background => ?_
  refine fair_bind (fair_definitions spelled) (obeys_many obeys_definition) fun children => ?_
  refine fair_bind (fair_many (fair_rule spelled) obeys_rule) (obeys_many obeys_rule) fun rules => ?_
  refine fair_of_quiet (Parse.closed_quiet.bind (Parse.closed_quiet.expect .eof (by decide)) fun _ => ?_)
  exact Parse.closed_quiet.map Parse.closed_quiet.reader _

end Blocks

section Documents

variable {setup : Setup} {text : Text} {read : List Token} {result : Except LexError Mode}
  (reads : Mode.Reads setup (.initial setup) (Line.split text) read result)

include reads

/-- A step of the document has been read already, and the dialect has not changed since. -/
theorem spelled_of_reads : (ofReads reads).Spelled := by
  intro token member kind
  have real := mem_read_of_mem reads token member (by simp [kind])
  obtain ⟨early, rest, lines, run, _⟩ := reads.run_through
  have held := ((mem_uncommented _ _).mp real).1
  obtain ⟨line, _, tells⟩ := run.tells held (by rw [kind]; rfl)
  obtain ⟨surface, separator, matched, sets, rfl⟩ := tells.step kind
  have past := run.header_over (fun inside => nomatch inside) real
  have dialect : (ofReads reads).dialect = ((Mode.initial setup).through setup early).dialect := by
    rw [← Mode.dialect_through past rest, Mode.through, Mode.through, ← List.foldl_append, ← lines]
    rfl
  refine ⟨surface.keyword, ?_⟩
  rw [dialect]
  exact Dialect.stepKeyword?_append (Dialect.step?_eq_some_iff.mp matched).listed sets

theorem accuses_of_parse {error : SyntaxError} (failed : parse setup text = .error (.grammar error))
    (lacks : error.expected = antecedent) : (ofReads reads).Accuses error := by
  rcases started_of_reads reads with ⟨cursor, same, shows⟩ | ⟨other, _, same, _⟩
  · rw [same] at failed
    cases run : Parse.feature cursor with
    | mk outcome after =>
        rw [run] at failed
        cases failed
        exact fair_feature (spelled_of_reads reads) cursor _ error after shows (clear_of_reads reads)
          run lacks
  · rw [same] at failed
    cases failed

/-- What stands in front of the end of a document has been read. -/
theorem exists_front {front rest : List Token} {token : Token} (proper : token.kind ≠ .eof)
    (split : (ofReads reads).tokens = front ++ token :: rest) :
    ∃ more, uncommented read = front ++ token :: more := by
  have whole : uncommented read ++ closing text result = (front ++ [token]) ++ rest :=
    split.trans (by simp)
  rcases List.append_eq_append_iff.mp whole with ⟨others, ends, final⟩ | ⟨more, ends, _⟩
  · rcases List.eq_nil_or_concat others with rfl | ⟨_, last, rfl⟩
    · exact ⟨[], by simpa using ends.symm⟩
    · have same : token = last := by simpa using congrArg List.getLast? ends
      have closes : token ∈ closing text result := by simp [final, same]
      cases result with
      | error => cases closes
      | ok => exact absurd (by rw [List.mem_singleton.mp closes]) proper
  · exact ⟨more, by simpa using ends⟩

/-- Comments can stand between a heading and its first step. -/
theorem exists_orphan_of_parse {error : SyntaxError}
    (failed : parse setup text = .error (.grammar error)) (lacks : error.expected = antecedent) :
    ∃ (before between rest : List Token) (head token : Token) (block : BlockKeyword),
      read = before ++ head :: (between ++ token :: rest) ∧ head.kind = .block block ∧
      (∀ other ∈ between, other.kind = .comment ∨ other.kind.isHeading = true) ∧
      Orphan ((Mode.initial setup).through setup (Line.split text)).dialect token error := by
  obtain ⟨before, between, rest, head, token, block, split, opens, plain, orphan⟩ :=
    accuses_of_parse reads failed lacks
  have whole : (ofReads reads).tokens = (before ++ head :: between) ++ token :: rest := by simp [split]
  obtain ⟨more, real⟩ := exists_front reads (by simp [orphan.kind]) whole
  rw [List.append_assoc, List.cons_append] at real
  obtain ⟨above, others, cut, _, first⟩ := List.filter_eq_append_iff.mp real
  obtain ⟨remarks, below, rfl, _, _, further⟩ := List.filter_eq_cons_iff.mp first
  obtain ⟨inner, last, rfl, kept, final⟩ := List.filter_eq_append_iff.mp further
  obtain ⟨notes, left, rfl, comments, _, _⟩ := List.filter_eq_cons_iff.mp final
  refine ⟨above ++ remarks, inner ++ notes, left, head, token, block, by simp [cut], opens, ?_, orphan⟩
  intro other member
  rcases List.mem_append.mp member with inside | note
  · by_cases comment : other.kind = .comment
    · exact Or.inl comment
    · exact Or.inr (plain other (kept ▸ (mem_uncommented _ _).mpr ⟨inside, comment⟩))
  · exact Or.inl (by simpa using comments other note)

end Documents

end Supply

/-- A step token is the keyword that the line was matched with and what sets it off. Looked up in the
dialect of the reader, as often as one likes and whatever has been read since, its text gives back the role
that the keyword was matched with. So an error that asks for an antecedent is about a conjunction which is
the first step behind a heading. -/
theorem keyword_read_back (setup : Setup) (text : Text) :
    (∀ count token, ((Reader.start setup text).later count).next.1 = .ok token → token.kind = .step →
      ∃ before line behind surface separator, Line.split text = before ++ line :: behind ∧
        ((Mode.initial setup).through setup before).opened = none ∧
        ((Mode.initial setup).through setup before).dialect.step? line.body = some surface ∧
        surface.Sets separator ∧ token = ⟨.step, surface.text ++ separator, line.start⟩ ∧
        ∀ further, count < further →
          ((Reader.start setup text).later further).mode.dialect.stepKeyword? token.text =
            some surface.keyword) ∧
    ∀ error, parse setup text = .error (.grammar error) → error.expected = antecedent →
      ∃ (read before between rest : List Token) (head token : Token) (result : Except LexError Mode)
          (block : BlockKeyword) (keyword : StepKeyword),
        Mode.Reads setup (.initial setup) (Line.split text) read result ∧
        read = before ++ head :: (between ++ token :: rest) ∧ head.kind = .block block ∧
        (∀ other ∈ between, other.kind = .comment ∨ other.kind.isHeading = true) ∧
        token.kind = .step ∧
        ((Mode.initial setup).through setup (Line.split text)).dialect.stepKeyword? token.text =
          some keyword ∧
        keyword.isConjunction = true ∧ error = ⟨token.location, antecedent, token.describe⟩ := by
  constructor
  · intro count token answer kind
    exact Reader.exists_step_of_later answer kind
  · intro error failed lacks
    obtain ⟨read, result, reads⟩ := Mode.exists_reads setup (.initial setup) (Line.split text)
    obtain ⟨before, between, rest, head, token, block, split, opens, plain, orphan⟩ :=
      Supply.exists_orphan_of_parse reads failed lacks
    obtain ⟨keyword, found, conjunction⟩ := orphan.conjunction
    exact ⟨read, before, between, rest, head, token, result, block, keyword, reads, split, opens, plain,
      orphan.kind, found, conjunction, orphan.error⟩

/-- A step set off by a no-break space. The next one stands behind a comment at the start of a block and
has nothing to continue. -/
def strayText : Text :=
  "Feature: f\nBackground:\nGiven\u00a0a\nScenario: s\n# c\nAnd b\n".toList

theorem keyword_read_back_strayText :
    (∃ surface : StepSurface, ∃ separator, surface.Sets separator ∧
      "Given\u00a0".toList = surface.text ++ separator ∧ ∀ further, 3 < further →
        ((Reader.start .standard strayText).later further).mode.dialect.stepKeyword?
          "Given\u00a0".toList = some surface.keyword) ∧
    parse .standard strayText = .error (.grammar ⟨⟨6, 1⟩, antecedent, "`And`"⟩) ∧
    ∃ token : Token, ∃ keyword, token.location = ⟨6, 1⟩ ∧
      ((Mode.initial .standard).through .standard (Line.split strayText)).dialect.stepKeyword?
        token.text = some keyword ∧
      keyword.isConjunction = true := by
  obtain ⟨looked, accused⟩ := keyword_read_back .standard strayText
  have failed : parse .standard strayText = .error (.grammar ⟨⟨6, 1⟩, antecedent, "`And`"⟩) := by
    decide +kernel
  refine ⟨?_, failed, ?_⟩
  · have answer : ((Reader.start .standard strayText).later 3).next.1 =
        .ok ⟨.step, "Given\u00a0".toList, ⟨3, 1⟩⟩ := by
      rw [Reader.answer_later]
      decide +kernel
    obtain ⟨_, _, _, surface, separator, _, _, _, sets, same, found⟩ := looked 3 _ answer rfl
    exact ⟨surface, separator, sets, congrArg Token.text same, found⟩
  · obtain ⟨_, _, _, _, _, token, _, _, keyword, _, _, _, _, _, found, conjunction, same⟩ :=
      accused _ failed rfl
    exact ⟨token, keyword, (congrArg SyntaxError.location same).symm, found, conjunction⟩

end Gherkin
