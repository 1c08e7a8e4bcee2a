import Gherkin.Proofs.WatchedLoops

/-!
What goes for the watched grammar and the grammar.

The two are put together in the same way from the same few parts. A relation between a watched parser and
a parser that goes over from these parts to sequences and repetitions is one between any two that belong
together. That watched parsers end is such a relation; the parser beside them does not matter for it.
-/

namespace Gherkin

/-- A kind that a line neither goes on after nor comes to its end with. -/
def TokenKind.plain : TokenKind → Bool
  | .tag | .pipe | .eof => false
  | _ => true

theorem TokenKind.ne_eof_of_plain {kind : TokenKind} (plain : kind.plain = true) : kind ≠ .eof := by
  rintro rfl
  cases plain

namespace Watch

open Progress

/-- A relation that goes over from the parts of a watched parser and its parser to the whole. -/
structure Closed (holds : ∀ {α : Type}, Watch α → Parse α → Prop) : Prop where
  pure : ∀ {α : Type} (value : α), holds (Pure.pure value) (Pure.pure value)
  fail : ∀ {α : Type} (error : ParseError), holds (Watch.fail error : Watch α) (throw error)
  bind : ∀ {α β : Type} {first : Watch α} {second : Parse α} {next : α → Watch β} {other : α → Parse β},
    holds first second → (∀ value, holds (next value) (other value)) →
      holds (first >>= next) (second >>= other)
  gather : ∀ {α β : Type} {item : β → Watch (Option (α × β))} {other : β → Parse (Option (α × β))},
    (∀ state, holds (item state) (other state)) → (∀ state, Spends (item state)) →
      (∀ state, Spends (other state)) →
        ∀ state, holds (Watch.gather item state) (Parse.collect other state)
  reader : holds Watch.reader Parse.reader
  peek : holds Watch.peek Parse.peek
  takeIf : ∀ {kind : TokenKind}, kind.plain = true → holds (Watch.takeIf kind) (Parse.takeIf kind)
  expect : ∀ {kind : TokenKind}, kind.plain = true →
    ∀ expected, holds (Watch.expect kind expected) (Parse.expect kind expected)
  kindAfterTags : holds Watch.kindAfterTags Parse.kindAfterTags
  tag : holds Watch.tag Parse.tag
  row : ∀ width, holds (Watch.row width) (Parse.row width)
  docStringLine : ∀ block indent,
    holds (Watch.docStringLine block indent) (Parse.docStringLine block indent)

theorem closed_ends : Closed fun watched _ => Ends watched where
  pure := ends_pure
  fail := ends_fail
  bind := ends_bind
  gather once spends _ := ends_gather once spends
  reader := ends_reader
  peek := ends_peek
  takeIf _ := ends_takeIf _
  expect _ := ends_expect _
  kindAfterTags := ends_kindAfterTags
  tag := ends_tag
  row := ends_row
  docStringLine := ends_docStringLine

theorem spends_descriptionLine : Spends descriptionLine :=
  spends_bind (spends_takeIf (by decide)) rfl fun _ => keeps_pure _

section Parts

variable {holds : ∀ {α : Type}, Watch α → Parse α → Prop} {α β : Type} (closed : Closed @holds)

include closed

theorem Closed.map {first : Watch α} {second : Parse α} (head : holds first second) (function : α → β) :
    holds (first >>= fun value => Pure.pure (function value))
      (second >>= fun value => Pure.pure (function value)) :=
  closed.bind head fun _ => closed.pure _

theorem Closed.unexpected (token : Token) (expected : String) :
    holds (Watch.unexpected token expected : Watch α) (Parse.unexpected token expected) :=
  closed.fail _

theorem Closed.many {item : Watch (Option α)} {other : Parse (Option α)} (once : holds item other)
    (spends : Spends item) (same : Spends other) : holds (Watch.many item) (Parse.many other) :=
  closed.gather (fun _ => closed.map once _) (spends_stateless spends) (spends_stateless same) ()

theorem Closed.table : holds Watch.table Parse.table :=
  closed.map (closed.gather closed.row spends_row Parse.spends_row none) _

theorem Closed.docString (block : Block) : holds (Watch.docString block) (Parse.docString block) :=
  closed.map (closed.many (closed.docStringLine block _) (spends_docStringLine block _)
    (Parse.spends_docStringLine block _)) _

theorem Closed.argument (line : Nat) : holds (Watch.argument line) (Parse.argument line) := by
  refine closed.bind closed.peek fun token => closed.bind closed.reader fun reader => ?_
  cases reader.blockOpenedIn? (line + 1) token.location.line with
  | some block => exact closed.map (closed.docString block) _
  | none =>
      dsimp only
      split
      · exact closed.map closed.table _
      · exact closed.pure none

theorem Closed.tags : holds Watch.tags Parse.tags :=
  closed.many closed.tag spends_tag Parse.spends_tag

theorem Closed.descriptionLine : holds Watch.descriptionLine Parse.descriptionLine :=
  closed.map (closed.takeIf rfl) _

theorem Closed.optionalName : holds Watch.optionalName Parse.optionalName :=
  closed.map (closed.takeIf rfl) _

theorem Closed.featureName : holds Watch.featureName Parse.featureName :=
  closed.map (closed.expect rfl _) _

theorem Closed.heading (keyword : BlockKeyword) {watched : Watch Text} {name : Parse Text}
    (named : holds watched name) : holds (Watch.heading keyword watched) (Parse.heading keyword name) := by
  refine closed.bind (closed.expect rfl _) fun token => closed.bind named fun _ => ?_
  exact closed.map (closed.many closed.descriptionLine spends_descriptionLine
    Parse.spends_descriptionLine) _

theorem Closed.step (previous : Option StepKeyword) :
    holds (Watch.step previous) (Parse.step previous) := by
  refine closed.bind (closed.takeIf rfl) fun token => ?_
  cases token with
  | none => exact closed.pure none
  | some token =>
      refine closed.bind closed.reader fun reader => ?_
      dsimp only
      cases (reader.mode.dialect.stepKeyword? token.text).bind (·.resolve previous) with
      | none => exact closed.unexpected token _
      | some role =>
          refine closed.bind (closed.expect rfl _) fun name => ?_
          exact closed.map (closed.argument _) _

end Parts

theorem spends_step (previous : Option StepKeyword) : Spends (step previous) := by
  refine spends_bind (spends_takeIf (by decide)) rfl fun token => ?_
  refine keeps_bind ends_reader.keeps fun reader => ?_
  dsimp only
  cases (reader.mode.dialect.stepKeyword? token.text).bind (·.resolve previous) with
  | none => exact (ends_unexpected token _).keeps
  | some role =>
      refine keeps_bind (ends_expect _ _).keeps fun name => ?_
      exact keeps_bind (closed_ends.argument _).keeps fun _ => keeps_pure _

theorem takes_heading (keyword : BlockKeyword) {name : Watch Text} (named : Ends name) :
    Takes (heading keyword name) := by
  refine takes_bind (takes_expect (by simp) _) fun token => keeps_bind named.keeps fun _ => ?_
  refine keeps_bind (Ends.keeps ?_) fun _ => keeps_pure _
  exact closed_ends.many closed_ends.descriptionLine spends_descriptionLine Parse.spends_descriptionLine

section Blocks

variable {holds : ∀ {α : Type}, Watch α → Parse α → Prop} (closed : Closed @holds)

include closed

theorem Closed.steps : holds Watch.steps Parse.steps :=
  closed.gather closed.step spends_step Parse.spends_step none

theorem Closed.background : holds Watch.background Parse.background := by
  refine closed.bind closed.kindAfterTags fun kind => ?_
  split
  · refine closed.bind closed.peek fun token => ?_
    split
    · exact closed.unexpected token _
    · refine closed.bind (closed.heading _ closed.optionalName) fun _ => ?_
      exact closed.map closed.steps _
  · exact closed.pure none

theorem Closed.scenario (keyword : BlockKeyword) :
    holds (Watch.scenario keyword) (Parse.scenario keyword) := by
  refine closed.bind closed.tags fun tags => ?_
  refine closed.bind (closed.heading _ closed.optionalName) fun heading => ?_
  exact closed.map closed.steps _

theorem Closed.examplesTable : holds Watch.examplesTable Parse.examplesTable := by
  refine closed.bind closed.peek fun token => ?_
  split
  · refine closed.bind closed.table fun table => ?_
    cases table.rows.head?.bind (·.repeated?) with
    | none => exact closed.pure table
    | some cell => exact closed.fail _
  · exact closed.unexpected token _

theorem Closed.examples : holds Watch.examples Parse.examples := by
  refine closed.bind closed.kindAfterTags fun kind => ?_
  split
  · refine closed.bind closed.tags fun tags => ?_
    refine closed.bind (closed.heading _ closed.optionalName) fun heading => ?_
    exact closed.map closed.examplesTable _
  · exact closed.pure none

end Blocks

theorem takes_scenario (keyword : BlockKeyword) : Takes (scenario keyword) := by
  refine takes_after closed_ends.tags.keeps fun tags => ?_
  refine takes_bind (takes_heading _ closed_ends.optionalName) fun heading => ?_
  exact keeps_bind closed_ends.steps.keeps fun _ => keeps_pure _

theorem spends_examples : Spends examples := by
  refine spends_after ends_kindAfterTags.keeps fun kind => ?_
  split
  · refine spends_after closed_ends.tags.keeps fun tags => Takes.spends ?_
    refine takes_bind (takes_heading _ closed_ends.optionalName) fun heading => ?_
    exact keeps_bind closed_ends.examplesTable.keeps fun _ => keeps_pure _
  · exact spends_none

section Definitions

variable {holds : ∀ {α : Type}, Watch α → Parse α → Prop} (closed : Closed @holds)

include closed

theorem Closed.definition : holds Watch.definition Parse.definition := by
  refine closed.bind closed.kindAfterTags fun kind => ?_
  cases kind with
  | block keyword =>
      cases keyword with
      | scenario => exact closed.map (closed.scenario _) _
      | scenarioOutline =>
          refine closed.bind (closed.scenario _) fun scenario => ?_
          exact closed.map (closed.many closed.examples spends_examples Parse.spends_examples) _
      | _ => exact closed.pure none
  | _ => exact closed.pure none

end Definitions

theorem spends_definition : Spends definition := by
  refine spends_after ends_kindAfterTags.keeps fun kind => ?_
  split
  · exact (takes_bind (takes_scenario _) fun _ => keeps_pure _).spends
  · refine Takes.spends (takes_bind (takes_scenario _) fun scenario => ?_)
    refine keeps_bind (Ends.keeps ?_) fun _ => keeps_pure _
    exact closed_ends.many closed_ends.examples spends_examples Parse.spends_examples
  · exact spends_none

section Rules

variable {holds : ∀ {α : Type}, Watch α → Parse α → Prop} (closed : Closed @holds)

include closed

theorem Closed.definitions : holds (Watch.many Watch.definition) (Parse.many Parse.definition) :=
  closed.many closed.definition spends_definition Parse.spends_definition

theorem Closed.rule : holds Watch.rule Parse.rule := by
  refine closed.bind closed.kindAfterTags fun kind => ?_
  split
  · refine closed.bind closed.tags fun tags => ?_
    refine closed.bind (closed.heading _ closed.optionalName) fun heading => ?_
    refine closed.bind closed.background fun background => ?_
    exact closed.map closed.definitions _
  · exact closed.pure none

end Rules

theorem spends_rule : Spends rule := by
  refine spends_after ends_kindAfterTags.keeps fun kind => ?_
  split
  · refine spends_after closed_ends.tags.keeps fun tags => Takes.spends ?_
    refine takes_bind (takes_heading _ closed_ends.optionalName) fun heading => ?_
    refine keeps_bind closed_ends.background.keeps fun background => ?_
    exact keeps_bind closed_ends.definitions.keeps fun _ => keeps_pure _
  · exact spends_none

theorem Closed.rules {holds : ∀ {α : Type}, Watch α → Parse α → Prop} (closed : Closed @holds) :
    holds (Watch.many Watch.rule) (Parse.many Parse.rule) :=
  closed.many closed.rule spends_rule Parse.spends_rule

theorem ends_feature : Ends feature := by
  refine ends_bind closed_ends.tags fun tags => ?_
  refine ends_bind (@Closed.heading _ closed_ends .feature _ Parse.featureName closed_ends.featureName)
    fun heading => ?_
  refine ends_bind closed_ends.background fun background => ?_
  refine ends_bind closed_ends.definitions fun children => ?_
  refine ends_bind closed_ends.rules fun rules => ?_
  exact ends_bind (ends_expect _ _) fun _ => ends_bind ends_reader fun _ => ends_pure _

end Watch

end Gherkin
