import Gherkin.Proofs.Running

/-!
What all parsers have in common.

The grammar is put together from few things: values, errors, looks at the cursor, and the two moves of
the cursor. A property of these that goes over from parts to sequences is a property of every parser.
The error about a step whose role cannot be told stands apart, as only steps raise it: a property without
it still is one of all parsers that read no steps.
-/

namespace Gherkin

def antecedent : String :=
  "a preceding Given, When or Then step"

namespace Parse

/-- A property that goes over from the parts of a parser to the whole. -/
structure Closed (holds : ∀ {α : Type}, Parse α → Prop) : Prop where
  pure : ∀ {α : Type} (value : α), holds (Pure.pure value)
  bind : ∀ {α β : Type} {first : Parse α} {next : α → Parse β}, holds first →
    (∀ value, holds (next value)) → holds (first >>= next)
  inspect : ∀ {α : Type} {next : Cursor → Parse α}, (∀ cursor, holds (next cursor)) →
    holds (get >>= next)
  fetch : holds Parse.fetch
  consume : holds (modify fun cursor : Cursor => { cursor with ahead := cursor.ahead.tail })
  throw : ∀ {α : Type} (error : SyntaxError), error.expected ≠ antecedent →
    holds (throw (.grammar error) : Parse α)

section Parts

variable {holds : ∀ {α : Type}, Parse α → Prop} {α β : Type} (closed : Closed @holds)

include closed

theorem Closed.map {first : Parse α} (head : holds first) (function : α → β) :
    holds (first >>= fun value => Pure.pure (function value)) :=
  closed.bind head fun _ => closed.pure _

theorem Closed.reader : holds Parse.reader :=
  closed.inspect fun _ => closed.pure _

theorem Closed.peek : holds Parse.peek := by
  refine closed.inspect fun cursor => ?_
  split
  · exact closed.pure _
  · exact closed.fetch

theorem Closed.advance : holds Parse.advance :=
  closed.bind closed.peek fun _ => closed.bind closed.consume fun _ => closed.pure _

theorem Closed.takeIf (kind : TokenKind) : holds (Parse.takeIf kind) := by
  refine closed.bind closed.peek fun token => ?_
  split
  · exact closed.map closed.advance _
  · exact closed.pure none

theorem Closed.unexpected (token : Token) {expected : String} (other : expected ≠ antecedent) :
    holds (Parse.unexpected token expected : Parse α) :=
  closed.throw _ other

theorem Closed.expect (kind : TokenKind) {expected : String} (other : expected ≠ antecedent) :
    holds (Parse.expect kind expected) := by
  refine closed.bind closed.advance fun token => ?_
  split
  · exact closed.pure token
  · exact closed.unexpected token other

theorem Closed.fetchPastTags (fuel : Nat) : holds (Parse.fetchPastTags fuel) := by
  induction fuel with
  | zero => exact closed.pure TokenKind.eof
  | succ fuel ih =>
      refine closed.bind closed.fetch fun token => ?_
      split
      · exact ih
      · exact closed.pure token.kind

theorem Closed.kindAfterTags : holds Parse.kindAfterTags := by
  refine closed.inspect fun cursor => ?_
  split
  · exact closed.pure _
  · exact closed.fetchPastTags _

theorem Closed.collectFrom {item : β → Parse (Option (α × β))} (once : ∀ state, holds (item state))
    (fuel : Nat) (state : β) : holds (Parse.collectFrom item fuel state) := by
  induction fuel generalizing state with
  | zero => exact closed.pure []
  | succ fuel ih =>
      refine closed.bind (once state) fun found => ?_
      cases found with
      | none => exact closed.pure []
      | some pair => exact closed.map (ih pair.2) _

theorem Closed.collect {item : β → Parse (Option (α × β))} (once : ∀ state, holds (item state))
    (state : β) : holds (Parse.collect item state) :=
  closed.inspect fun _ => closed.collectFrom once _ state

theorem Closed.many {item : Parse (Option α)} (once : holds item) : holds (Parse.many item) :=
  closed.collect (fun _ => closed.map once _) ()

theorem Closed.cell (border : Location) : holds (Parse.cell border) := by
  refine closed.bind (closed.takeIf .cell) fun raw => closed.bind closed.advance fun token => ?_
  split
  · exact closed.pure _
  · exact closed.pure _
  · exact closed.unexpected token (by decide)

theorem Closed.row (width : Option Nat) : holds (Parse.row width) := by
  refine closed.bind (closed.takeIf .pipe) fun border => ?_
  cases border with
  | none => exact closed.pure none
  | some border =>
      refine closed.bind (closed.collect closed.cell border.location) fun cells => ?_
      split
      · exact closed.pure _
      · refine closed.throw _ fun same => ?_
        have letters := congrArg String.toList same
        simp [antecedent] at letters

theorem Closed.table : holds Parse.table :=
  closed.map (closed.collect closed.row none) _

theorem Closed.docStringLine (block : Block) (indent : Nat) :
    holds (Parse.docStringLine block indent) := by
  refine closed.bind closed.peek fun token => closed.bind closed.reader fun reader => ?_
  dsimp only
  split
  · exact closed.map closed.advance _
  · exact closed.pure none

theorem Closed.docString (block : Block) : holds (Parse.docString block) :=
  closed.map (closed.many (closed.docStringLine block _)) _

theorem Closed.argument (line : Nat) : holds (Parse.argument line) := by
  refine closed.bind closed.peek fun token => closed.bind closed.reader fun reader => ?_
  split
  · exact closed.map (closed.docString _) _
  · split
    · exact closed.map closed.table _
    · exact closed.pure none

theorem Closed.tag : holds Parse.tag := by
  refine closed.bind (closed.takeIf .tag) fun token => ?_
  cases token with
  | none => exact closed.pure none
  | some token => exact closed.map (closed.takeIf .eol) _

theorem Closed.tags : holds Parse.tags :=
  closed.many closed.tag

theorem Closed.optionalName : holds Parse.optionalName :=
  closed.map (closed.takeIf .name) _

theorem Closed.featureName : holds Parse.featureName :=
  closed.map (closed.expect .name (by decide)) _

theorem Closed.descriptionLine : holds Parse.descriptionLine :=
  closed.map (closed.takeIf .descriptionLine) _

theorem Closed.heading (keyword : BlockKeyword) {name : Parse Text} (named : holds name) :
    holds (Parse.heading keyword name) := by
  have opens : (TokenKind.block keyword).describe ≠ antecedent := by cases keyword <;> decide
  refine closed.bind (closed.expect _ opens) fun token => closed.bind named fun _ => ?_
  exact closed.map (closed.many closed.descriptionLine) _

theorem Closed.examplesTable : holds Parse.examplesTable := by
  refine closed.bind closed.peek fun token => ?_
  split
  · refine closed.bind closed.table fun table => ?_
    split
    · exact closed.pure table
    · exact closed.throw _ (show "unique column names" ≠ antecedent by decide)
  · exact closed.unexpected token (by decide)

theorem Closed.examples : holds Parse.examples := by
  refine closed.bind closed.kindAfterTags fun kind => ?_
  split
  · refine closed.bind closed.tags fun tags => ?_
    refine closed.bind (closed.heading _ closed.optionalName) fun heading => ?_
    exact closed.map closed.examplesTable _
  · exact closed.pure none

end Parts

section Blocks

variable {holds : ∀ {α : Type}, Parse α → Prop} (closed : Closed @holds)
  (once : ∀ previous, holds (Parse.step previous))

include closed

theorem Closed.step (lacks : ∀ token : Token, holds (Parse.unexpected token antecedent :
    Parse (Option (Step × Option StepKeyword)))) (previous : Option StepKeyword) :
    holds (Parse.step previous) := by
  refine closed.bind (closed.takeIf .step) fun token => ?_
  cases token with
  | none => exact closed.pure none
  | some token =>
      refine closed.bind closed.reader fun reader => ?_
      dsimp only
      split
      · exact lacks token
      · refine closed.bind (closed.expect .name (by decide)) fun name => ?_
        exact closed.map (closed.argument _) _

include once

theorem Closed.steps : holds Parse.steps :=
  closed.collect once none

theorem Closed.background : holds Parse.background := by
  refine closed.bind closed.kindAfterTags fun kind => ?_
  split
  · refine closed.bind closed.peek fun token => ?_
    split
    · exact closed.unexpected token (by decide)
    · refine closed.bind (closed.heading _ closed.optionalName) fun _ => ?_
      exact closed.map (closed.steps once) _
  · exact closed.pure none

theorem Closed.scenario (keyword : BlockKeyword) : holds (Parse.scenario keyword) := by
  refine closed.bind closed.tags fun tags => ?_
  refine closed.bind (closed.heading _ closed.optionalName) fun heading => ?_
  exact closed.map (closed.steps once) _

theorem Closed.definition : holds Parse.definition := by
  refine closed.bind closed.kindAfterTags fun kind => ?_
  split
  · exact closed.map (closed.scenario once _) _
  · refine closed.bind (closed.scenario once _) fun scenario => ?_
    exact closed.map (closed.many closed.examples) _
  · exact closed.pure none

theorem Closed.rule : holds Parse.rule := by
  refine closed.bind closed.kindAfterTags fun kind => ?_
  split
  · refine closed.bind closed.tags fun tags => ?_
    refine closed.bind (closed.heading _ closed.optionalName) fun heading => ?_
    refine closed.bind (closed.background once) fun background => ?_
    exact closed.map (closed.many (closed.definition once)) _
  · exact closed.pure none

theorem Closed.feature : holds Parse.feature := by
  refine closed.bind closed.tags fun tags => ?_
  refine closed.bind (closed.heading _ closed.featureName) fun heading => ?_
  refine closed.bind (closed.background once) fun background => ?_
  refine closed.bind (closed.many (closed.definition once)) fun children => ?_
  refine closed.bind (closed.many (closed.rule once)) fun rules => ?_
  refine closed.bind (closed.expect .eof (by decide)) fun _ => ?_
  exact closed.map closed.reader _

end Blocks

end Parse

end Gherkin
