import Gherkin.Proofs.Change
import Gherkin.Proofs.Movement

/-!
Runs of the grammar on a document and on a changed one.

The grammar asks questions of a cursor and builds a tree from the answers. If two cursors give
answers that differ by a change only, and go on doing so, then the two trees differ by that change,
and the two runs fail together. `Corresponds` lists the questions, and `carries_feature` puts together
what each parser does with the answers. Repetitions may have different amounts of fuel on both sides,
provided that there is enough.
-/

namespace Gherkin

namespace Parse

open Progress (Spends spends_stateless)

variable {α β γ δ : Type} {change : Change} {fails : ParseError → ParseError → Prop}
  {related : Cursor → Cursor → Prop}

/-- Both runs succeed with related values and cursors, or both fail with related errors. -/
def Matches (fails : ParseError → ParseError → Prop) (related : Cursor → Cursor → Prop)
    (tells : α → β → Prop) :
    Except ParseError α × Cursor → Except ParseError β × Cursor → Prop
  | (.ok left, before), (.ok right, after) => tells left right ∧ related before after
  | (.error left, _), (.error right, _) => fails left right
  | _, _ => False

def Carries (fails : ParseError → ParseError → Prop) (related : Cursor → Cursor → Prop)
    (tells : α → β → Prop) (left : Parse α) (right : Parse β) : Prop :=
  ∀ before after, related before after →
    Matches fails related tells (left before) (right after)

/-- On the two sides the grammar gets answers that differ by a change only. -/
structure Corresponds (change : Change) (fails : ParseError → ParseError → Prop)
    (related : Cursor → Cursor → Prop) : Prop where
  grammar : ∀ location expected found, fails (.grammar ⟨location, expected, found⟩)
    (.grammar ⟨change.location location, expected, found⟩)
  peek : Carries fails related (change.Tells fails) peek peek
  consume : ∀ left right, related left right → left.ahead ≠ [] →
    related (consumed left) (consumed right)
  kindAfterTags : Carries fails related (fun left right => right = left) kindAfterTags kindAfterTags
  fuel : ∀ left right, related left right →
    left.limit = right.limit ∨ left.Funded ∧ right.Funded
  dialect : ∀ left right, related left right → right.reader.mode.dialect = left.reader.mode.dialect
  language : ∀ left right, related left right → right.reader.language = left.reader.language
  opened : ∀ left right, related left right → ∀ token other rest more,
    left.ahead = token :: rest → right.ahead = other :: more → ∀ line,
      (right.reader.blockOpenedIn? (change.line line + 1) other.location.line).map (·.toOpening) =
        (left.reader.blockOpenedIn? (line + 1) token.location.line).map
          fun block => change.opening block.toOpening
  closing : ∀ left right, related left right → ∀ token other rest more,
    left.ahead = token :: rest → right.ahead = other :: more → token.kind = .docStringLine →
      ∀ line,
        ((∀ stop ∈ (left.reader.blockAt? line).bind (·.closingLine), token.location.line ≤ stop) ↔
          ∀ stop ∈ (right.reader.blockAt? (change.line line)).bind (·.closingLine),
            other.location.line ≤ stop)
  column : 0 < change.indent → ∀ left right, related left right →
    ∀ block ∈ left.reader.mode.blocks, 0 < block.location.column

/-! Two parsers that run side by side are put together from parts that do. Fuel need not be the same on the
two sides, as long as each has enough. -/

section Combinators

variable {tells : α → β → Prop} {told : γ → δ → Prop}

theorem matches_bind {leftFirst : Parse α} {rightFirst : Parse β} {leftNext : α → Parse γ}
    {rightNext : β → Parse δ} {before after : Cursor}
    (first : Matches fails related tells (leftFirst before) (rightFirst after))
    (next : ∀ left right middle other, leftFirst before = (.ok left, middle) →
      rightFirst after = (.ok right, other) → tells left right → related middle other →
      Matches fails related told (leftNext left middle) (rightNext right other)) :
    Matches fails related told ((leftFirst >>= leftNext) before)
      ((rightFirst >>= rightNext) after) := by
  rw [bind_apply, bind_apply]
  cases here : leftFirst before with
  | mk leftResult middle =>
      cases there : rightFirst after with
      | mk rightResult other =>
          rw [here, there] at first
          cases leftResult with
          | error leftError =>
              cases rightResult with
              | error rightError => exact first
              | ok right => exact first.elim
          | ok left =>
              cases rightResult with
              | error rightError => exact first.elim
              | ok right => exact next left right middle other here there first.1 first.2

theorem carries_bind {leftFirst : Parse α} {rightFirst : Parse β} {leftNext : α → Parse γ}
    {rightNext : β → Parse δ} (first : Carries fails related tells leftFirst rightFirst)
    (next : ∀ left right, tells left right →
      Carries fails related told (leftNext left) (rightNext right)) :
    Carries fails related told (leftFirst >>= leftNext) (rightFirst >>= rightNext) := by
  intro before after kept
  apply matches_bind (first before after kept)
  intro left right middle other _ _ same further
  exact next left right same middle other further

theorem carries_pure {left : α} {right : β} (same : tells left right) :
    Carries fails related tells (pure left) (pure right) :=
  fun _ _ kept => ⟨same, kept⟩

theorem carries_throw {left right : ParseError} (same : fails left right) :
    Carries fails related tells (throw left) (throw right) :=
  fun _ _ _ => same

/-- What an item of a repetition yields and the state it leaves, both changed. -/
theorem matches_collectFrom {left : β → Parse (Option (α × β))} {right : δ → Parse (Option (γ × δ))}
    {value : α → γ} {state : β → δ}
    (once : ∀ start, Carries fails related
      (fun found other => other = found.map (Prod.map value state)) (left start) (right (state start)))
    (leftSpends : ∀ start, Spends (left start)) (rightSpends : ∀ start, Spends (right start))
    (leftFuel rightFuel : Nat) (start : β) (before after : Cursor) (kept : related before after)
    (enough : leftFuel = rightFuel ∨ before.remaining < leftFuel ∧ after.remaining < rightFuel) :
    Matches fails related (fun found other => other = found.map value)
      (collectFrom left leftFuel start before) (collectFrom right rightFuel (state start) after) := by
  induction leftFuel generalizing rightFuel start before after with
  | zero =>
      rcases enough with rfl | ⟨none, _⟩
      · exact ⟨rfl, kept⟩
      · cases none
  | succ leftFuel ih =>
      cases rightFuel with
      | zero =>
          rcases enough with none | ⟨_, none⟩
          · cases none
          · cases none
      | succ rightFuel =>
          rw [collectFrom, collectFrom]
          apply matches_bind (once start before after kept)
          rintro found _ middle other here there rfl further
          cases found with
          | none => exact ⟨rfl, further⟩
          | some pair =>
              -- Each item takes a token, so less fuel is still enough.
              have less := spends_iff.mp (leftSpends start) before pair middle here
              have fewer := spends_iff.mp (rightSpends (state start)) after _ other there
              have still : leftFuel = rightFuel ∨
                  middle.remaining < leftFuel ∧ other.remaining < rightFuel := by omega
              apply matches_bind (ih rightFuel pair.2 middle other further still)
              rintro values _ last final _ _ rfl ended
              exact ⟨rfl, ended⟩

theorem carries_unexpected {left right : Token} (similar : change.Tells fails left right)
    (expected : String) :
    Carries fails related tells (unexpected left expected) (unexpected right expected) := by
  rw [unexpected, unexpected, similar.describe_eq]
  exact carries_throw (similar.unexpected expected left.describe)

end Combinators

def Taken (change : Change) (fails : ParseError → ParseError → Prop) (kind : TokenKind)
    (left right : Token) : Prop :=
  change.Tells fails left right ∧ left.kind = kind

theorem Taken.location_eq {kind : TokenKind} {left right : Token}
    (taken : Taken change fails kind left right) (proper : kind ≠ .eof) :
    right.location = change.location left.location :=
  taken.1.location (taken.2 ▸ proper)

theorem Taken.text_eq {kind : TokenKind} {left right : Token}
    (taken : Taken change fails kind left right) (inner : kind ≠ .eol)
    (plain : kind ≠ .docStringLine) : right.text = left.text :=
  taken.1.text (taken.2 ▸ inner) (taken.2 ▸ plain)

section Grammar

variable (same : Corresponds change fails related)

include same

theorem carries_collect {left : β → Parse (Option (α × β))} {right : δ → Parse (Option (γ × δ))}
    {value : α → γ} (state : β → δ)
    (once : ∀ start, Carries fails related
      (fun found other => other = found.map (Prod.map value state)) (left start) (right (state start)))
    (leftSpends : ∀ start, Spends (left start)) (rightSpends : ∀ start, Spends (right start))
    (start : β) :
    Carries fails related (fun found other => other = found.map value) (collect left start)
      (collect right (state start)) := by
  intro before after kept
  rw [collect_apply, collect_apply]
  apply matches_collectFrom once leftSpends rightSpends _ _ start before after kept
  rcases same.fuel before after kept with equal | ⟨leftFunded, rightFunded⟩
  · exact Or.inl (congrArg (· + 1) equal)
  · exact Or.inr ⟨Nat.lt_succ_of_le leftFunded, Nat.lt_succ_of_le rightFunded⟩

theorem carries_many {left : Parse (Option α)} {right : Parse (Option γ)} {value : α → γ}
    (once : Carries fails related (fun found other => other = found.map value) left right)
    (leftSpends : Spends left) (rightSpends : Spends right) :
    Carries fails related (fun found other => other = found.map value) (many left) (many right) := by
  have each : ∀ start, Carries fails related
      (fun found other => other = found.map (Prod.map value id)) (stateless left start)
      (stateless right start) := by
    intro start
    apply carries_bind once
    rintro found _ rfl
    apply carries_pure
    cases found <;> rfl
  exact carries_collect same id each (spends_stateless leftSpends) (spends_stateless rightSpends) ()

/-- What comes after looking at the next token may rely on that token standing first. -/
theorem matches_peek {told : α → β → Prop} {leftNext : Token → Parse α} {rightNext : Token → Parse β}
    {before after : Cursor} (kept : related before after)
    (next : ∀ token other middle last rest more, middle.ahead = token :: rest →
      last.ahead = other :: more → change.Tells fails token other → related middle last →
      Matches fails related told (leftNext token middle) (rightNext other last)) :
    Matches fails related told ((peek >>= leftNext) before) ((peek >>= rightNext) after) := by
  apply matches_bind (same.peek before after kept)
  intro token other middle last here there tells further
  obtain ⟨rest, ahead⟩ := ahead_of_peek before middle token here
  obtain ⟨more, others⟩ := ahead_of_peek after last other there
  exact next token other middle last rest more ahead others tells further

theorem carries_advance : Carries fails related (change.Tells fails) advance advance := by
  intro before after kept
  apply matches_peek same kept
  intro token other middle last rest more ahead _ tells further
  exact ⟨tells, same.consume middle last further (by simp [ahead])⟩

theorem carries_takeIf (kind : TokenKind) :
    Carries fails related (Option.Rel (Taken change fails kind)) (takeIf kind) (takeIf kind) := by
  intro before after kept
  apply matches_peek same kept
  intro token other middle last rest more ahead others tells further
  by_cases taken : token.kind = kind
  · rw [if_pos taken, if_pos (tells.kind.trans taken), bind_apply, bind_apply, advance_apply,
      advance_apply, peek_cons middle token rest ahead, peek_cons last other more others]
    exact ⟨.some ⟨tells, taken⟩, same.consume middle last further (by simp [ahead])⟩
  · rw [if_neg taken, if_neg (tells.kind ▸ taken)]
    exact ⟨.none, further⟩

theorem carries_expect (kind : TokenKind) (expected : String) :
    Carries fails related (Taken change fails kind) (expect kind expected) (expect kind expected) := by
  apply carries_bind (carries_advance same)
  intro token other tells
  by_cases taken : token.kind = kind
  · rw [if_pos taken, if_pos (tells.kind.trans taken)]
    exact carries_pure ⟨tells, taken⟩
  · rw [if_neg taken, if_neg (tells.kind ▸ taken)]
    exact carries_unexpected tells expected

theorem carries_cell (border : Location) :
    Carries fails related
      (fun found other => other = found.map (Prod.map change.cell change.location)) (cell border)
      (cell (change.location border)) := by
  apply carries_bind (carries_takeIf same .cell)
  intro raw otherRaw raws
  apply carries_bind (carries_advance same)
  intro token other tells
  simp only [tells.kind]
  split
  · rename_i pipe
    have place := tells.location (by simp [pipe])
    apply carries_pure
    rw [place]
    cases raws with
    | none => rfl
    | some taken =>
        have cell := change.ofToken_eq (taken.text_eq nofun nofun) (taken.location_eq nofun)
        simp [cell]
  · exact carries_pure rfl
  · exact carries_unexpected tells _

theorem carries_row (width : Option Nat) :
    Carries fails related (fun found other => other = found.map (Prod.map change.row id)) (row width)
      (row width) := by
  apply carries_bind (carries_takeIf same .pipe)
  intro border other borders
  cases borders with
  | none => exact carries_pure rfl
  | @some border other taken =>
      have place := taken.location_eq nofun
      simp only [place]
      apply carries_bind (carries_collect same change.location (carries_cell same) spends_cell spends_cell
        border.location)
      rintro cells _ rfl
      rw [List.length_map]
      split
      · exact carries_pure rfl
      · exact carries_throw (same.grammar _ _ _)

omit same in
/-- A border that stands ahead begins a row. -/
theorem rows_ne_nil {rows : List TableRow} {cursor after : Cursor} {token : Token} {rest : List Token}
    (ahead : cursor.ahead = token :: rest) (pipe : token.kind = .pipe)
    (run : collect row none cursor = (.ok rows, after)) : rows ≠ [] := by
  rintro rfl
  rw [collect_apply] at run
  have declined := declined_of_collectFrom_nil run
  rw [row, bind_apply, takeIf_apply, peek_cons cursor token rest ahead] at declined
  simp only [pipe, if_true] at declined
  obtain ⟨cells, middle, _, ended⟩ := (bind_eq_ok _ _ _ _ _).mp declined
  split at ended
  · cases ended
  · cases ended

theorem matches_table {before after : Cursor} {token : Token} {rest : List Token}
    (ahead : before.ahead = token :: rest) (pipe : token.kind = .pipe) (kept : related before after) :
    Matches fails related (fun found other => other = change.table found) (table before)
      (table after) := by
  apply matches_bind (carries_collect same id (carries_row same) spends_row spends_row none before
    after kept)
  rintro rows _ middle last run _ rfl further
  obtain ⟨first, others, rfl⟩ := List.exists_cons_of_ne_nil (rows_ne_nil ahead pipe run)
  exact ⟨rfl, further⟩

theorem carries_docStringLine {block other : Block}
    (opens : other.toOpening = change.opening block.toOpening) (indent : Nat) :
    Carries fails related (fun found text => text = found.map change.verbatim)
      (docStringLine block indent) (docStringLine other (indent + change.indent)) := by
  intro before after kept
  apply matches_peek same kept
  intro token told middle last rest more ahead others tells further
  rw [bind_apply, bind_apply, reader_apply, reader_apply]
  have line : other.location.line = change.line block.location.line := by rw [opens]; rfl
  have inside := and_congr_right_iff.mpr fun kind =>
    same.closing middle last further token told rest more ahead others kind block.location.line
  rw [← line] at inside
  simp only [tells.kind]
  by_cases within : token.kind = .docStringLine ∧
      ∀ stop ∈ (middle.reader.blockAt? block.location.line).bind (·.closingLine),
        token.location.line ≤ stop
  · rw [if_pos within, if_pos (inside.mp within), bind_apply, bind_apply, advance_apply,
      advance_apply, peek_cons middle token rest ahead, peek_cons last told more others]
    refine ⟨?_, same.consume middle last further (by simp [ahead])⟩
    exact congrArg some (tells.verbatim within.1 indent)
  · rw [if_neg within, if_neg (mt inside.mpr within)]
    exact ⟨rfl, further⟩

theorem carries_docString {block other : Block}
    (opens : other.toOpening = change.opening block.toOpening)
    (indented : block.location.column - 1 + change.indent = other.location.column - 1) :
    Carries fails related (fun found doc => doc = change.docString found) (docString block)
      (docString other) := by
  have once := carries_docStringLine same opens (block.location.column - 1)
  rw [indented] at once
  apply carries_bind (carries_many same once (spends_docStringLine block _)
    (spends_docStringLine other _))
  rintro lines _ rfl
  apply carries_pure
  rw [← indented, opens]
  rfl

theorem carries_argument (line : Nat) :
    Carries fails related (fun found other => other = found.map change.argument) (argument line)
      (argument (change.line line)) := by
  intro before after kept
  apply matches_peek same kept
  intro token told middle last rest more ahead others tells further
  rw [bind_apply, bind_apply, reader_apply, reader_apply]
  have opened := same.opened middle last further token told rest more ahead others line
  cases here : middle.reader.blockOpenedIn? (line + 1) token.location.line with
  | none =>
      have there : last.reader.blockOpenedIn? (change.line line + 1) told.location.line = none := by
        simpa [here] using opened
      simp only [here, there, tells.kind]
      split
      · rename_i pipe
        apply matches_bind (matches_table same ahead pipe further)
        rintro table _ _ _ _ _ rfl ended
        exact ⟨rfl, ended⟩
      · exact ⟨rfl, further⟩
  | some block =>
      rw [here, Option.map_some] at opened
      obtain ⟨other, there, opens⟩ := Option.map_eq_some_iff.mp opened
      -- The indent counts from the column of the delimiter, so it moves with it.
      have indented : block.location.column - 1 + change.indent = other.location.column - 1 := by
        have column : other.location.column = block.location.column + change.indent := by
          rw [opens]
          rfl
        rcases Nat.eq_zero_or_pos change.indent with none | some
        · omega
        · have positive := same.column some middle last further block
            (List.mem_of_find?_eq_some here)
          omega
      simp only [here, there]
      apply matches_bind (carries_docString same opens indented middle last further)
      rintro doc _ _ _ _ _ rfl ended
      exact ⟨rfl, ended⟩

theorem carries_tag :
    Carries fails related (fun found other => other = found.map change.tag) tag tag := by
  apply carries_bind (carries_takeIf same .tag)
  intro token other tokens
  cases tokens with
  | none => exact carries_pure rfl
  | @some token other taken =>
      apply carries_bind (carries_takeIf same .eol)
      intro _ _ _
      apply carries_pure
      rw [taken.text_eq nofun nofun, taken.location_eq nofun]
      rfl

theorem carries_tags :
    Carries fails related (fun found other => other = found.map change.tag) tags tags :=
  carries_many same (carries_tag same) spends_tag spends_tag

theorem carries_optionalName :
    Carries fails related (fun found other => other = found) optionalName optionalName := by
  apply carries_bind (carries_takeIf same .name)
  intro token other tokens
  apply carries_pure
  cases tokens with
  | none => rfl
  | some taken => simp [taken.text_eq nofun nofun]

theorem carries_featureName :
    Carries fails related (fun found other => other = found) featureName featureName := by
  apply carries_bind (carries_expect same .name _)
  intro token other taken
  exact carries_pure (taken.text_eq nofun nofun)

theorem carries_descriptionLine :
    Carries fails related (fun found other => other = found.map id) descriptionLine
      descriptionLine := by
  apply carries_bind (carries_takeIf same .descriptionLine)
  intro token other tokens
  apply carries_pure
  cases tokens with
  | none => rfl
  | some taken => simp [taken.text_eq nofun nofun]

theorem carries_heading (keyword : BlockKeyword) {name : Parse Text}
    (named : Carries fails related (fun found other => other = found) name name) :
    Carries fails related (fun found other => other = change.heading found) (heading keyword name)
      (heading keyword name) := by
  apply carries_bind (carries_expect same _ _)
  intro token other taken
  apply carries_bind named
  rintro text _ rfl
  apply carries_bind (carries_many same (carries_descriptionLine same) spends_descriptionLine
    spends_descriptionLine)
  rintro description _ rfl
  apply carries_pure
  rw [List.map_id, taken.location_eq nofun, Token.keywordText, taken.text_eq nofun nofun]
  rfl

theorem carries_step (previous : Option StepKeyword) :
    Carries fails related (fun found other => other = found.map (Prod.map change.step id))
      (step previous) (step previous) := by
  apply carries_bind (carries_takeIf same .step)
  intro token other tokens
  cases tokens with
  | none => exact carries_pure rfl
  | @some token other taken =>
      have text := taken.text_eq nofun nofun
      have place := taken.location_eq nofun
      intro before after kept
      simp only
      rw [bind_apply, bind_apply, reader_apply, reader_apply]
      simp only [same.dialect before after kept, text]
      cases (before.reader.mode.dialect.stepKeyword? token.text).bind (·.resolve previous) with
      | none => exact carries_unexpected taken.1 _ before after kept
      | some role =>
          apply carries_bind (carries_expect same .name _) _ before after kept
          intro name otherName named
          have line : other.location.line = change.line token.location.line := by rw [place]; rfl
          rw [line]
          apply carries_bind (carries_argument same token.location.line)
          rintro argument _ rfl
          apply carries_pure
          rw [named.text_eq nofun nofun, place]
          rfl

theorem carries_steps :
    Carries fails related (fun found other => other = found.map change.step) steps steps :=
  carries_collect same id (carries_step same) spends_step spends_step none

theorem carries_background :
    Carries fails related (fun found other => other = found.map change.background) background
      background := by
  apply carries_bind same.kindAfterTags
  rintro kind _ rfl
  split
  · apply carries_bind same.peek
    intro token other tells
    simp only [tells.kind]
    split
    · exact carries_unexpected tells _
    · apply carries_bind (carries_heading same _ (carries_optionalName same))
      rintro heading _ rfl
      apply carries_bind (carries_steps same)
      rintro steps _ rfl
      exact carries_pure rfl
  · exact carries_pure rfl

theorem carries_scenario (keyword : BlockKeyword) :
    Carries fails related (fun found other => other = change.scenario found) (scenario keyword)
      (scenario keyword) := by
  apply carries_bind (carries_tags same)
  rintro tags _ rfl
  apply carries_bind (carries_heading same _ (carries_optionalName same))
  rintro heading _ rfl
  apply carries_bind (carries_steps same)
  rintro steps _ rfl
  exact carries_pure rfl

theorem carries_examplesTable :
    Carries fails related (fun found other => other = change.table found) examplesTable
      examplesTable := by
  intro before after kept
  apply matches_peek same kept
  intro token other middle last rest more ahead _ tells further
  simp only [tells.kind]
  split
  · rename_i pipe
    apply matches_bind (matches_table same ahead pipe further)
    rintro table _ first second _ _ rfl ended
    rw [change.repeated?_table]
    cases table.rows.head?.bind (·.repeated?) with
    | none => exact ⟨rfl, ended⟩
    | some cell => exact same.grammar _ _ _
  · exact carries_unexpected tells _ middle last further

theorem carries_examples :
    Carries fails related (fun found other => other = found.map change.examples) examples
      examples := by
  apply carries_bind same.kindAfterTags
  rintro kind _ rfl
  split
  · apply carries_bind (carries_tags same)
    rintro tags _ rfl
    apply carries_bind (carries_heading same _ (carries_optionalName same))
    rintro heading _ rfl
    apply carries_bind (carries_examplesTable same)
    rintro table _ rfl
    exact carries_pure rfl
  · exact carries_pure rfl

theorem carries_definition :
    Carries fails related (fun found other => other = found.map change.definition) definition
      definition := by
  apply carries_bind same.kindAfterTags
  rintro kind _ rfl
  split
  · apply carries_bind (carries_scenario same _)
    rintro scenario _ rfl
    exact carries_pure rfl
  · apply carries_bind (carries_scenario same _)
    rintro scenario _ rfl
    apply carries_bind (carries_many same (carries_examples same) spends_examples spends_examples)
    rintro examples _ rfl
    exact carries_pure rfl
  · exact carries_pure rfl

theorem carries_rule :
    Carries fails related (fun found other => other = found.map change.rule) rule rule := by
  apply carries_bind same.kindAfterTags
  rintro kind _ rfl
  split
  · apply carries_bind (carries_tags same)
    rintro tags _ rfl
    apply carries_bind (carries_heading same _ (carries_optionalName same))
    rintro heading _ rfl
    apply carries_bind (carries_background same)
    rintro background _ rfl
    apply carries_bind (carries_many same (carries_definition same) spends_definition
      spends_definition)
    rintro children _ rfl
    exact carries_pure rfl
  · exact carries_pure rfl

theorem carries_feature :
    Carries fails related (fun found other => other = change.feature found) feature feature := by
  apply carries_bind (carries_tags same)
  rintro tags _ rfl
  apply carries_bind (carries_heading same _ (carries_featureName same))
  rintro heading _ rfl
  apply carries_bind (carries_background same)
  rintro background _ rfl
  apply carries_bind (carries_many same (carries_definition same) spends_definition
    spends_definition)
  rintro children _ rfl
  apply carries_bind (carries_many same (carries_rule same) spends_rule spends_rule)
  rintro rules _ rfl
  apply carries_bind (carries_expect same _ _)
  intro _ _ _ before after kept
  rw [bind_apply, bind_apply, reader_apply, reader_apply]
  simp only [same.language before after kept]
  exact ⟨rfl, kept⟩

end Grammar

end Parse

end Gherkin
