import Gherkin.Proofs.Correspondence

/-!
Runs of the grammar that cannot be told apart.

A relation between cursors is faithful if the questions the grammar asks of a cursor have the same
answers on both sides and lead to related cursors again. `agree_feature` says that the grammar as a
whole then gives the same result on both sides. The answers differ by the change that changes
nothing, so this is a case of the comparison of documents that differ by any change. Nothing else is
assumed of the relation, and so it serves every comparison of cursors and, with equal cursors on both
sides, every invariant of a single run.
-/

namespace Gherkin

namespace Change

def identity : Change where
  line := id
  indent := 0
  verbatim := id

@[simp]
theorem location_identity : identity.location = id :=
  rfl

@[simp]
theorem tag_identity : identity.tag = id :=
  rfl

@[simp]
theorem heading_identity : identity.heading = id :=
  rfl

@[simp]
theorem row_identity : identity.row = id := by
  have cell : identity.cell = id := rfl
  funext row
  simp [Change.row, cell]

@[simp]
theorem table_identity : identity.table = id := by
  funext table
  simp [Change.table]

@[simp]
theorem argument_identity : identity.argument = id := by
  have verbatim : identity.verbatim = id := rfl
  have indent : identity.indent = 0 := rfl
  funext argument
  cases argument <;> simp [Change.argument, docString, verbatim, indent]

@[simp]
theorem step_identity : identity.step = id := by
  funext step
  simp [Change.step]

@[simp]
theorem background_identity : identity.background = id := by
  funext background
  simp [Change.background]

@[simp]
theorem scenario_identity : identity.scenario = id := by
  funext scenario
  simp [Change.scenario]

@[simp]
theorem definition_identity : identity.definition = id := by
  have examples : identity.examples = id := by
    funext examples
    simp [Change.examples]
  funext definition
  cases definition <;> simp [Change.definition, Change.outline, examples]

@[simp]
theorem rule_identity : identity.rule = id := by
  funext rule
  simp [Change.rule]

@[simp]
theorem feature_identity : identity.feature = id := by
  funext feature
  simp [Change.feature]

end Change

namespace Parse

variable {α : Type} {related : Cursor → Cursor → Prop} {allowed : ParseError → Prop}

/-- Equal results. Cursors matter after a success only. -/
def Same (related : Cursor → Cursor → Prop) (allowed : ParseError → Prop) :
    Except ParseError α × Cursor → Except ParseError α × Cursor → Prop
  | (.ok left, before), (.ok right, after) => left = right ∧ related before after
  | (.error left, _), (.error right, _) => left = right ∧ allowed left
  | _, _ => False

theorem Same.result_eq {left right : Except ParseError α × Cursor}
    (same : Same related allowed left right) : left.1 = right.1 := by
  obtain ⟨_ | value, before⟩ := left <;> obtain ⟨_ | other, after⟩ := right
  · exact congrArg Except.error same.1
  · exact same.elim
  · exact same.elim
  · exact congrArg Except.ok same.1

theorem Same.allowed_of_error {left right : Except ParseError α × Cursor}
    (same : Same related allowed left right) (error : ParseError) (failed : left.1 = .error error) :
    allowed error := by
  obtain ⟨_ | value, before⟩ := left <;> obtain ⟨_ | other, after⟩ := right
  · cases failed
    exact same.2
  · exact same.elim
  · cases failed
  · cases failed

def Agree (related : Cursor → Cursor → Prop) (allowed : ParseError → Prop) (parser : Parse α) :
    Prop :=
  ∀ left right, related left right → Same related allowed (parser left) (parser right)

/-- The two sides answer alike whatever the grammar asks. -/
structure Faithful (related : Cursor → Cursor → Prop) (allowed : ParseError → Prop) : Prop where
  grammar : ∀ error, allowed (.grammar error)
  peek : Agree related allowed peek
  consume : ∀ left right, related left right → left.ahead ≠ [] →
    related (consumed left) (consumed right)
  kindAfterTags : Agree related allowed kindAfterTags
  limit : ∀ left right, related left right → left.limit = right.limit
  dialect : ∀ left right, related left right → left.reader.mode.dialect = right.reader.mode.dialect
  language : ∀ left right, related left right → left.reader.language = right.reader.language
  opened : ∀ left right, related left right → ∀ token rest, left.ahead = token :: rest → ∀ first,
    (left.reader.blockOpenedIn? first token.location.line).map (·.toOpening) =
      (right.reader.blockOpenedIn? first token.location.line).map (·.toOpening)
  closing : ∀ left right, related left right → ∀ token rest, left.ahead = token :: rest →
    token.kind = .docStringLine → ∀ line,
      ((∀ stop ∈ (left.reader.blockAt? line).bind (·.closingLine), token.location.line ≤ stop) ↔
        ∀ stop ∈ (right.reader.blockAt? line).bind (·.closingLine), token.location.line ≤ stop)

/-! Agreement is correspondence under the change that changes nothing, so what is known of corresponding
parsers carries over. -/

def Fails (allowed : ParseError → Prop) (left right : ParseError) : Prop :=
  left = right ∧ allowed left

theorem Agree.carries {parser : Parse α} (agree : Agree related allowed parser)
    {tells : α → α → Prop} (reflexive : ∀ value, tells value value) :
    Carries (Fails allowed) related tells parser parser := by
  intro left right kept
  have same := agree left right kept
  generalize parser left = before at same ⊢
  generalize parser right = after at same ⊢
  match before, after with
  | (.ok value, _), (.ok other, _) => exact ⟨same.1 ▸ reflexive value, same.2⟩
  | (.ok value, _), (.error error, _) => exact same.elim
  | (.error error, _), (.ok value, _) => exact same.elim
  | (.error error, _), (.error other, _) => exact same

theorem agree_of_carries {parser : Parse α} {changed : α → α}
    (carries : Carries (Fails allowed) related (fun found other => other = changed found) parser
      parser) (unchanged : changed = id) : Agree related allowed parser := by
  intro left right kept
  have same := carries left right kept
  generalize parser left = before at same ⊢
  generalize parser right = after at same ⊢
  match before, after with
  | (.ok value, _), (.ok other, _) =>
      obtain ⟨rfl, further⟩ := same
      exact ⟨by rw [unchanged, id_eq], further⟩
  | (.ok value, _), (.error error, _) => exact same.elim
  | (.error error, _), (.ok value, _) => exact same.elim
  | (.error error, _), (.error other, _) => exact same

section Grammar

variable (faithful : Faithful related allowed)

include faithful

theorem tells_identity (token : Token) : Change.identity.Tells (Fails allowed) token token where
  kind := rfl
  line := rfl
  location _ := rfl
  text _ _ := rfl
  verbatim _ _ := rfl
  unexpected _ _ := ⟨rfl, faithful.grammar _⟩

/-- The token in front is the same on both sides. -/
theorem head_eq {left right : Cursor} (kept : related left right) {token other : Token}
    {rest more : List Token} (ahead : left.ahead = token :: rest)
    (others : right.ahead = other :: more) : other = token := by
  have same := faithful.peek left right kept
  rw [peek_cons left token rest ahead, peek_cons right other more others] at same
  exact same.1.symm

theorem corresponds_identity : Corresponds Change.identity (Fails allowed) related where
  grammar _ _ _ := ⟨rfl, faithful.grammar _⟩
  peek := faithful.peek.carries (tells_identity faithful)
  consume := faithful.consume
  kindAfterTags := faithful.kindAfterTags.carries fun _ => rfl
  fuel left right kept := Or.inl (faithful.limit left right kept)
  dialect left right kept := (faithful.dialect left right kept).symm
  language left right kept := (faithful.language left right kept).symm
  opened left right kept token other rest more ahead others line := by
    rw [head_eq faithful kept ahead others]
    exact (faithful.opened left right kept token rest ahead (line + 1)).symm
  closing left right kept token other rest more ahead others verbatim line := by
    rw [head_eq faithful kept ahead others]
    exact faithful.closing left right kept token rest ahead verbatim line
  column indented := absurd indented (Nat.lt_irrefl 0)

theorem agree_tags : Agree related allowed tags :=
  agree_of_carries (carries_tags (corresponds_identity faithful)) (by simp)

theorem agree_featureHeading : Agree related allowed (heading .feature featureName) := by
  have same := corresponds_identity faithful
  exact agree_of_carries (carries_heading same .feature (carries_featureName same)) (by simp)

theorem agree_background : Agree related allowed background :=
  agree_of_carries (carries_background (corresponds_identity faithful)) (by simp)

theorem agree_definitions : Agree related allowed (many definition) := by
  have same := corresponds_identity faithful
  have each := carries_many same (carries_definition same) spends_definition spends_definition
  exact agree_of_carries each (by simp)

theorem agree_rules : Agree related allowed (many rule) := by
  have same := corresponds_identity faithful
  exact agree_of_carries (carries_many same (carries_rule same) spends_rule spends_rule) (by simp)

theorem agree_feature : Agree related allowed feature :=
  agree_of_carries (carries_feature (corresponds_identity faithful)) (by simp)

end Grammar

def Keeping (property : Cursor → Prop) (left right : Cursor) : Prop :=
  left = right ∧ property left

theorem Agree.ok_of_keeping {property : Cursor → Prop} {parser : Parse α}
    (agree : Agree (Keeping property) allowed parser) (cursor after : Cursor) (value : α)
    (holds : property cursor) (run : parser cursor = (.ok value, after)) : property after := by
  have same := agree cursor cursor ⟨rfl, holds⟩
  rw [run] at same
  exact same.2.2

theorem Agree.error_of_keeping {property : Cursor → Prop} {parser : Parse α}
    (agree : Agree (Keeping property) allowed parser) (cursor after : Cursor) (error : ParseError)
    (holds : property cursor) (run : parser cursor = (.error error, after)) : allowed error := by
  have same := agree cursor cursor ⟨rfl, holds⟩
  rw [run] at same
  exact same.2

end Parse

end Gherkin
