import Gherkin.Proofs.Soundness

/-!
What is derived is accepted.

A derivation stops where it likes, a parser where it has to, so each parser is complete up to what
may follow it. Inside blocks that is told by the kind of the next token; between blocks by the
first token after any tag lines. Both are known from the derivation of what follows. With what is
accepted being derived, the grammar and the parser are the same, except that a step cannot tell
which of several empty doc strings is its own. What a step takes is therefore left open: a grammar
`Decides` a document if it derives no argument but the one the parser takes.
-/

namespace Gherkin

namespace TokenKind

def beyondSteps : TokenKind → Bool
  | tag | block _ | eof => true
  | _ => false

def beyondStep : TokenKind → Bool
  | step => true
  | kind => kind.beyondSteps

def beyondHeading : TokenKind → Bool
  | pipe => true
  | kind => kind.beyondStep

end TokenKind

def Starts (kinds : TokenKind → Bool) (tokens : List Token) : Prop :=
  ∃ token rest, tokens = token :: rest ∧ kinds token.kind = true

theorem Starts.imp {kinds others : TokenKind → Bool} {tokens : List Token}
    (starts : Starts kinds tokens) (weaker : ∀ kind, kinds kind = true → others kind = true) :
    Starts others tokens := by
  obtain ⟨token, rest, same, kind⟩ := starts
  exact ⟨token, rest, same, weaker token.kind kind⟩

theorem Starts.beyondStep {tokens : List Token} (starts : Starts TokenKind.beyondSteps tokens) :
    Starts TokenKind.beyondStep tokens := by
  apply starts.imp
  intro kind beyond
  cases kind <;> first | rfl | exact beyond

theorem Starts.beyondHeading {tokens : List Token} (starts : Starts TokenKind.beyondStep tokens) :
    Starts TokenKind.beyondHeading tokens := by
  apply starts.imp
  intro kind beyond
  cases kind <;> first | rfl | exact beyond

theorem Starts.ne {kinds : TokenKind → Bool} {kind : TokenKind} {tokens : List Token}
    (starts : Starts kinds tokens) (other : kinds kind = false) :
    Starts (fun found => found ≠ kind) tokens := by
  apply starts.imp
  intro found held
  apply decide_eq_true
  rintro rfl
  rw [other] at held
  cases held

theorem Starts.nonempty {kinds : TokenKind → Bool} {tokens : List Token}
    (starts : Starts kinds tokens) : tokens ≠ [] := by
  obtain ⟨token, rest, rfl, _⟩ := starts
  exact List.cons_ne_nil token rest

section Tags

variable {tokens rest : List Token}

theorem DerivesTagLine.starts {tags : List Tag} (derived : DerivesTagLine tokens tags rest) :
    ∃ token more, tokens = token :: more ∧ token.kind = .tag := by
  cases derived with
  | last opens _ => exact ⟨_, _, rfl, opens⟩
  | more opens _ => exact ⟨_, _, rfl, opens⟩

/-- Tag lines are skipped when the next keyword is looked for. -/
theorem DerivesTagLine.find? {tags : List Tag} (derived : DerivesTagLine tokens tags rest) :
    tokens.find? (fun token => !Parse.inTags token) =
      rest.find? (fun token => !Parse.inTags token) := by
  induction derived with
  | last opens ends => simp [Parse.inTags, opens, ends]
  | more opens _ ih => rw [List.find?_cons_of_neg (by simp [Parse.inTags, opens]), ih]

theorem DerivesTagLine.length_le {tags : List Tag} (derived : DerivesTagLine tokens tags rest) :
    tags.length + rest.length ≤ tokens.length := by
  induction derived with
  | last => simp only [List.length_cons, List.length_nil]; omega
  | more _ _ ih => simp only [List.length_cons]; omega

theorem DerivesTags.length_le {tags : List Tag} (derived : DerivesTags tokens tags rest) :
    tags.length + rest.length ≤ tokens.length := by
  obtain ⟨lined⟩ := derived
  induction lined with
  | nil => simp
  | cons line _ ih =>
      have first := line.length_le
      rw [List.flatten_cons, List.length_append]
      omega

/-- Tag lines, if any, and then a token of the given kind. -/
def Announces (kind : TokenKind) (tokens : List Token) : Prop :=
  ∃ tags token rest, DerivesTags tokens tags (token :: rest) ∧ token.kind = kind

theorem Announces.find? {kind : TokenKind} (announces : Announces kind tokens)
    (keyword : kind ≠ .tag ∧ kind ≠ .eol) :
    ∃ token, tokens.find? (fun token => !Parse.inTags token) = some token ∧ token.kind = kind := by
  obtain ⟨tags, token, rest, ⟨lined⟩, same⟩ := announces
  refine ⟨token, ?_, same⟩
  generalize rest' : token :: rest = left at lined
  induction lined with
  | nil =>
      subst rest'
      simp [Parse.inTags, same, keyword]
  | cons line _ ih => rw [line.find?, ih rest']

theorem Announces.starts {kind : TokenKind} (announces : Announces kind tokens) :
    ∃ token rest, tokens = token :: rest ∧ (token.kind = .tag ∨ token.kind = kind) := by
  obtain ⟨tags, token, rest, ⟨lined⟩, same⟩ := announces
  cases lined with
  | nil => exact ⟨token, rest, rfl, Or.inr same⟩
  | cons line _ =>
      obtain ⟨first, more, split, opens⟩ := line.starts
      exact ⟨first, more, split, Or.inl opens⟩

theorem DerivesTags.announces {tags : List Tag} {keyword : BlockKeyword} {name : Production Text}
    {heading : Heading} {start : List Token} (tagged : DerivesTags tokens tags start)
    (headed : DerivesHeading keyword name start heading rest) : Announces (.block keyword) tokens := by
  cases headed with
  | intro opens _ _ => exact ⟨tags, _, _, tagged, opens⟩

end Tags

theorem DerivesTable.starts {tokens rest : List Token} {table : DataTable}
    (derived : DerivesTable tokens table rest) :
    ∃ pipe more, tokens = pipe :: more ∧ pipe.kind = .pipe := by
  cases derived with
  | intro filled _ =>
      cases filled with
      | cons first _ =>
          cases first with
          | intro opens _ => exact ⟨_, _, rfl, opens⟩

theorem DerivesHeading.starts {keyword : BlockKeyword} {name : Production Text} {heading : Heading}
    {tokens rest : List Token} (derived : DerivesHeading keyword name tokens heading rest) :
    ∃ token more, tokens = token :: more ∧ token.kind = .block keyword := by
  cases derived with
  | intro opens _ _ => exact ⟨_, _, rfl, opens⟩

theorem Grammar.DerivesSteps.starts {grammar : Grammar} {earlier : List StepKeyword}
    {steps : List Step} {tokens rest : List Token}
    (derived : grammar.DerivesSteps earlier tokens steps rest)
    (follows : Starts TokenKind.beyondSteps rest) : Starts TokenKind.beyondStep tokens := by
  cases derived with
  | nil => exact follows.beyondStep
  | cons opens => exact ⟨_, _, rfl, by rw [opens]; rfl⟩

def Follows (kinds : List TokenKind) (tokens : List Token) : Prop :=
  ∃ kind ∈ kinds, Announces kind tokens

theorem Follows.mono {kinds others : List TokenKind} {tokens : List Token}
    (follows : Follows kinds tokens) (weaker : kinds ⊆ others) : Follows others tokens := by
  obtain ⟨kind, member, announces⟩ := follows
  exact ⟨kind, weaker member, announces⟩

namespace TokenKind

def afterRules : List TokenKind :=
  [.eof]

def afterDefinitions : List TokenKind :=
  .block .rule :: afterRules

def afterBackground : List TokenKind :=
  .block .scenario :: .block .scenarioOutline :: afterDefinitions

def afterScenario : List TokenKind :=
  .block .examples :: afterBackground

end TokenKind

/-- What may stand in front of something repeated may stand in front of what follows it. -/
theorem Many.follows {α : Type} {item : Production α} {follow : List Token → Prop}
    {tokens rest : List Token} {values : List α}
    (opens : ∀ {tokens value rest}, item tokens value rest → follow tokens)
    (derived : Many item tokens values rest) (final : follow rest) : follow tokens := by
  cases derived with
  | nil => exact final
  | cons first _ => exact opens first

namespace Grammar

variable {grammar : Grammar} {tokens rest : List Token}

theorem DerivesExamples.follows {examples : Examples}
    (derived : DerivesExamples tokens examples rest) : Follows TokenKind.afterScenario tokens := by
  cases derived with
  | intro tagged headed _ _ => exact ⟨_, List.mem_cons_self, tagged.announces headed⟩

theorem DerivesScenario.announces {keyword : BlockKeyword} {scenario : Scenario}
    (derived : grammar.DerivesScenario keyword tokens scenario rest) :
    Announces (.block keyword) tokens := by
  cases derived with
  | intro tagged headed _ => exact tagged.announces headed

theorem DerivesDefinition.follows {definition : Definition}
    (derived : grammar.DerivesDefinition tokens definition rest) :
    Follows TokenKind.afterBackground tokens := by
  cases derived with
  | scenario here => exact ⟨_, List.mem_cons_self, here.announces⟩
  | outline here _ => exact ⟨_, List.mem_cons_of_mem _ List.mem_cons_self, here.announces⟩

theorem DerivesRule.follows {rule : Rule} (derived : grammar.DerivesRule tokens rule rest) :
    Follows TokenKind.afterDefinitions tokens := by
  cases derived with
  | intro tagged headed _ _ => exact ⟨_, List.mem_cons_self, tagged.announces headed⟩

end Grammar

open TokenKind in
theorem Follows.beyondSteps {tokens : List Token} (follows : Follows afterScenario tokens) :
    Starts TokenKind.beyondSteps tokens := by
  obtain ⟨kind, member, announces⟩ := follows
  obtain ⟨token, rest, rfl, opens | opens⟩ := announces.starts
  · exact ⟨token, rest, rfl, by rw [opens]; rfl⟩
  · refine ⟨token, rest, rfl, ?_⟩
    rw [opens]
    revert member
    simp only [afterScenario, afterBackground, afterDefinitions, afterRules, List.mem_cons,
      List.not_mem_nil, or_false]
    rintro (rfl | rfl | rfl | rfl | rfl) <;> rfl

namespace Transcript

variable {α : Type} {script : Transcript} {tokens rest : List Token}

/-! A repetition goes on while its item can begin. What follows it must not look like one more item, and the
productions say so by the kinds that can come next. -/

/-- A repetition takes all items of a derivation. `follow` holds where an item may end, and `last`
where the next one declines. -/
theorem many_of_derives {item : Parse (Option α)} {production : Production α}
    (follow last : List Token → Prop) {values : List α}
    (takes : ∀ tokens value rest, script.Remains tokens → production tokens value rest →
      follow rest → item (script.cursor tokens) = (.ok (some value), script.cursor rest))
    (declines : ∀ tokens, script.Remains tokens → last tokens →
      item (script.cursor tokens) = (.ok none, script.cursor tokens))
    (opens : ∀ tokens value rest, production tokens value rest → follow tokens)
    (ends : ∀ tokens, last tokens → follow tokens)
    (suffix : ∀ {tokens value rest}, production tokens value rest →
      rest <:+ tokens ∧ rest.length < tokens.length)
    (nonempty : ∀ tokens, follow tokens → tokens ≠ []) (remains : script.Remains tokens)
    (derived : Many production tokens values rest) (final : last rest) :
    Parse.many item (script.cursor tokens) = (.ok values, script.cursor rest) := by
  have repeats : Parse.Repeats (stateless item) () (script.cursor tokens) values
      (script.cursor rest) := by
    induction derived with
    | nil => exact .stop ((Parse.stateless_eq_ok _ _ _ _ _).mpr (declines _ remains final))
    | @cons tokens middle rest value values first others ih =>
        have follows : follow middle := by
          cases others with
          | nil => exact ends middle final
          | cons next _ => exact opens middle _ _ next
        refine .next ((Parse.stateless_eq_ok _ _ (some (value, ())) _ _).mpr ?_)
          (ih (remains.of_suffix (suffix first).1 (nonempty middle follows)) final)
        exact takes tokens value middle remains first follows
  have bound := derived.length_le fun here => (suffix here).2
  have left := List.length_pos_iff.mpr (nonempty rest (ends rest final))
  have enough := remains.length_le
  rw [Parse.many_apply]
  exact Parse.collectFrom_of_repeats repeats _ (by simp only [cursor]; omega)

theorem tag_cursor {tag next : Token} {more : List Token} (opens : tag.kind = .tag) :
    Parse.tag (script.cursor (tag :: next :: more)) =
      (.ok (some ⟨tag.text, tag.location⟩),
        script.cursor (if next.kind = .eol then more else next :: more)) := by
  rw [Parse.tag, Parse.bind_apply, takeIf_cursor, if_pos opens]
  simp only
  rw [Parse.bind_apply, takeIf_cursor]
  by_cases ends : next.kind = .eol
  · rw [if_pos ends, if_pos ends]
    rfl
  · rw [if_neg ends, if_neg ends]
    rfl

/-- The tags of a line come before those of the lines behind it. -/
theorem repeats_of_tagLine {middle : List Token} {line tags : List Tag} {after : Cursor}
    (derived : DerivesTagLine tokens line middle)
    (others : Parse.Repeats (stateless Parse.tag) () (script.cursor middle) tags after) :
    Parse.Repeats (stateless Parse.tag) () (script.cursor tokens) (line ++ tags) after := by
  induction derived with
  | last opens ends =>
      refine .next ((Parse.stateless_eq_ok _ _ (some (_, ())) _ _).mpr ?_) others
      rw [tag_cursor opens, if_pos ends]
      rfl
  | more opens further ih =>
      obtain ⟨next, more, rfl, kind⟩ := further.starts
      refine .next ((Parse.stateless_eq_ok _ _ (some (_, ())) _ _).mpr ?_) (ih others)
      rw [tag_cursor opens, if_neg (by simp [kind])]
      rfl

theorem tags_of_derives {tags : List Tag} {token : Token} (remains : script.Remains tokens)
    (derived : DerivesTags tokens tags (token :: rest)) (other : token.kind ≠ .tag) :
    Parse.tags (script.cursor tokens) = (.ok tags, script.cursor (token :: rest)) := by
  have bound := derived.length_le
  have enough := remains.length_le
  obtain ⟨lined⟩ := derived
  have repeats : ∀ {tokens lines left}, Many DerivesTagLine tokens lines left →
      left = token :: rest →
      Parse.Repeats (stateless Parse.tag) () (script.cursor tokens) lines.flatten
        (script.cursor (token :: rest)) := by
    intro tokens lines left lined same
    induction lined with
    | nil =>
        subst same
        refine .stop ((Parse.stateless_eq_ok _ _ _ _ _).mpr ?_)
        rw [Parse.tag, Parse.bind_apply, takeIf_cursor, if_neg other]
        rfl
    | cons line _ ih => exact repeats_of_tagLine line (ih same)
  rw [Parse.tags, Parse.many_apply]
  apply Parse.collectFrom_of_repeats (repeats lined rfl) _
  simp only [cursor, List.length_cons] at bound ⊢
  omega

/-- A name that need not be there is taken if it is. -/
theorem optionalName_of_derives {text : Text} (derived : DerivesOptionalName tokens text rest)
    (follows : Starts (fun kind => kind ≠ .name) rest) :
    Parse.optionalName (script.cursor tokens) = (.ok text, script.cursor rest) := by
  cases derived with
  | absent =>
      obtain ⟨token, more, rfl, other⟩ := follows
      rw [Parse.optionalName, Parse.bind_apply, takeIf_cursor, if_neg (by simpa using other)]
      rfl
  | present here =>
      cases here with
      | intro opens =>
          rw [Parse.optionalName, Parse.bind_apply, takeIf_cursor, if_pos opens]
          rfl

theorem featureName_of_derives {text : Text} (derived : DerivesName tokens text rest)
    (_ : Starts (fun kind => kind ≠ .name) rest) :
    Parse.featureName (script.cursor tokens) = (.ok text, script.cursor rest) := by
  cases derived with
  | intro opens =>
      rw [Parse.featureName, Parse.bind_apply, expect_cursor, if_pos opens]
      rfl

theorem description_of_derives {lines : List Text} (remains : script.Remains tokens)
    (derived : Many DerivesDescriptionLine tokens lines rest)
    (follows : Starts TokenKind.beyondHeading rest) :
    Parse.many Parse.descriptionLine (script.cursor tokens) = (.ok lines, script.cursor rest) := by
  refine many_of_derives (fun tokens => tokens ≠ []) (Starts TokenKind.beyondHeading) ?_ ?_ ?_ ?_ ?_
    (fun _ => id) remains derived follows
  · intro tokens text rest _ here _
    cases here with
    | intro opens =>
        rw [Parse.descriptionLine, Parse.bind_apply, takeIf_cursor, if_pos opens]
        rfl
  · rintro tokens _ ⟨token, more, rfl, beyond⟩
    rw [Parse.descriptionLine, Parse.bind_apply, takeIf_cursor, if_neg]
    · rfl
    · intro opens
      rw [opens] at beyond
      cases beyond
  · rintro tokens text rest ⟨_⟩
    exact List.cons_ne_nil _ _
  · exact fun tokens starts => starts.nonempty
  · intro tokens text rest here
    refine ⟨here.passes.suffix, ?_⟩
    cases here
    exact Nat.lt_succ_self _

theorem heading_of_derives {keyword : BlockKeyword} {name : Parse Text}
    {production : Production Text} {heading : Heading}
    (named : ∀ {tokens text rest}, production tokens text rest →
      Starts (fun kind => kind ≠ .name) rest →
        name (script.cursor tokens) = (.ok text, script.cursor rest))
    (suffix : ∀ {tokens text rest}, production tokens text rest → rest <:+ tokens)
    (remains : script.Remains tokens) (derived : DerivesHeading keyword production tokens heading rest)
    (follows : Starts TokenKind.beyondHeading rest) :
    Parse.heading keyword name (script.cursor tokens) = (.ok heading, script.cursor rest) := by
  cases derived with
  | @intro token tokens middle rest text lines opens here described =>
      have further := remains.tail (by simp [opens])
      have proper : Starts (fun kind => kind ≠ .name) middle := by
        cases described with
        | nil => exact follows.ne rfl
        | cons first _ =>
            cases first with
            | intro opens => exact ⟨_, _, rfl, by simp [opens]⟩
      have left : script.Remains middle := further.of_suffix (suffix here) proper.nonempty
      rw [Parse.heading, Parse.bind_apply, expect_cursor, if_pos opens]
      simp only
      rw [Parse.bind_apply, named here proper]
      simp only
      rw [Parse.bind_apply, description_of_derives left described follows]
      rfl

theorem cell_of_takes {border : Location} {found : Option (TableCell × Location)}
    (taken : TakesCell border tokens found rest) :
    Parse.cell border (script.cursor tokens) = (.ok found, script.cursor rest) := by
  rw [Parse.cell_apply, Parse.bind_apply]
  cases taken with
  | ending ends =>
      rw [takeIf_cursor, if_neg (by simp [ends])]
      simp only
      rw [Parse.bind_apply, advance_cursor]
      simp only [ends, reduceCtorEq, ↓reduceIte]
  | empty closes =>
      rw [takeIf_cursor, if_neg (by simp [closes])]
      simp only
      rw [Parse.bind_apply, advance_cursor]
      simp only [closes, ↓reduceIte]
      rfl
  | filled opens closes =>
      rw [takeIf_cursor, if_pos opens]
      simp only
      rw [Parse.bind_apply, advance_cursor]
      simp only [closes, ↓reduceIte]
      rfl

theorem repeats_of_cells {border : Location} {cells : List TableCell}
    (derived : DerivesCells border tokens cells rest) :
    Parse.Repeats Parse.cell border (script.cursor tokens) cells (script.cursor rest) ∧
      cells.length + rest.length < tokens.length := by
  induction derived with
  | ending ends => exact ⟨.stop (cell_of_takes (.ending ends)), by simp⟩
  | empty closes _ ih =>
      refine ⟨.next (cell_of_takes (.empty closes)) ih.1, ?_⟩
      simp only [List.length_cons]
      omega
  | filled opens closes _ ih =>
      refine ⟨.next (cell_of_takes (.filled opens closes)) ih.1, ?_⟩
      simp only [List.length_cons]
      omega

theorem row_of_derives {width : Option Nat} {row : TableRow} (remains : script.Remains tokens)
    (derived : DerivesRow tokens row rest) (fits : width.getD row.cells.length = row.cells.length) :
    Parse.row width (script.cursor tokens) =
      (.ok (some (row, some row.cells.length)), script.cursor rest) := by
  cases derived with
  | intro opens filled =>
      obtain ⟨repeats, bound⟩ :
          Parse.Repeats Parse.cell _ (script.cursor _) _ (script.cursor _) ∧ _ :=
        repeats_of_cells filled
      have enough := remains.length_le
      simp only [List.length_cons] at enough
      rw [Parse.row, Parse.bind_apply, takeIf_cursor, if_pos opens]
      simp only
      rw [Parse.bind_apply, Parse.collect_apply,
        Parse.collectFrom_of_repeats repeats _ (by simp only [cursor]; omega)]
      simp only at fits ⊢
      rw [if_pos fits]
      rfl

theorem repeats_of_rows {width : Option Nat} {rows : List TableRow} (remains : script.Remains tokens)
    (derived : Many DerivesRow tokens rows rest) (even : Even width rows)
    (follows : Starts (fun kind => kind ≠ .pipe) rest) :
    Parse.Repeats Parse.row width (script.cursor tokens) rows (script.cursor rest) := by
  induction derived generalizing width with
  | nil =>
      obtain ⟨token, more, rfl, other⟩ := follows
      refine .stop ?_
      rw [Parse.row, Parse.bind_apply, takeIf_cursor, if_neg (by simpa using other)]
      rfl
  | @cons tokens middle rest row rows first others ih =>
      obtain ⟨fits, even⟩ := even_cons.mp even
      have left : middle ≠ [] := by
        cases others with
        | nil => exact follows.nonempty
        | cons next _ =>
            cases next
            exact List.cons_ne_nil _ _
      exact .next (row_of_derives remains first fits)
        (ih (remains.of_suffix first.passes.suffix left) even follows)

theorem table_of_derives {table : DataTable} (remains : script.Remains tokens)
    (derived : DerivesTable tokens table rest) (follows : Starts (fun kind => kind ≠ .pipe) rest) :
    Parse.table (script.cursor tokens) = (.ok table, script.cursor rest) := by
  cases derived with
  | @intro tokens rest row rows filled even =>
      have even : Even none (row :: rows) :=
        ⟨row.cells.length, by simp, List.forall_mem_cons.mpr ⟨rfl, even⟩⟩
      have bound := filled.length_le DerivesRow.length_lt
      have left := List.length_pos_iff.mpr follows.nonempty
      have enough := remains.length_le
      rw [Parse.table, Parse.bind_apply, Parse.collect_apply,
        Parse.collectFrom_of_repeats (repeats_of_rows remains filled even follows) _
          (by simp only [cursor]; omega)]
      rfl

/-- A block has its lines only once. -/
theorem derivesDocString_unique {block : Block} {doc other : DocString} {left right : List Token}
    (first : DerivesDocString block tokens doc left)
    (second : DerivesDocString block tokens other right) : doc = other ∧ left = right := by
  obtain ⟨lines, split, _, whole, rfl⟩ := first.lines
  obtain ⟨others, joined, _, again, rfl⟩ := second.lines
  have count := congrArg List.length (whole.trans again.symm)
  rw [List.length_map, List.length_map] at count
  obtain ⟨rfl, rfl⟩ := List.append_inj (split.symm.trans joined) count
  exact ⟨rfl, rfl⟩

section Filled

variable (filled : ∀ block ∈ script.blocks, block.Filled)

include filled

/-- Where a block opens between a token and the next one, that one is the first line of it. -/
theorem next_of_opened {name next : Token} {more : List Token} {block : Block}
    (remains : script.Remains (name :: next :: more)) (known : block ∈ script.blocks)
    (after : name.location.line < block.location.line)
    (before : block.location.line < next.location.line) :
    next.kind = .docStringLine ∧ next.location.line = block.location.line + 1 := by
  obtain ⟨front, split⟩ := remains.suffix
  exact (script.layout.next_line split.symm known (Nat.lt_succ_self _) (Nat.lt_succ_of_lt after)
    before).1 (filled block known)

theorem openedAfter_eq_none {name : Token} (remains : script.Remains (name :: tokens))
    (other : ∀ token ∈ tokens.head?, token.kind ≠ .docStringLine) :
    openedAfter script.blocks name tokens = none := by
  cases found : openedAfter script.blocks name tokens with
  | none => rfl
  | some block =>
      obtain ⟨next, more, rfl, known, after, before⟩ := openedAfter_eq_some found
      exact absurd (next_of_opened filled remains known after before).1 (other next rfl)

/-- The lines that follow a step belong to the block that opens between the two. -/
theorem openedAfter_of_derives {name : Token} {block : Block} {doc : DocString}
    (remains : script.Remains (name :: tokens)) (named : name.kind = .name)
    (known : block ∈ script.blocks) (derived : DerivesDocString block tokens doc rest) :
    openedAfter script.blocks name tokens = some block := by
  obtain ⟨lines, rfl, verbatim, whole, _⟩ := derived.lines
  have holds : block.location.line + 1 < block.stop := filled block known
  cases lines with
  | nil =>
      have empty := congrArg List.length whole
      simp only [List.map_nil, List.length_nil, List.length_range'] at empty
      omega
  | cons first others =>
      obtain ⟨kind, _⟩ := List.forall_mem_cons.mp verbatim
      have here : first.location.line = block.location.line + 1 := by
        obtain ⟨count, more⟩ : ∃ count, block.stop - (block.location.line + 1) = count + 1 :=
          Nat.exists_eq_add_of_le' (by omega)
        rw [more, List.range'_succ] at whole
        exact (List.cons.inj whole).1
      have order := remains.rises.2 (Or.inr kind)
      have after : name.location.line < block.location.line := by
        have apart := script.layout.outside name (remains.mem List.mem_cons_self) (by simp [named])
          block known
        omega
      -- Some block opens here, and its first line tells which one it is.
      cases found : openedAfter script.blocks name (first :: others ++ rest) with
      | none =>
          have absent := List.find?_eq_none.mp found block known
          simp only [decide_eq_true_eq] at absent
          omega
      | some other =>
          obtain ⟨_, _, ⟨⟩, otherKnown, otherAfter, before⟩ := openedAfter_eq_some found
          have line := (next_of_opened filled remains otherKnown otherAfter before).2
          have otherHolds : other.location.line + 1 < other.stop := filled other otherKnown
          have same : other.location.line = block.location.line := by omega
          rw [script.layout.block_unique otherKnown known (Nat.le_refl _) (by omega) (by omega)
            (by omega)]

theorem takes_of_derives {name : Token} {argument : Option StepArgument}
    (remains : script.Remains (name :: tokens)) (named : name.kind = .name)
    (derived : DerivesArgument script.blocks tokens argument rest)
    (follows : Starts TokenKind.beyondStep rest) :
    TakesArgument script.blocks name tokens argument rest := by
  cases derived with
  | absent =>
      obtain ⟨token, more, rfl, beyond⟩ := follows
      have other : ∀ kind, TokenKind.beyondStep kind = false → ∀ found ∈ (token :: more).head?,
          found.kind ≠ kind := by
        rintro kind inner found ⟨⟩ same
        rw [same, inner] at beyond
        cases beyond
      exact .absent (openedAfter_eq_none filled remains (other _ rfl)) (other _ rfl)
  | table here =>
      obtain ⟨pipe, more, rfl, opens⟩ := here.starts
      have none := openedAfter_eq_none filled remains (by
        rintro token ⟨⟩ verbatim
        rw [verbatim] at opens
        cases opens)
      exact .table none here
  | docString known here =>
      exact .docString (openedAfter_of_derives filled remains named known here) here

end Filled

/-- The parser takes what is found behind the name, up to where it has to stop. -/
theorem argument_of_takes {name : Token} {argument : Option StepArgument}
    (remains : script.Remains (name :: tokens)) (named : name.kind = .name)
    (takes : TakesArgument script.blocks name tokens argument rest)
    (follows : Starts TokenKind.beyondStep rest) :
    Parse.argument name.location.line (script.cursor tokens) =
      (.ok argument, script.cursor rest) := by
  have further := remains.tail (by simp [named])
  cases takes with
  | absent none other =>
      obtain ⟨token, more, rfl⟩ := further.exists_cons
      rw [argument_unopened none, if_neg (other token rfl)]
  | table none here =>
      obtain ⟨pipe, more, rfl, opens⟩ := here.starts
      rw [argument_unopened none, if_pos opens, Parse.bind_apply,
        table_of_derives further here (follows.ne rfl)]
      rfl
  | docString first here =>
      obtain ⟨next, more, rfl, known, after, before⟩ := openedAfter_eq_some first
      obtain ⟨doc, left, run, derived, _⟩ := docString_opened known remains further after
        (by rintro token ⟨⟩; exact before)
      obtain ⟨rfl, rfl⟩ := derivesDocString_unique here derived
      rw [argument_opened further first, Parse.bind_apply, run]
      rfl

/-- A grammar that agrees with the reader and derives no argument but the one the parser takes. -/
structure Decides (script : Transcript) (grammar : Grammar) : Prop where
  dialect : grammar.dialect = script.reader.mode.dialect
  language : grammar.language = script.reader.language
  suffix : ∀ {name tokens argument rest}, grammar.argument name tokens argument rest → rest <:+ tokens
  argument : ∀ {name tokens argument rest}, script.Remains (name :: tokens) → name.kind = .name →
    grammar.argument name tokens argument rest → Starts TokenKind.beyondStep rest →
      Parse.argument name.location.line (script.cursor tokens) = (.ok argument, script.cursor rest)

theorem decides_ofReader (filled : ∀ block ∈ script.blocks, block.Filled) :
    script.Decides (.ofReader script.reader) where
  dialect := rfl
  language := rfl
  suffix := DerivesArgument.suffix
  argument remains named derived follows :=
    argument_of_takes remains named (takes_of_derives filled remains named derived follows) follows

section Decided

variable {grammar : Grammar} (decides : script.Decides grammar)

include decides

theorem step_of_derives {token name : Token} {keyword role : StepKeyword}
    {previous : Option StepKeyword} {argument : Option StepArgument}
    (remains : script.Remains (token :: name :: tokens)) (opens : token.kind = .step)
    (spelled : grammar.dialect.stepKeyword? token.text = some keyword)
    (resolved : keyword.resolve previous = some role) (named : name.kind = .name)
    (derived : grammar.argument name tokens argument rest)
    (follows : Starts TokenKind.beyondStep rest) :
    Parse.step previous (script.cursor (token :: name :: tokens)) =
      (.ok (some (⟨token.text, role, name.text, argument, token.location⟩, some role)),
        script.cursor rest) := by
  have further := remains.tail (by simp [opens])
  have line : token.location.line = name.location.line :=
    (remains.precedes (.inr (by rw [named]; rfl))).1
  have plays : (script.reader.mode.dialect.stepKeyword? token.text).bind (·.resolve previous) =
      some role := by
    rw [← decides.dialect, spelled]
    exact resolved
  rw [Parse.step, Parse.bind_apply, takeIf_cursor, if_pos opens]
  simp only
  rw [Parse.bind_apply, Parse.reader_apply]
  simp only
  rw [cursor, plays, ← cursor]
  simp only
  rw [Parse.bind_apply, expect_cursor, if_pos named]
  simp only
  rw [Parse.bind_apply, line, decides.argument further named derived follows]
  rfl

theorem repeats_of_steps {earlier : List StepKeyword} {previous : Option StepKeyword}
    {steps : List Step} (remains : script.Remains tokens)
    (derived : grammar.DerivesSteps earlier tokens steps rest)
    (known : earlier.find? (fun other => !other.isConjunction) = previous)
    (follows : Starts TokenKind.beyondSteps rest) :
    Parse.Repeats Parse.step previous (script.cursor tokens) steps (script.cursor rest) := by
  induction derived generalizing previous with
  | nil =>
      obtain ⟨token, more, rfl, beyond⟩ := follows
      refine .stop ?_
      rw [Parse.step, Parse.bind_apply, takeIf_cursor, if_neg]
      · rfl
      · intro opens
        rw [opens] at beyond
        cases beyond
  | @cons earlier token name tokens middle rest keyword role argument steps opens spelled plays named
      takes others ih =>
      have proper : Starts TokenKind.beyondStep middle := others.starts follows
      have left : middle <:+ token :: name :: tokens :=
        (decides.suffix takes).trans ((List.suffix_cons _ _).trans (List.suffix_cons _ _))
      have resolved : keyword.resolve previous = some role := by
        rw [← known, ← find?_role]
        exact plays
      exact .next (step_of_derives decides remains opens spelled resolved named takes proper)
        (ih (remains.of_suffix left proper.nonempty) plays follows)

theorem length_steps_le {earlier : List StepKeyword} {steps : List Step}
    (derived : grammar.DerivesSteps earlier tokens steps rest) :
    steps.length + rest.length ≤ tokens.length := by
  induction derived with
  | nil => simp
  | cons _ _ _ _ takes _ ih =>
      have shorter := (decides.suffix takes).length_le
      simp only [List.length_cons]
      omega

theorem steps_of_derives {steps : List Step} (remains : script.Remains tokens)
    (derived : grammar.DerivesSteps [] tokens steps rest)
    (follows : Starts TokenKind.beyondSteps rest) :
    Parse.steps (script.cursor tokens) = (.ok steps, script.cursor rest) := by
  have bound := length_steps_le decides derived
  have left := List.length_pos_iff.mpr follows.nonempty
  have enough := remains.length_le
  rw [Parse.steps, Parse.collect_apply]
  exact Parse.collectFrom_of_repeats (repeats_of_steps decides remains derived rfl follows) _
    (by simp only [cursor]; omega)

omit decides in
theorem kindAfterTags_announced {kind : TokenKind} (announces : Announces kind tokens)
    (keyword : kind ≠ .tag ∧ kind ≠ .eol) :
    Parse.kindAfterTags (script.cursor tokens) = (.ok kind, script.cursor tokens) := by
  obtain ⟨token, found, rfl⟩ := announces.find? keyword
  exact kindAfterTags_cursor script found

/-- A block that may be left out is told from what follows by the first keyword. -/
theorem background_of_derives {found : Option Background} (remains : script.Remains tokens)
    (derived : Maybe grammar.DerivesBackground tokens found rest)
    (follows : Follows TokenKind.afterBackground rest) :
    Parse.background (script.cursor tokens) = (.ok found, script.cursor rest) := by
  cases derived with
  | absent =>
      obtain ⟨kind, member, announces⟩ := follows
      -- What follows begins with another keyword, so the background is told to be absent without reading it.
      have others : ∀ kind ∈ TokenKind.afterBackground,
          kind ≠ .block .background ∧ kind ≠ .tag ∧ kind ≠ .eol := by decide
      obtain ⟨other, keyword⟩ := others kind member
      rw [Parse.background, Parse.bind_apply, kindAfterTags_announced announces keyword]
      simp only
      rw [if_neg other]
      rfl
  | present here =>
      cases here with
      | @intro tokens middle rest heading steps headed stepped =>
          have beyond := (follows.mono (List.subset_cons_self _ _)).beyondSteps
          obtain ⟨token, more, rfl, opens⟩ := headed.starts
          have announces : Announces (.block .background) (token :: more) :=
            ⟨[], token, more, .intro .nil, opens⟩
          have middleStarts := stepped.starts beyond
          have left := remains.of_suffix (headed.passes DerivesOptionalName.passes).suffix
            middleStarts.nonempty
          rw [Parse.background, Parse.bind_apply,
            kindAfterTags_announced announces (by simp)]
          simp only [↓reduceIte]
          rw [Parse.bind_apply, peek_cursor]
          simp only
          rw [if_neg (by simp [opens]), Parse.bind_apply,
            heading_of_derives optionalName_of_derives
              (fun named => (DerivesOptionalName.passes named).suffix) remains headed
              middleStarts.beyondHeading]
          simp only
          rw [Parse.bind_apply, steps_of_derives decides left stepped beyond]
          rfl

theorem scenario_of_derives {keyword : BlockKeyword} {scenario : Scenario}
    (remains : script.Remains tokens)
    (derived : grammar.DerivesScenario keyword tokens scenario rest)
    (follows : Follows TokenKind.afterScenario rest) :
    Parse.scenario keyword (script.cursor tokens) = (.ok scenario, script.cursor rest) := by
  cases derived with
  | @intro tokens start middle rest tags heading steps tagged headed stepped =>
      have beyond := follows.beyondSteps
      have middleStarts := stepped.starts beyond
      obtain ⟨token, more, rfl, opens⟩ := headed.starts
      have begun := remains.of_suffix tagged.passes.suffix (List.cons_ne_nil _ _)
      have left := begun.of_suffix (headed.passes DerivesOptionalName.passes).suffix
        middleStarts.nonempty
      rw [Parse.scenario, Parse.bind_apply, tags_of_derives remains tagged (by simp [opens])]
      simp only
      rw [Parse.bind_apply, heading_of_derives optionalName_of_derives
        (fun named => (DerivesOptionalName.passes named).suffix) begun headed
        middleStarts.beyondHeading]
      simp only
      rw [Parse.bind_apply, steps_of_derives decides left stepped beyond]
      rfl

omit decides in
theorem examples_of_derives {examples : List Examples} (remains : script.Remains tokens)
    (derived : Many Grammar.DerivesExamples tokens examples rest)
    (follows : Follows TokenKind.afterBackground rest) :
    Parse.many Parse.examples (script.cursor tokens) = (.ok examples, script.cursor rest) := by
  refine many_of_derives (Follows TokenKind.afterScenario) (Follows TokenKind.afterBackground)
    ?_ ?_ (fun _ _ _ here => here.follows) (fun _ last => last.mono (List.subset_cons_self _ _))
    (fun here => ⟨here.passes.suffix, here.length_lt⟩) (fun _ last => last.beyondSteps.nonempty)
    remains derived follows
  · intro tokens examples rest remains here follows
    cases here with
    | @intro tokens start middle rest tags heading table tagged headed listed distinct =>
        have announces := tagged.announces headed
        obtain ⟨pipe, cells, rfl, bordered⟩ := listed.starts
        obtain ⟨token, more, rfl, opens⟩ := headed.starts
        have begun := remains.of_suffix tagged.passes.suffix (List.cons_ne_nil _ _)
        have left := begun.of_suffix (headed.passes DerivesOptionalName.passes).suffix
          (List.cons_ne_nil _ _)
        have proper : Starts (fun kind => kind ≠ .pipe) rest := follows.beyondSteps.ne rfl
        -- The names of the columns differ, so the check of the header passes.
        have single : table.rows.head?.bind (·.repeated?) = none := by
          cases first : table.rows.head? with
          | none => rfl
          | some header => exact (repeated?_eq_none header).mpr (distinct header first)
        rw [Parse.examples, Parse.bind_apply, kindAfterTags_announced announces (by simp)]
        simp only [↓reduceIte]
        rw [Parse.bind_apply, tags_of_derives remains tagged (by simp [opens])]
        simp only
        rw [Parse.bind_apply, heading_of_derives optionalName_of_derives
          (fun named => (DerivesOptionalName.passes named).suffix) begun headed
          ⟨pipe, cells, rfl, by rw [bordered]; rfl⟩]
        simp only
        rw [Parse.bind_apply, Parse.examplesTable, Parse.bind_apply, peek_cursor]
        simp only
        rw [if_pos bordered, Parse.bind_apply, table_of_derives left listed proper]
        simp only
        rw [single]
        rfl
  · rintro tokens _ ⟨kind, member, announces⟩
    have others : ∀ kind ∈ TokenKind.afterBackground,
        kind ≠ .block .examples ∧ kind ≠ .tag ∧ kind ≠ .eol := by decide
    obtain ⟨other, keyword⟩ := others kind member
    rw [Parse.examples, Parse.bind_apply, kindAfterTags_announced announces keyword]
    simp only
    rw [if_neg other]
    rfl

theorem definitions_of_derives {definitions : List Definition} (remains : script.Remains tokens)
    (derived : Many grammar.DerivesDefinition tokens definitions rest)
    (follows : Follows TokenKind.afterDefinitions rest) :
    Parse.many Parse.definition (script.cursor tokens) = (.ok definitions, script.cursor rest) := by
  have weaker : TokenKind.afterDefinitions ⊆ TokenKind.afterBackground := by decide
  refine many_of_derives (Follows TokenKind.afterBackground) (Follows TokenKind.afterDefinitions)
    ?_ ?_ (fun _ _ _ here => here.follows) (fun _ last => last.mono weaker)
    (fun here => here.suffix decides.suffix)
    (fun _ last => (last.mono (List.subset_cons_self _ _)).beyondSteps.nonempty) remains derived
    follows
  · intro tokens definition rest remains here follows
    have later := follows.mono (List.subset_cons_self (.block .examples) _)
    cases here with
    | scenario here =>
        rw [Parse.definition, Parse.bind_apply, kindAfterTags_announced here.announces (by simp)]
        simp only
        rw [Parse.bind_apply, scenario_of_derives decides remains here later]
        rfl
    | outline here listed =>
        -- The steps of an outline end where its blocks of examples begin, or where it ends itself.
        have middle := listed.follows (fun here => here.follows) later
        have left := remains.of_suffix (here.suffix decides.suffix).1
          middle.beyondSteps.nonempty
        rw [Parse.definition, Parse.bind_apply, kindAfterTags_announced here.announces (by simp)]
        simp only
        rw [Parse.bind_apply, scenario_of_derives decides remains here middle]
        simp only
        rw [Parse.bind_apply, examples_of_derives left listed follows]
        rfl
  · rintro tokens _ ⟨kind, member, announces⟩
    simp only [TokenKind.afterDefinitions, TokenKind.afterRules, List.mem_cons, List.not_mem_nil,
      or_false] at member
    rw [Parse.definition, Parse.bind_apply]
    rcases member with rfl | rfl
    · rw [kindAfterTags_announced announces (by simp)]
      rfl
    · rw [kindAfterTags_announced announces (by simp)]
      rfl

omit decides in
theorem starts_of_background {background : Option Background}
    (derived : Maybe grammar.DerivesBackground tokens background rest)
    (follows : Follows TokenKind.afterBackground rest) : Starts TokenKind.beyondHeading tokens := by
  cases derived with
  | absent =>
      exact (follows.mono (List.subset_cons_self _ _)).beyondSteps.beyondStep.beyondHeading
  | present here =>
      cases here with
      | intro headed _ =>
          obtain ⟨token, more, rfl, opens⟩ := headed.starts
          exact ⟨token, more, rfl, by rw [opens]; rfl⟩

theorem rules_of_derives {rules : List Rule} (remains : script.Remains tokens)
    (derived : Many grammar.DerivesRule tokens rules rest)
    (follows : Follows TokenKind.afterRules rest) :
    Parse.many Parse.rule (script.cursor tokens) = (.ok rules, script.cursor rest) := by
  have weaker : TokenKind.afterDefinitions ⊆ TokenKind.afterBackground := by decide
  have weakest : TokenKind.afterDefinitions ⊆ TokenKind.afterScenario := by decide
  refine many_of_derives (Follows TokenKind.afterDefinitions) (Follows TokenKind.afterRules)
    ?_ ?_ (fun _ _ _ here => here.follows) (fun _ last => last.mono (List.subset_cons_self _ _))
    (fun here => here.suffix decides.suffix)
    (fun _ last => (last.mono weakest).beyondSteps.nonempty) remains derived follows
  · intro tokens rule rest remains here follows
    cases here with
    | @intro tokens start middle later rest tags heading background children tagged headed founded
        listed =>
        have announces := tagged.announces headed
        have laterFollows := listed.follows (fun here => here.follows) (follows.mono weaker)
        have middleStarts := starts_of_background founded laterFollows
        obtain ⟨token, more, rfl, opens⟩ := headed.starts
        -- Each part leaves a token that begins the next one, and so what remains is never empty.
        have begun := remains.of_suffix tagged.passes.suffix (List.cons_ne_nil _ _)
        have headedLeft := begun.of_suffix (headed.passes DerivesOptionalName.passes).suffix
          middleStarts.nonempty
        have foundedLeft := headedLeft.of_suffix
          (Grammar.suffix_of_background decides.suffix founded)
          (laterFollows.mono (List.subset_cons_self _ _)).beyondSteps.nonempty
        rw [Parse.rule, Parse.bind_apply, kindAfterTags_announced announces (by simp)]
        simp only [↓reduceIte]
        rw [Parse.bind_apply, tags_of_derives remains tagged (by simp [opens])]
        simp only
        rw [Parse.bind_apply, heading_of_derives optionalName_of_derives
          (fun named => (DerivesOptionalName.passes named).suffix) begun headed middleStarts]
        simp only
        rw [Parse.bind_apply, background_of_derives decides headedLeft founded laterFollows]
        simp only
        rw [Parse.bind_apply, definitions_of_derives decides foundedLeft listed follows]
        rfl
  · rintro tokens _ ⟨kind, member, announces⟩
    rw [TokenKind.afterRules, List.mem_singleton] at member
    subst member
    rw [Parse.rule, Parse.bind_apply, kindAfterTags_announced announces (by simp)]
    rfl

/-- A document that derives a tree is accepted with it. -/
theorem feature_of_decided {feature : Feature}
    (derived : grammar.DerivesDocument script.tokens feature) :
    Parse.feature (script.cursor script.tokens) = (.ok feature, script.cursor []) := by
  have remains := script.remains_tokens
  generalize script.tokens = tokens at derived remains ⊢
  cases derived with
  | @intro start middle later last eof tags heading background children rules tagged headed founded
      listed ruled ends =>
      have final : Follows TokenKind.afterRules [eof] :=
        ⟨_, List.mem_cons_self, [], eof, [], .intro .nil, ends⟩
      have lastFollows := ruled.follows (fun here => here.follows)
        (final.mono (List.subset_cons_self _ _))
      have weaker : TokenKind.afterDefinitions ⊆ TokenKind.afterBackground := by decide
      have laterFollows := listed.follows (fun here => here.follows) (lastFollows.mono weaker)
      have middleStarts := starts_of_background founded laterFollows
      obtain ⟨token, more, rfl, opens⟩ := headed.starts
      -- As in a rule: no part is the last of the document.
      have begun := remains.of_suffix tagged.passes.suffix (List.cons_ne_nil _ _)
      have headedLeft := begun.of_suffix (headed.passes DerivesName.passes).suffix
        middleStarts.nonempty
      have foundedLeft := headedLeft.of_suffix
        (Grammar.suffix_of_background decides.suffix founded)
        (laterFollows.mono (List.subset_cons_self _ _)).beyondSteps.nonempty
      have listedLeft := foundedLeft.of_suffix
        (Grammar.suffix_of_definitions decides.suffix listed)
        ((lastFollows.mono weaker).mono (List.subset_cons_self _ _)).beyondSteps.nonempty
      rw [Parse.feature, Parse.bind_apply, tags_of_derives remains tagged (by simp [opens])]
      simp only
      rw [Parse.bind_apply, heading_of_derives featureName_of_derives
        (fun named => (DerivesName.passes named).suffix) begun headed middleStarts]
      simp only
      rw [Parse.bind_apply, background_of_derives decides headedLeft founded laterFollows]
      simp only
      rw [Parse.bind_apply, definitions_of_derives decides foundedLeft listed lastFollows]
      simp only
      rw [Parse.bind_apply, rules_of_derives decides listedLeft ruled final]
      simp only
      rw [Parse.bind_apply, expect_cursor, if_pos ends, decides.language]
      rfl

end Decided

theorem feature_of_derivesDocument {feature : Feature}
    (filled : ∀ block ∈ script.blocks, block.Filled)
    (derived : (Grammar.ofReader script.reader).DerivesDocument script.tokens feature) :
    Parse.feature (script.cursor script.tokens) = (.ok feature, script.cursor []) :=
  feature_of_decided (decides_ofReader filled) derived

end Transcript

/-- The parser accepts exactly what the grammar derives and builds the tree of the derivation, in
documents without errors whose doc strings all have a line. -/
theorem parse_eq_ok_iff_derivesDocument (setup : Setup) (text : Text) (tokens : List Token)
    (lexed : tokenize setup text = .ok tokens)
    (filled : ∀ block ∈ (Reader.afterDocument setup text).mode.blocks, block.Filled)
    (feature : Feature) :
    parse setup text = .ok feature ↔
      (Grammar.ofReader (.afterDocument setup text)).DerivesDocument (uncommented tokens) feature := by
  constructor
  · exact derivesDocument_of_parse lexed (Transcript.serves_ofReader (Transcript.ofTokens lexed))
  · intro derived
    have accepted : Parse.feature ((Transcript.ofTokens lexed).cursor (uncommented tokens)) =
        (.ok feature, (Transcript.ofTokens lexed).cursor []) := by
      apply Transcript.feature_of_derivesDocument
      · exact filled
      · exact derived
    exact (parse_eq_complete lexed).trans (congrArg Prod.fst accepted)

def noteText : Text :=
  "@a\nFeature: f\n  Scenario: s\n    Given x\n      \"\"\"\n      note\n      \"\"\"\n    And y\n".toList

theorem derivesDocument_noteText :
    ∃ tokens feature, tokenize .standard noteText = .ok tokens ∧
      (∀ block ∈ (Reader.afterDocument .standard noteText).mode.blocks, block.Filled) ∧
      parse .standard noteText = .ok feature ∧
      (Grammar.ofReader (.afterDocument .standard noteText)).DerivesDocument (uncommented tokens)
        feature := by
  obtain ⟨tokens, lexed⟩ : ∃ tokens, tokenize .standard noteText = .ok tokens :=
    exists_of_isOk (by decide +kernel)
  obtain ⟨feature, parsed⟩ : ∃ feature, parse .standard noteText = .ok feature :=
    exists_of_isOk (by decide +kernel)
  have filled : ∀ block ∈ (Reader.afterDocument .standard noteText).mode.blocks, block.Filled := by
    decide +kernel
  refine ⟨tokens, feature, lexed, filled, parsed, ?_⟩
  exact (parse_eq_ok_iff_derivesDocument .standard noteText tokens lexed filled feature).mp parsed

end Gherkin
