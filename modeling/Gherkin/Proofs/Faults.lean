import Gherkin.Proofs.Supply

/-!
Where a parser fails.

A verdict on a parser says what it takes when it succeeds, and where it stops when it fails: what comes
before can be completed, and the error belongs to the first token that cannot follow, or to the reader
when there are no tokens left. The one exception is a table of examples. Its header is looked at when the
whole table has been read, so rows below a doubled column can be passed before an error is reported.
-/

namespace Gherkin

open scoped Computability

structure SpeltDoubled (spoilt : List Token) (table : DataTable) (header : TableRow) : Prop where
  derived : ∀ rest, DerivesTable (spoilt ++ rest) table rest
  first : table.rows.head? = some header
  repeated : ¬ header.values.Nodup

/-- A doubled column between what can be completed and where the error is. The error is in a further
row of the table, or the reader has it. -/
def Spoils (used spoilt rest : List Token) : Prop :=
  spoilt = [] ∨ ∃ start heading table header, start <:+ used ∧
    (∀ rest, DerivesHeading .examples DerivesOptionalName (start ++ rest) heading rest) ∧
    SpeltDoubled spoilt table header ∧ ∀ token ∈ rest.head?, token.kind = .pipe

theorem Spoils.append {used spoilt rest : List Token} (spoils : Spoils used spoilt rest)
    (before : List Token) : Spoils (before ++ used) spoilt rest := by
  rcases spoils with none | ⟨start, heading, table, header, within, doubled⟩
  · exact Or.inl none
  · exact Or.inr ⟨start, heading, table, header, within.trans (List.suffix_append _ _), doubled⟩

namespace Supply

inductive Strikes (supply : Supply) : ParseError → List Token → Prop where
  | lex {error : LexError} (failed : supply.result = .error error) : Strikes supply (.lex error) []
  | grammar {location : Location} {expected found : String} {token : Token} (rest : List Token)
      (line : location.line = token.location.line) :
      Strikes supply (.grammar ⟨location, expected, found⟩) (token :: rest)

structure Fault (supply : Supply) (tokens : List Token) (viable : Language Token)
    (error : ParseError) (used spoilt rest : List Token) : Prop where
  split : tokens = used ++ (spoilt ++ rest)
  begun : used ∈ viable
  spoils : Spoils used spoilt rest
  strikes : supply.Strikes error rest

/-- What a parser has done to the tokens it was given. -/
inductive Outcome {α : Type} (supply : Supply) (tokens : List Token) (taken viable : Language Token) :
    Except ParseError α × Cursor → Prop where
  | success {value : α} {after : Cursor} {used rest : List Token} (split : tokens = used ++ rest)
      (shows : supply.Shows after rest) (clear : Clear rest) (member : used ∈ taken) :
      Outcome supply tokens taken viable (.ok value, after)
  | fault {error : ParseError} {after : Cursor} {used spoilt rest : List Token}
      (fault : supply.Fault tokens viable error used spoilt rest) :
      Outcome supply tokens taken viable (.error error, after)

/-- Where the parser succeeds it takes a phrase of the first language, and where it fails it stops after
a beginning from the second. -/
def Verdict {α : Type} (supply : Supply) (parser : Parse α) (taken viable : Language Token) : Prop :=
  ∀ cursor tokens, supply.Shows cursor tokens → Clear tokens →
    supply.Outcome tokens taken viable (parser cursor)

section Sequences

variable {α β : Type} {supply : Supply} {first : Parse α} {next : α → Parse β}
  {tokens : List Token} {taken viable others later whole begins : Language Token}

/-- A parser that runs after another one starts behind what that one took. -/
theorem Outcome.behind {used rest : List Token} {answer : Except ParseError β × Cursor}
    (given : supply.Outcome rest others later answer) (member : used ∈ taken)
    (le : taken * others ≤ whole) (late : taken * later ≤ begins) :
    supply.Outcome (used ++ rest) whole begins answer := by
  cases given with
  | success split shows clear further =>
      subst split
      exact .success (List.append_assoc _ _ _).symm shows clear
        (le (Language.append_mem_mul member further))
  | fault given =>
      refine .fault ⟨?_, late (Language.append_mem_mul member given.begun), given.spoils.append used,
        given.strikes⟩
      rw [given.split, List.append_assoc]

/-- What is made of a value makes no difference to the tokens. -/
theorem Outcome.map {cursor : Cursor} (given : supply.Outcome tokens taken viable (first cursor))
    (function : α → β) :
    supply.Outcome tokens taken viable ((first >>= fun value => pure (function value)) cursor) := by
  rw [Parse.bind_apply]
  generalize first cursor = answer at given
  cases given with
  | success split shows clear member => exact .success split shows clear member
  | fault given => exact .fault given

theorem verdict_bind (head : supply.Verdict first taken viable)
    (tail : ∀ value, supply.Verdict (next value) others later) (le : taken * others ≤ whole)
    (early : viable ≤ begins) (late : taken * later ≤ begins) :
    supply.Verdict (first >>= next) whole begins := by
  intro cursor tokens shows clear
  have given := head cursor tokens shows clear
  rw [Parse.bind_apply]
  generalize first cursor = answer at given
  cases given with
  | success split shown fresh member =>
      subst split
      exact (tail _ _ _ shown fresh).behind member le late
  | fault given => exact .fault ⟨given.split, early given.begun, given.spoils, given.strikes⟩

theorem Verdict.mono (verdict : supply.Verdict first taken viable) (le : taken ≤ whole)
    (early : viable ≤ begins) : supply.Verdict first whole begins := by
  intro cursor tokens shows clear
  have given := verdict cursor tokens shows clear
  generalize first cursor = answer at given
  cases given with
  | success split shown fresh member => exact .success split shown fresh (le member)
  | fault given => exact .fault ⟨given.split, early given.begun, given.spoils, given.strikes⟩

/-- The parser takes phrases of a language, and where it fails it has begun one. -/
def Obeys {α : Type} (supply : Supply) (parser : Parse α) (language : Language Token) : Prop :=
  supply.Verdict parser language (begun language)

theorem Obeys.mono (obeys : supply.Obeys first taken) (le : taken ≤ whole) : supply.Obeys first whole :=
  Verdict.mono obeys le (begun_mono le)

theorem obeys_pure (value : α) : supply.Obeys (pure value) 1 := by
  intro cursor tokens shows clear
  exact .success (List.nil_append tokens).symm shows clear ((Language.mem_one []).mpr rfl)

theorem obeys_bind {word : List Token} (head : supply.Obeys first taken)
    (tail : ∀ value, supply.Obeys (next value) others) (inhabited : word ∈ others) :
    supply.Obeys (first >>= next) (taken * others) :=
  verdict_bind head tail le_rfl (begun_le_mul inhabited) mul_begun_le

theorem obeys_map (head : supply.Obeys first taken) (function : α → β) :
    supply.Obeys (first >>= fun value => pure (function value)) taken :=
  fun cursor tokens shows clear => (head cursor tokens shows clear).map function

end Sequences

section Single

variable {supply : Supply} {kind : TokenKind}

/-- An error of the reader comes when nothing is left. -/
theorem fault_of_lex {error : LexError} {viable : Language Token} (failed : supply.result = .error error)
    {tokens : List Token} (begun : tokens ∈ viable) :
    supply.Fault tokens viable (.lex error) tokens [] [] :=
  ⟨by simp, begun, Or.inl rfl, .lex failed⟩

/-- An error of the grammar comes at the first token that does not fit. -/
theorem fault_of_token {viable : Language Token} (begun : [] ∈ viable) {token : Token}
    {rest : List Token} {location : Location} (line : location.line = token.location.line)
    {expected found : String} :
    supply.Fault (token :: rest) viable (.grammar ⟨location, expected, found⟩) [] [] (token :: rest) :=
  ⟨rfl, begun, Or.inl rfl, .grammar rest line⟩

variable (proper : kind ≠ .eof) (untagged : kind ≠ .tag) (unframed : kind ≠ .pipe)

include proper untagged unframed

theorem obeys_takeIf : supply.Obeys (Parse.takeIf kind) (1 + single kind) := by
  intro cursor tokens shows clear
  have given := shows.takeIf proper
  have within := shows.within
  generalize Parse.takeIf kind cursor = answer at given
  cases given with
  | @taken token rest after split same shown =>
      subst split
      exact .success (List.singleton_append).symm shown
        (clear_of_within within (same ▸ untagged) (same ▸ unframed)) (Or.inr ⟨token, same, rfl⟩)
  | declined split other shown =>
      exact .success (List.nil_append tokens).symm shown clear (Or.inl rfl)
  | failure none failed =>
      subst none
      exact .fault (fault_of_lex failed (le_begun (Or.inl rfl)))

theorem obeys_expect (expected : String) :
    supply.Obeys (Parse.expect kind expected) (single kind) := by
  intro cursor tokens shows clear
  have given := shows.expect kind expected
  have within := shows.within
  generalize Parse.expect kind expected cursor = answer at given
  cases given with
  | @met token rest after split same shown =>
      subst split
      exact .success (List.singleton_append).symm (shown proper)
        (clear_of_within within (same ▸ untagged) (same ▸ unframed)) ⟨token, same, rfl⟩
  | missed split other =>
      subst split
      exact .fault (fault_of_token (nil_mem_begun (mem_single kind)) rfl)
  | failure none failed =>
      subst none
      exact .fault (fault_of_lex failed (nil_mem_begun (mem_single kind)))

end Single

/-! An item that declines leaves what it was given to whatever comes next. An item that fails has begun, and
so has the repetition. -/

section Repetition

variable {α β : Type} {supply : Supply}

inductive Item (supply : Supply) (tokens : List Token) (series viable : β → Language Token) (state : β) :
    Except ParseError (Option (α × β)) × Cursor → Prop where
  | last {after : Cursor} {used rest : List Token} (split : tokens = used ++ rest)
      (shows : supply.Shows after rest) (clear : Clear rest) (member : used ∈ series state) :
      Item supply tokens series viable state (.ok none, after)
  | next {value : α} {next : β} {after : Cursor} {used rest : List Token} (split : tokens = used ++ rest)
      (shows : supply.Shows after rest) (clear : Clear rest) (further : {used} * series next ≤ series state)
      (begins : {used} * viable next ≤ viable state) :
      Item supply tokens series viable state (.ok (some (value, next)), after)
  | fault {error : ParseError} {after : Cursor} {used spoilt rest : List Token}
      (fault : supply.Fault tokens (viable state) error used spoilt rest) :
      Item supply tokens series viable state (.error error, after)

theorem verdict_collectFrom (series viable : β → Language Token) {item : β → Parse (Option (α × β))}
    (empty : ∀ state, [] ∈ series state)
    (once : ∀ state cursor tokens, supply.Shows cursor tokens → Clear tokens →
      supply.Item tokens series viable state (item state cursor)) (fuel : Nat) (state : β) :
    supply.Verdict (Parse.collectFrom item fuel state) (series state) (viable state) := by
  induction fuel generalizing state with
  | zero =>
      intro cursor tokens shows clear
      exact .success (List.nil_append tokens).symm shows clear (empty state)
  | succ fuel ih =>
      intro cursor tokens shows clear
      have given := once state cursor tokens shows clear
      rw [Parse.collectFrom_succ]
      generalize item state cursor = answer at given
      cases given with
      | last split shown fresh member => exact .success split shown fresh member
      | @next value next after used rest split shown fresh further begins =>
          subst split
          have listed := (ih next after rest shown fresh).map (value :: ·)
          exact listed.behind (Set.mem_singleton used) further begins
      | fault given => exact .fault given

theorem obeys_many {item : Parse (Option α)} {language : Language Token}
    (once : supply.Obeys item (1 + language)) : supply.Obeys (Parse.many item) language∗ := by
  have within : 1 + language ≤ language∗ := sup_le one_le_kstar le_kstar
  intro cursor tokens shows clear
  rw [Parse.many_apply]
  refine verdict_collectFrom (fun _ => language∗) (fun _ => begun language∗)
    (fun _ => nil_mem_star) ?_ _ () cursor tokens shows clear
  intro state cursor tokens shows clear
  have given := once cursor tokens shows clear
  rw [stateless, Parse.bind_apply]
  generalize item cursor = answer at given
  cases given with
  | @success found after used rest split shown fresh member =>
      have starred : {used} * language∗ ≤ language∗ := by
        intro word joined
        obtain ⟨_, rfl, others, listed, rfl⟩ := Language.mem_mul.mp joined
        exact (kstar_mul_kstar language).le (Language.append_mem_mul (within member) listed)
      cases found with
      | none => exact .last split shown fresh (within member)
      | some value =>
          refine .next split shown fresh starred ?_
          exact mul_begun_le.trans (begun_mono starred)
  | fault given =>
      exact .fault ⟨given.split, begun_mono within given.begun, given.spoils, given.strikes⟩

end Repetition

section Tags

variable {supply : Supply} {tokens : List Token}

theorem nil_mem_tagLines : [] ∈ phrases (Many DerivesTagLine) :=
  ⟨[], fun _ => .nil⟩

theorem tagLines_le : phrases (Many DerivesTagLine) ≤ phrases DerivesTags := by
  rintro taken ⟨lines, lined⟩
  exact ⟨lines.flatten, fun rest => .intro (lined rest)⟩

theorem cons_line {tag eol : Token} {others : List Token} (opens : tag.kind = .tag)
    (ends : eol.kind = .eol) (lined : others ∈ phrases (Many DerivesTagLine)) :
    tag :: eol :: others ∈ phrases (Many DerivesTagLine) := by
  obtain ⟨lines, lined⟩ := lined
  exact ⟨_ :: lines, fun rest => .cons (.last opens ends) (lined rest)⟩

/-- A tag in front of another one belongs to its line. -/
theorem cons_tag {tag next : Token} {others : List Token} (opens : tag.kind = .tag)
    (lined : next :: others ∈ phrases (Many DerivesTagLine)) :
    tag :: next :: others ∈ phrases (Many DerivesTagLine) := by
  obtain ⟨lines, lined⟩ := lined
  cases lines with
  | nil => cases lined []
  | cons line lines =>
      refine ⟨(⟨tag.text, tag.location⟩ :: line) :: lines, fun rest => ?_⟩
      cases lined rest with
      | cons first later => exact .cons (.more opens first) later

/-- Tokens of tag lines only are tag lines. -/
theorem tagLines_of_inTags (within : tokens <:+ supply.tokens) (clear : Clear tokens)
    (tags : ∀ token ∈ tokens, Parse.inTags token = true) :
    tokens ∈ phrases (Many DerivesTagLine) := by
  induction size : tokens.length using Nat.strong_induction_on generalizing tokens with
  | _ size ih =>
      subst size
      cases tokens with
      | nil => exact nil_mem_tagLines
      | cons token rest =>
          obtain ⟨here, later⟩ := List.forall_mem_cons.mp tags
          have kind : token.kind = .tag := by
            have unended := clear token rfl
            simpa [Parse.inTags, unended] using here
          obtain ⟨next, more, rfl, _, precedes⟩ := exists_next within (Or.inl kind)
          rw [kind] at precedes
          obtain ⟨second, others⟩ := List.forall_mem_cons.mp later
          have inside := (List.suffix_cons token (next :: more)).trans within
          by_cases ends : next.kind = .eol
          · apply cons_line kind ends
            refine ih more.length (by simp only [List.length_cons]; omega) ((List.suffix_cons next more).trans inside) ?_ others rfl
            exact clear_of_within inside (by simp [ends]) (by simp [ends])
          · apply cons_tag kind
            refine ih (next :: more).length (by simp) inside ?_ later rfl
            rintro first ⟨⟩
            exact ends

theorem verdict_kindAfterTags : supply.Verdict Parse.kindAfterTags 1 (phrases DerivesTags) := by
  intro cursor tokens shows clear
  obtain ⟨kind, after, looked, shown⟩ | ⟨error, after, looked, failed, tags⟩ := shows.kindAfterTags
  · rw [looked]
    exact .success (List.nil_append tokens).symm shown clear ((Language.mem_one []).mpr rfl)
  · rw [looked]
    exact .fault (fault_of_lex failed (tagLines_le (tagLines_of_inTags shows.within clear tags)))

inductive TagTaken (supply : Supply) (tokens : List Token) :
    Except ParseError (Option Tag) × Cursor → Prop where
  | declined {after : Cursor} (shows : supply.Shows after tokens)
      (stops : ∀ token ∈ tokens.head?, token.kind ≠ .tag) : TagTaken supply tokens (.ok none, after)
  | last {found : Tag} {token eol : Token} {rest : List Token} {after : Cursor}
      (split : tokens = token :: eol :: rest) (opens : token.kind = .tag) (ends : eol.kind = .eol)
      (shows : supply.Shows after rest) : TagTaken supply tokens (.ok (some found), after)
  | more {found : Tag} {token next : Token} {rest : List Token} {after : Cursor}
      (split : tokens = token :: next :: rest) (opens : token.kind = .tag)
      (continues : next.kind = .tag) (shows : supply.Shows after (next :: rest)) :
      TagTaken supply tokens (.ok (some found), after)
  | failure {error : LexError} {after : Cursor} (none : tokens = [])
      (failed : supply.result = .error error) : TagTaken supply tokens (.error (.lex error), after)

theorem Shows.tag {cursor : Cursor} (shows : supply.Shows cursor tokens) :
    supply.TagTaken tokens (Parse.tag cursor) := by
  have within := shows.within
  have given := shows.takeIf (show TokenKind.tag ≠ .eof by decide)
  rw [Parse.tag, Parse.bind_apply]
  generalize Parse.takeIf .tag cursor = answer at given
  cases given with
  | @taken token rest after split opens shown =>
      subst split
      simp only
      obtain ⟨next, more, rfl, _, precedes⟩ := exists_next within (Or.inl opens)
      have behind := shown.takeIf (show TokenKind.eol ≠ .eof by decide)
      rw [Parse.bind_apply]
      generalize Parse.takeIf .eol after = answer at behind
      cases behind with
      | taken split ends further =>
          cases split
          exact .last rfl opens ends further
      | declined split other further =>
          cases split
          -- Only a tag or the end of the line can follow a tag.
          have continues : next.kind = .tag := by
            rw [opens] at precedes
            cases same : next.kind <;> simp_all [TokenKind.precedes]
          exact .more rfl opens continues further
      | failure none => cases none
  | declined split other shown =>
      subst split
      refine .declined shown ?_
      rintro first ⟨⟩
      exact other
  | failure none failed => exact .failure none failed

inductive Tagged {α : Type} (supply : Supply) (tokens : List Token) :
    Except ParseError α × Cursor → Prop where
  | success {value : α} {after : Cursor} {used rest : List Token} (split : tokens = used ++ rest)
      (shows : supply.Shows after rest) (clear : Clear rest)
      (lined : used ∈ phrases (Many DerivesTagLine)) (stops : ∀ token ∈ rest.head?, token.kind ≠ .tag) :
      Tagged supply tokens (.ok value, after)
  | failure {error : LexError} {after : Cursor} (failed : supply.result = .error error)
      (lined : tokens ∈ phrases (Many DerivesTagLine)) : Tagged supply tokens (.error (.lex error), after)

theorem Tagged.cons_line {α : Type} {answer : Except ParseError α × Cursor} {tag eol : Token}
    (given : supply.Tagged tokens answer) (opens : tag.kind = .tag) (ends : eol.kind = .eol) :
    supply.Tagged (tag :: eol :: tokens) answer := by
  cases given with
  | success split shows clear lined stops =>
      subst split
      exact .success rfl shows clear (Supply.cons_line opens ends lined) stops
  | failure failed lined => exact .failure failed (Supply.cons_line opens ends lined)

theorem Tagged.cons_tag {α : Type} {answer : Except ParseError α × Cursor} {tag next : Token}
    (given : supply.Tagged (next :: tokens) answer) (opens : tag.kind = .tag)
    (continues : next.kind = .tag) : supply.Tagged (tag :: next :: tokens) answer := by
  cases given with
  | @success _ _ used rest split shows clear lined stops =>
      cases used with
      | nil =>
          -- The tag that follows is taken as well.
          subst split
          exact absurd continues (stops next rfl)
      | cons first others =>
          cases split
          exact .success rfl shows clear (Supply.cons_tag opens lined) stops
  | failure failed lined => exact .failure failed (Supply.cons_tag opens lined)

/-- There is fuel for every tag. -/
theorem Shows.tags {cursor : Cursor} (shows : supply.Shows cursor tokens) (clear : Clear tokens)
    (fuel : Nat) (enough : tokens.length ≤ fuel) :
    supply.Tagged tokens (Parse.collectFrom (stateless Parse.tag) fuel () cursor) := by
  induction fuel generalizing cursor tokens with
  | zero =>
      obtain rfl := List.length_eq_zero_iff.mp (Nat.le_zero.mp enough)
      exact .success rfl shows clear nil_mem_tagLines (by simp)
  | succ fuel ih =>
      have within := shows.within
      have given := shows.tag
      rw [Parse.collectFrom_succ, stateless, Parse.bind_apply]
      generalize Parse.tag cursor = answer at given
      -- The result for the tags behind, before the first one is put in front of it.
      have listed {tokens : List Token} {value : Tag} {after : Cursor}
          (others : supply.Tagged tokens (Parse.collectFrom (stateless Parse.tag) fuel () after)) :
          supply.Tagged tokens ((Parse.collectFrom (stateless Parse.tag) fuel () >>=
            fun others => pure (value :: others)) after) := by
        rw [Parse.bind_apply]
        generalize Parse.collectFrom _ fuel () after = answer at others
        cases others with
        | success split shows clear lined stops => exact .success split shows clear lined stops
        | failure failed lined => exact .failure failed lined
      cases given with
      | declined shown stops => exact .success rfl shown clear nil_mem_tagLines stops
      | last split opens ends shown =>
          subst split
          simp only [List.length_cons] at enough
          have fresh := clear_of_within ((List.suffix_cons _ _).trans within) (by simp [ends])
            (by simp [ends])
          exact (listed (ih shown fresh (by omega))).cons_line opens ends
      | more split opens continues shown =>
          subst split
          simp only [List.length_cons] at enough
          refine (listed (ih shown ?_ (by simpa using enough))).cons_tag opens continues
          rintro first ⟨⟩
          simp [continues]
      | failure none failed =>
          subst none
          exact .failure failed nil_mem_tagLines

theorem Shows.length_le {cursor : Cursor} (shows : supply.Shows cursor tokens) :
    tokens.length ≤ cursor.limit + 1 := by
  rw [shows.limit]
  exact shows.within.length_le.trans supply.enough

theorem obeys_tags : supply.Obeys Parse.tags (phrases DerivesTags) := by
  intro cursor tokens shows clear
  have given := shows.tags clear (cursor.limit + 1) shows.length_le
  rw [Parse.tags, Parse.many_apply]
  generalize Parse.collectFrom _ _ () cursor = answer at given
  cases given with
  | success split shown fresh lined _ => exact .success split shown fresh (tagLines_le lined)
  | failure failed lined => exact .fault (fault_of_lex failed (le_begun (tagLines_le lined)))

end Tags

section Headings

variable {supply : Supply}

theorem obeys_descriptionLine :
    supply.Obeys Parse.descriptionLine (1 + single .descriptionLine) :=
  obeys_map (obeys_takeIf (by decide) (by decide) (by decide)) _

theorem obeys_optionalName : supply.Obeys Parse.optionalName (phrases DerivesOptionalName) := by
  have given : supply.Obeys Parse.optionalName (1 + single .name) :=
    obeys_map (obeys_takeIf (by decide) (by decide) (by decide)) _
  refine given.mono (sup_le ?_ single_le_optionalName)
  rintro _ rfl
  exact nil_mem_optionalName

theorem obeys_featureName : supply.Obeys Parse.featureName (phrases DerivesName) := by
  have given : supply.Obeys Parse.featureName (single .name) :=
    obeys_map (obeys_expect (by decide) (by decide) (by decide) _) _
  exact given.mono single_le_name

theorem obeys_heading (keyword : BlockKeyword) {name : Parse Text} {production : Production Text}
    {word : List Token} (named : supply.Obeys name (phrases production))
    (inhabited : word ∈ phrases production) :
    supply.Obeys (Parse.heading keyword name) (phrases (DerivesHeading keyword production)) := by
  refine Obeys.mono ?_ (heading_le keyword production)
  refine obeys_bind (obeys_expect (by simp) (by simp) (by simp) _) (fun token => ?_)
    (Language.append_mem_mul inhabited nil_mem_star)
  refine obeys_bind named (fun text => ?_) nil_mem_star
  exact obeys_map (obeys_many obeys_descriptionLine) _

end Headings

end Supply

end Gherkin
