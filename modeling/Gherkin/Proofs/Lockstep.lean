import Gherkin.Proofs.ChangedLines
import Gherkin.Proofs.Correspondence

/-!
Reading a document and a changed one side by side.

The readers of the two documents go through corresponding lines, and the second may besides meet
lines that mean nothing. Whenever both have handed out a token of the grammar, they are in modes that
differ by the change (`Beside`). An extra comment makes the second reader answer before the first one
moves at all, so the two keep step only as far as tokens of the grammar go. It follows that the
cursors over them answer alike, and `Change.parse_eq` compares the outcomes of parsing.
-/

namespace Gherkin

def Text.Ignored (text : Text) : Prop :=
  text.trimStart = [] ∨ text.trimStart.head? = some '#'

/-- A line that is read without a trace outside doc strings: it is blank, or it is a comment that
selects no language. -/
structure Mode.Skips (mode : Mode) (line : Line) : Prop where
  outside : mode.opened = none
  ignored : Text.Ignored line.content
  plain : mode.header? line = none

theorem Mode.Skips.read {mode : Mode} {line : Line} (skips : mode.Skips line) (setup : Setup) :
    mode.read setup line = (.ok [], mode) ∨ mode.read setup line = (.ok [line.commentToken], mode) := by
  rw [Mode.read, skips.outside, Line.shape]
  rcases skips.ignored with blank | comment
  · rw [Line.body, blank]
    exact Or.inl rfl
  · obtain ⟨rest, body⟩ := List.head?_eq_some_iff.mp comment
    rw [Line.body, body]
    right
    simp only [if_true, readShaped, readComment, skips.plain]

namespace Reader

variable {reader : Reader} {line : Line} {rest : List Line} {mode : Mode}
  (empty : reader.queue = []) (unread : reader.unread = line :: rest)

include empty unread

theorem next_of_error {error : LexError}
    (read : reader.mode.read reader.setup line = (.error error, mode)) :
    reader.next = (.error error, reader.passLine line mode [] rest) := by
  rw [next, empty]
  simp only [unread, pull, read]

theorem next_of_silent (read : reader.mode.read reader.setup line = (.ok [], mode)) :
    (reader.passLine line mode [] rest).next = reader.next := by
  have still : (reader.passLine line mode [] rest).queue = [] := empty
  rw [next, next, still, empty]
  simp only [unread, pull, read]
  rfl

theorem next_of_token {token : Token} {queue : List Token}
    (read : reader.mode.read reader.setup line = (.ok (token :: queue), mode)) :
    reader.next =
      (.ok token, (reader.passLine line mode (token :: queue) rest).handOut token queue) := by
  rw [next, empty]
  simp only [unread, pull, read]

theorem size_passLine : (reader.passLine line mode [] rest).size ≤ reader.size := by
  simp only [size, passLine, empty, unread, Line.capacity]
  omega

end Reader

namespace Change

variable {change : Change} {fails : ParseError → ParseError → Prop}

/-! The reader of the changed document may have comments to hand out that the other one knows nothing of.
Comments apart the two go on together. -/

/-- Lines to be read in the given mode, and the same lines changed with others in between that mean
nothing where they stand. What comes after an error does not matter. -/
inductive Alongside (change : Change) (setup : Setup) : Mode → List Line → List Line → Prop where
  | nil (mode : Mode) : Alongside change setup mode [] []
  | line {mode : Mode} {left right : Line} {lefts rights : List Line}
      (tells : change.TellsLine left right)
      (later : ∀ tokens after, mode.read setup left = (.ok tokens, after) →
        Alongside change setup after lefts rights) :
      Alongside change setup mode (left :: lefts) (right :: rights)
  | extra {mode : Mode} {line : Line} {lefts rights : List Line} (skips : mode.Skips line)
      (later : Alongside change setup mode lefts rights) :
      Alongside change setup mode lefts (line :: rights)

theorem skips_mode {mode : Mode} {line : Line} (skips : mode.Skips line) :
    (change.mode mode).Skips line where
  outside := by simp [Change.mode, skips.outside]
  ignored := skips.ignored
  plain := skips.plain

structure Beside (change : Change) (fails : ParseError → ParseError → Prop) (left right : Reader) :
    Prop where
  setup : right.setup = left.setup
  mode : right.mode = change.mode left.mode
  columns : ∀ block ∈ left.mode.blocks, 0 < block.location.column
  queue : List.Forall₂ (change.Tells fails) left.queue right.queue
  unread : change.Alongside left.setup left.mode left.unread right.unread
  finish : change.Tells fails ⟨.eof, [], left.finish⟩ ⟨.eof, [], right.finish⟩

def Answers (change : Change) (fails : ParseError → ParseError → Prop) :
    Except LexError Token × Reader → Except LexError Token × Reader → Prop
  | (.ok token, left), (.ok other, right) =>
      change.Tells fails token other ∧ change.Beside fails left right
  | (.error error, _), (.error other, _) => other = change.lexError error
  | _, _ => False

/-- What two readers can do when they are asked for a token: they keep step, or the second one hands
out a comment that the first one knows nothing of. -/
inductive Meets (change : Change) (fails : ParseError → ParseError → Prop) (left right : Reader) :
    Prop where
  | together (answers : change.Answers fails left.next right.next) : Meets change fails left right
  | comment {before after : Reader} {token : Token} (same : before.next = left.next)
      (smaller : before.size ≤ left.size) (given : right.next = (.ok token, after))
      (comment : token.kind = .comment) (beside : change.Beside fails before after) :
      Meets change fails left right

theorem Meets.of_next {before left after right : Reader} (meets : change.Meets fails before after)
    (leftSame : before.next = left.next) (smaller : before.size ≤ left.size)
    (rightSame : after.next = right.next) : change.Meets fails left right := by
  cases meets with
  | together answers =>
      rw [leftSame, rightSame] at answers
      exact .together answers
  | comment same less given comment beside =>
      exact .comment (same.trans leftSame) (Nat.le_trans less smaller) (rightSame ▸ given) comment beside

theorem columns_step {setup : Setup} {mode after : Mode} {line : Line} {tokens : List Token}
    (step : Mode.Step setup mode line tokens after)
    (columns : ∀ block ∈ mode.blocks, 0 < block.location.column) :
    ∀ block ∈ after.blocks, 0 < block.location.column := by
  cases step with
  | verbatim | blank | comment | header | content => exact columns
  | closing opening inside =>
      intro block member
      rcases Mode.mem_blocks.mp member with old | ⟨_, inside, _⟩
      · rcases List.mem_append.mp old with old | new
        · exact columns block (Mode.mem_blocks.mpr (Or.inl old))
        · rw [List.mem_singleton.mp new]
          exact columns ⟨opening, none⟩ (Mode.mem_blocks.mpr (Or.inr ⟨opening, inside, rfl⟩))
      · cases inside
  | opening delimiter outside =>
      intro block member
      rcases Mode.mem_blocks.mp member with old | ⟨opening, inside, rfl⟩
      · exact columns block (Mode.mem_blocks.mpr (Or.inl old))
      · cases inside
        exact Nat.succ_pos _

/-- Lines side by side lead to an answer of both readers, or to a comment that only one of them has. -/
theorem meets_pull {setup : Setup} {mode : Mode} {lefts rights : List Line}
    (alongside : change.Alongside setup mode lefts rights) (reports : change.Reports fails)
    (left right : Reader) (beside : change.Beside fails left right) (sameSetup : left.setup = setup)
    (sameMode : left.mode = mode) (leftUnread : left.unread = lefts)
    (rightUnread : right.unread = rights) (empty : left.queue = []) : change.Meets fails left right := by
  have rightEmpty : right.queue = [] := by
    have queue := beside.queue
    rw [empty] at queue
    exact List.forall₂_nil_left_iff.mp queue
  -- The induction is on how the lines stand beside each other. Behind a line that is silent on both sides,
  -- or one that only the right side has, the readers are beside each other again.
  induction alongside generalizing left right with
  | nil mode =>
      apply Meets.together
      have rightMode := beside.mode
      rw [Reader.next, Reader.next, empty, rightEmpty]
      simp only [leftUnread, rightUnread, Reader.pull, Reader.ending, rightMode, Change.mode]
      cases left.mode.opened with
      | some opening => exact rfl
      | none => exact ⟨beside.finish, beside⟩
  | @line mode line other lefts rights tells later ih =>
      subst sameSetup sameMode
      have yields := yields_read tells reports left.setup left.mode
      generalize leftRead : left.mode.read left.setup line = leftGiven at yields
      generalize rightRead : (change.mode left.mode).read left.setup other = rightGiven at yields
      rw [← beside.mode, ← beside.setup] at rightRead
      obtain ⟨leftResult, leftMode⟩ := leftGiven
      obtain ⟨rightResult, rightMode⟩ := rightGiven
      obtain ⟨tokens, modes⟩ := yields
      rcases leftResult with error | leftTokens <;> rcases rightResult with otherError | rightTokens
      · apply Meets.together
        rw [Reader.next_of_error empty leftUnread leftRead,
          Reader.next_of_error rightEmpty rightUnread rightRead]
        exact tokens
      · exact tokens.elim
      · exact tokens.elim
      · have columns := columns_step (Mode.step_of_read leftRead) beside.columns
        have further := later leftTokens leftMode leftRead
        cases (tokens : List.Forall₂ (change.Tells fails) leftTokens rightTokens) with
        | nil =>
            have passed : change.Beside fails (left.passLine line leftMode [] lefts)
                (right.passLine other rightMode [] rights) :=
              ⟨beside.setup, modes, columns, beside.queue, further, beside.finish⟩
            apply (ih [] leftMode leftRead _ _ passed rfl rfl rfl rfl empty rightEmpty).of_next
            · exact Reader.next_of_silent empty leftUnread leftRead
            · exact Reader.size_passLine empty leftUnread
            · exact Reader.next_of_silent rightEmpty rightUnread rightRead
        | cons first others =>
            apply Meets.together
            rw [Reader.next_of_token empty leftUnread leftRead,
              Reader.next_of_token rightEmpty rightUnread rightRead]
            exact ⟨first, beside.setup, modes, columns, others, further, beside.finish⟩
  | @extra mode line lefts rights skips later ih =>
      subst sameSetup sameMode
      have skipped : right.mode.read right.setup line = (.ok [], right.mode) ∨
          right.mode.read right.setup line = (.ok [line.commentToken], right.mode) := by
        rw [beside.mode]
        exact (skips_mode skips).read _
      rcases skipped with silent | comment
      · have passed : change.Beside fails left (right.passLine line right.mode [] rights) :=
          ⟨beside.setup, beside.mode, beside.columns, beside.queue, leftUnread ▸ later, beside.finish⟩
        apply (ih left _ passed rfl rfl leftUnread rfl empty rightEmpty).of_next rfl (Nat.le_refl _)
        exact Reader.next_of_silent rightEmpty rightUnread silent
      · apply Meets.comment rfl (Nat.le_refl _) (Reader.next_of_token rightEmpty rightUnread comment) rfl
        exact ⟨beside.setup, beside.mode, beside.columns, by rw [empty]; exact .nil,
          leftUnread ▸ later, beside.finish⟩

theorem meets_next (reports : change.Reports fails) {left right : Reader}
    (beside : change.Beside fails left right) : change.Meets fails left right := by
  have queue := beside.queue
  cases leftQueue : left.queue with
  | nil => exact meets_pull beside.unread reports left right beside rfl rfl rfl rfl leftQueue
  | cons token tokens =>
      rw [leftQueue] at queue
      obtain ⟨other, others, first, later, rightQueue⟩ := List.forall₂_cons_left_iff.mp queue
      apply Meets.together
      rw [Reader.next, Reader.next, leftQueue, rightQueue]
      exact ⟨first, beside.setup, beside.mode, beside.columns, later, beside.unread, beside.finish⟩

end Change

namespace Reader

variable {reader after : Reader} (fuel : Nat)

theorem nextUncommented_of_error {error : LexError} (given : reader.next = (.error error, after)) :
    reader.nextUncommented fuel = (.error error, after) := by
  cases fuel <;> simp [nextUncommented, given]

theorem nextUncommented_of_token {token : Token} (given : reader.next = (.ok token, after))
    (counts : token.kind ≠ .comment) : reader.nextUncommented fuel = (.ok token, after) := by
  cases fuel <;> simp [nextUncommented, given, counts]

theorem nextUncommented_of_comment {token : Token} (given : reader.next = (.ok token, after))
    (comment : token.kind = .comment) :
    reader.nextUncommented (fuel + 1) = after.nextUncommented fuel := by
  simp [nextUncommented, given, comment]

theorem nextUncommented_congr {other : Reader} (same : other.next = reader.next) :
    other.nextUncommented fuel = reader.nextUncommented fuel := by
  cases fuel <;> simp [nextUncommented, same]

/-- A comment takes up space in the document. -/
theorem size_of_comment {token : Token} (given : reader.next = (.ok token, after))
    (comment : token.kind = .comment) : after.size + 1 ≤ reader.size := by
  have pays := pays_next reader
  rw [given] at pays
  have paid : after.size + token.weight ≤ reader.size := pays
  rwa [Token.weight_of_kind comment (by decide)] at paid

end Reader

namespace Change

variable {change : Change} {fails : ParseError → ParseError → Prop}

theorem answers_nextUncommented (reports : change.Reports fails) {left right : Reader}
    (beside : change.Beside fails left right) (leftFuel rightFuel : Nat)
    (leftEnough : left.size ≤ leftFuel) (rightEnough : right.size ≤ rightFuel) :
    change.Answers fails (left.nextUncommented leftFuel) (right.nextUncommented rightFuel) := by
  -- The induction is on what the right reader has left, since only that one is sure to shrink when a comment
  -- stands on the right alone.
  induction bound : right.size using Nat.strongRecOn generalizing left right leftFuel rightFuel with
  | _ bound ih =>
      subst bound
      cases meets_next reports beside with
      | comment same smaller given comment further =>
          have room := Reader.size_of_comment given comment
          obtain ⟨rightFuel, rfl⟩ := Nat.exists_eq_succ_of_ne_zero (n := rightFuel) (by omega)
          rw [Reader.nextUncommented_of_comment rightFuel given comment,
            ← Reader.nextUncommented_congr leftFuel same]
          exact ih _ (by omega) further leftFuel rightFuel (by omega) (by omega) rfl
      | together answers =>
          generalize leftGiven : left.next = leftAnswer at answers
          generalize rightGiven : right.next = rightAnswer at answers
          match leftAnswer, rightAnswer with
          | (.error error, before), (.error otherError, after) =>
              rw [Reader.nextUncommented_of_error leftFuel leftGiven,
                Reader.nextUncommented_of_error rightFuel rightGiven]
              exact answers
          | (.error error, before), (.ok other, after) => exact answers.elim
          | (.ok token, before), (.error error, after) => exact answers.elim
          | (.ok token, before), (.ok other, after) =>
              obtain ⟨tells, further⟩ := answers
              by_cases comment : token.kind = .comment
              · have leftRoom := Reader.size_of_comment leftGiven comment
                have rightRoom := Reader.size_of_comment rightGiven (tells.kind.trans comment)
                obtain ⟨leftFuel, rfl⟩ := Nat.exists_eq_succ_of_ne_zero (n := leftFuel) (by omega)
                obtain ⟨rightFuel, rfl⟩ := Nat.exists_eq_succ_of_ne_zero (n := rightFuel) (by omega)
                rw [Reader.nextUncommented_of_comment leftFuel leftGiven comment,
                  Reader.nextUncommented_of_comment rightFuel rightGiven (tells.kind.trans comment)]
                exact ih _ (by omega) further leftFuel rightFuel (by omega) (by omega) rfl
              · rw [Reader.nextUncommented_of_token leftFuel leftGiven comment,
                  Reader.nextUncommented_of_token rightFuel rightGiven (tells.kind ▸ comment)]
                exact ⟨tells, further⟩

structure Abreast (change : Change) (fails : ParseError → ParseError → Prop) (left right : Cursor) :
    Prop where
  readers : change.Beside fails left.reader right.reader
  ahead : List.Forall₂ (change.Tells fails) left.ahead right.ahead
  leftFunded : left.Funded
  rightFunded : right.Funded

open Parse

theorem carries_fetch (reports : change.Reports fails) :
    Carries fails (change.Abreast fails) (change.Tells fails) fetch fetch := by
  intro left right abreast
  have leftMoves : Moves left (fetch left).2 := Moves.refl.fetch
  have rightMoves : Moves right (fetch right).2 := Moves.refl.fetch
  have leftFunded := leftMoves.funded abreast.leftFunded
  have rightFunded := rightMoves.funded abreast.rightFunded
  have answers := answers_nextUncommented reports abreast.readers left.limit right.limit
    (Nat.le_trans (Nat.le_add_right _ _) abreast.leftFunded)
    (Nat.le_trans (Nat.le_add_right _ _) abreast.rightFunded)
  unfold fetch at leftFunded rightFunded ⊢
  generalize left.reader.nextUncommented left.limit = leftAnswer at answers leftFunded ⊢
  generalize right.reader.nextUncommented right.limit = rightAnswer at answers rightFunded ⊢
  match leftAnswer, rightAnswer with
  | (.error error, before), (.error other, after) =>
      have mapped : other = change.lexError error := answers
      rw [mapped]
      exact reports.lex error
  | (.error error, before), (.ok other, after) => exact answers.elim
  | (.ok token, before), (.error error, after) => exact answers.elim
  | (.ok token, before), (.ok other, after) =>
      refine ⟨answers.1, answers.2, ?_, leftFunded, rightFunded⟩
      exact List.rel_append abreast.ahead (.cons answers.1 .nil)

theorem carries_peek (reports : change.Reports fails) :
    Carries fails (change.Abreast fails) (change.Tells fails) peek peek := by
  intro left right abreast
  rw [peek_apply, peek_apply]
  have ahead := abreast.ahead
  cases leftAhead : left.ahead with
  | nil =>
      rw [leftAhead] at ahead
      rw [List.forall₂_nil_left_iff.mp ahead]
      exact carries_fetch reports left right abreast
  | cons token tokens =>
      rw [leftAhead] at ahead
      obtain ⟨other, others, first, _, rightAhead⟩ := List.forall₂_cons_left_iff.mp ahead
      rw [rightAhead]
      exact ⟨first, abreast⟩

omit change fails in
/-- A token of a tag line takes up space in the document. -/
theorem size_of_fetch {cursor after : Cursor} {token : Token} (run : fetch cursor = (.ok token, after))
    (tag : inTags token = true) : after.reader.size < cursor.reader.size := by
  have proper : token.kind ≠ .eof := by
    intro ends
    rw [inTags, ends] at tag
    cases tag
  have pays := Reader.pays_nextUncommented cursor.limit cursor.reader
  unfold fetch at run
  split at run
  · rename_i found reader called
    cases run
    rw [called] at pays
    have paid : reader.size + token.weight ≤ cursor.reader.size := pays
    rw [Token.weight_of_kind rfl proper] at paid
    exact paid
  · cases run

theorem Tells.inTags_eq {token other : Token} (tells : change.Tells fails token other) :
    inTags other = inTags token := by
  rw [inTags, inTags, tells.kind]

theorem matches_fetchPastTags (reports : change.Reports fails) {left right : Cursor}
    (abreast : change.Abreast fails left right) (leftFuel rightFuel : Nat)
    (leftEnough : left.reader.size < leftFuel) (rightEnough : right.reader.size < rightFuel) :
    Matches fails (change.Abreast fails) (fun kind other => other = kind)
      (fetchPastTags leftFuel left) (fetchPastTags rightFuel right) := by
  induction leftFuel generalizing left right rightFuel with
  | zero => cases leftEnough
  | succ leftFuel ih =>
      obtain ⟨rightFuel, rfl⟩ := Nat.exists_eq_succ_of_ne_zero (Nat.ne_zero_of_lt rightEnough)
      apply matches_bind (carries_fetch reports left right abreast)
      intro token other middle last here there tells further
      rw [tells.inTags_eq]
      by_cases tag : inTags token = true
      · have less := size_of_fetch here tag
        have fewer := size_of_fetch there (tells.inTags_eq.trans tag)
        rw [if_pos tag, if_pos tag]
        exact ih further rightFuel (by omega) (by omega)
      · rw [if_neg tag, if_neg tag]
        exact ⟨tells.kind, further⟩

theorem find?_ahead {tokens others : List Token}
    (ahead : List.Forall₂ (change.Tells fails) tokens others) :
    (others.find? fun token => !inTags token).map (·.kind) =
      (tokens.find? fun token => !inTags token).map (·.kind) := by
  induction ahead with
  | nil => rfl
  | @cons token other _ _ tells _ ih =>
      rw [List.find?_cons, List.find?_cons, tells.inTags_eq]
      cases inTags token with
      | true => exact ih
      | false => exact congrArg some tells.kind

theorem carries_kindAfterTags (reports : change.Reports fails) :
    Carries fails (change.Abreast fails) (fun kind other => other = kind) kindAfterTags
      kindAfterTags := by
  intro left right abreast
  have found := find?_ahead abreast.ahead
  rw [kindAfterTags_apply, kindAfterTags_apply]
  cases leftFound : left.ahead.find? fun token => !inTags token with
  | some token =>
      rw [leftFound] at found
      obtain ⟨other, rightFound, kind⟩ := Option.map_eq_some_iff.mp found
      rw [rightFound]
      exact ⟨kind, abreast⟩
  | none =>
      rw [leftFound] at found
      rw [Option.map_eq_none_iff.mp found]
      apply matches_fetchPastTags reports abreast
      · exact Nat.lt_succ_of_le (Nat.le_trans (Nat.le_add_right _ _) abreast.leftFunded)
      · exact Nat.lt_succ_of_le (Nat.le_trans (Nat.le_add_right _ _) abreast.rightFunded)

def Rises (change : Change) : Prop :=
  ∀ first second, change.line first < change.line second ↔ first < second

section DocStrings

variable (rises : change.Rises) {left right : Reader} (modes : right.mode = change.mode left.mode)

include rises modes

theorem blockAt?_eq (line : Nat) :
    right.blockAt? (change.line line) = (left.blockAt? line).map change.block := by
  have same : ((fun block : Block => decide (block.location.line = change.line line)) ∘
      change.block) = fun block => decide (block.location.line = line) := by
    funext block
    have below := rises block.location.line line
    have above := rises line block.location.line
    have place : (change.block block).location.line = change.line block.location.line := rfl
    simp only [Function.comp_apply, place, decide_eq_decide]
    omega
  rw [Reader.blockAt?, modes, change.blocks_mode, List.find?_map, same]
  rfl

theorem blockOpenedIn?_eq (first stop : Nat) :
    right.blockOpenedIn? (change.line first + 1) (change.line stop) =
      (left.blockOpenedIn? (first + 1) stop).map change.block := by
  have same : ((fun block : Block => decide (change.line first + 1 ≤ block.location.line ∧
      block.location.line < change.line stop)) ∘ change.block) =
        fun block => decide (first + 1 ≤ block.location.line ∧ block.location.line < stop) := by
    funext block
    have after := rises first block.location.line
    have before := rises block.location.line stop
    have place : (change.block block).location.line = change.line block.location.line := rfl
    simp only [Function.comp_apply, place, decide_eq_decide]
    omega
  rw [Reader.blockOpenedIn?, modes, change.blocks_mode, List.find?_map, same]
  rfl

theorem within_closing (line number : Nat) :
    (∀ stop ∈ (left.blockAt? line).bind (·.closingLine), number ≤ stop) ↔
      ∀ stop ∈ (right.blockAt? (change.line line)).bind (·.closingLine),
        change.line number ≤ stop := by
  rw [blockAt?_eq rises modes]
  cases left.blockAt? line with
  | none => simp
  | some block =>
      have closing : (change.block block).closingLine = block.closingLine.map change.line := rfl
      cases stopped : block.closingLine with
      | none => simp [closing, stopped]
      | some stop =>
          have order := rises stop number
          simp only [Option.map_some, Option.bind_some, closing, stopped, Option.mem_some_iff,
            forall_eq']
          omega

end DocStrings

theorem corresponds_abreast (reports : change.Reports fails) (rises : change.Rises) :
    Corresponds change fails (change.Abreast fails) where
  grammar := reports.grammar
  peek := carries_peek reports
  consume left right abreast _ := by
    constructor
    case readers => exact abreast.readers
    case ahead =>
        have later := List.forall₂_drop 1 abreast.ahead
        rwa [List.drop_one, List.drop_one] at later
    case leftFunded => exact Moves.refl.consume.funded abreast.leftFunded
    case rightFunded => exact Moves.refl.consume.funded abreast.rightFunded
  kindAfterTags := carries_kindAfterTags reports
  fuel left right abreast := Or.inr ⟨abreast.leftFunded, abreast.rightFunded⟩
  dialect left right abreast := by rw [abreast.readers.mode]; rfl
  language left right abreast := by rw [Reader.language, abreast.readers.mode]; rfl
  opened left right abreast token other rest more leftAhead rightAhead line := by
    have ahead := abreast.ahead
    rw [leftAhead, rightAhead] at ahead
    have tells := (List.forall₂_cons.mp ahead).1
    rw [tells.line, blockOpenedIn?_eq rises abreast.readers.mode, Option.map_map]
    rfl
  closing left right abreast token other rest more leftAhead rightAhead _ line := by
    have ahead := abreast.ahead
    rw [leftAhead, rightAhead] at ahead
    have tells := (List.forall₂_cons.mp ahead).1
    rw [tells.line]
    exact within_closing rises abreast.readers.mode line token.location.line
  column _ left right abreast := abreast.readers.columns

theorem mode_initial (change : Change) (setup : Setup) :
    change.mode (.initial setup) = .initial setup :=
  rfl

theorem alongside_of_forall₂ {setup : Setup} {lefts rights : List Line}
    (tells : List.Forall₂ change.TellsLine lefts rights) (mode : Mode) :
    change.Alongside setup mode lefts rights := by
  induction tells generalizing mode with
  | nil => exact .nil mode
  | cons first _ ih => exact .line first fun _ after _ => ih after

/-- Both documents are accepted and the features differ by the change, or both are rejected. -/
def Outcomes (change : Change) (fails : ParseError → ParseError → Prop) :
    Except ParseError Feature → Except ParseError Feature → Prop
  | .ok feature, .ok other => other = change.feature feature
  | .error error, .error other => fails error other
  | _, _ => False

theorem outcomes_of_matches {related : Cursor → Cursor → Prop}
    {left right : Except ParseError Feature × Cursor}
    (same : Matches fails related (fun found other => other = change.feature found) left right) :
    change.Outcomes fails left.1 right.1 := by
  obtain ⟨error | feature, before⟩ := left <;> obtain ⟨otherError | otherFeature, after⟩ := right
  · exact same
  · exact same.elim
  · exact same.elim
  · exact same.1

/-- If the lines of two documents differ by a change, so do the outcomes of parsing them. The end of
the second document may stand anywhere on its line, as far as errors are allowed to say so. -/
theorem outcomes_parse (reports : change.Reports fails) (rises : change.Rises) {setup : Setup}
    {text other : Text}
    (alongside : change.Alongside setup (.initial setup) (Line.split text) (Line.split other))
    (ends : change.Tells fails ⟨.eof, [], Line.finish (Line.split text)⟩
      ⟨.eof, [], Line.finish (Line.split other)⟩) :
    change.Outcomes fails (parse setup text) (parse setup other) := by
  have beside : change.Beside fails (.start setup text) (.start setup other) :=
    ⟨rfl, (change.mode_initial setup).symm, by simp [Reader.start, Mode.initial, Mode.blocks], .nil,
      alongside, ends⟩
  have same := carries_feature (corresponds_abreast reports rises)
    (.ofReader (.start setup text)) (.ofReader (.start setup other))
    ⟨beside, .nil, Cursor.funded_ofReader _, Cursor.funded_ofReader _⟩
  rw [parse_eq_feature, parse_eq_feature]
  exact outcomes_of_matches same

/-- If the end of the document moves with its lines, all errors do. -/
theorem parse_eq (change : Change) (rises : change.Rises) {setup : Setup} {text other : Text}
    (alongside : change.Alongside setup (.initial setup) (Line.split text) (Line.split other))
    (finish : Line.finish (Line.split other) = change.location (Line.finish (Line.split text))) :
    parse setup other = change.parsed (parse setup text) := by
  have ends : change.Tells (fun left right => right = change.parseError left)
      ⟨.eof, [], Line.finish (Line.split text)⟩ ⟨.eof, [], Line.finish (Line.split other)⟩ := by
    rw [finish]
    exact change.reports_parseError.tells _ _ nofun
  have outcomes := outcomes_parse change.reports_parseError rises alongside ends
  cases here : parse setup text <;> cases there : parse setup other <;> rw [here, there] at outcomes
  · exact congrArg Except.error outcomes
  · exact outcomes.elim
  · exact outcomes.elim
  · exact congrArg Except.ok outcomes

end Change

end Gherkin
