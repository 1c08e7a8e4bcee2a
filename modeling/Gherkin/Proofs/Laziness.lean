import Gherkin.Proofs.Agreement
import Gherkin.Proofs.Layout

/-!
Reading ahead or reading everything.

The grammar asks the reader for tokens only when it needs them, and asks it about doc strings and
keywords in between. The result is the same as if all tokens had been read first and every
question were put to the reader at the end of the document: `Lags` relates the two cursors at every
moment of the two runs. A document with an error in it is never accepted, and if its error is
reported at all it is the first.
-/

namespace Gherkin

def isComment (token : Token) : Bool :=
  token.kind = .comment

theorem uncommented_dropWhile (tokens : List Token) :
    uncommented (tokens.dropWhile isComment) = uncommented tokens := by
  induction tokens with
  | nil => rfl
  | cons token rest ih =>
      by_cases comment : token.kind = .comment
      · rw [List.dropWhile_cons_of_pos (by simp [isComment, comment]), ih]
        simp [uncommented, comment]
      · rw [List.dropWhile_cons_of_neg (by simp [isComment, comment])]

theorem kind_of_dropWhile (tokens rest : List Token) (token : Token)
    (starts : tokens.dropWhile isComment = token :: rest) : token.kind ≠ .comment := by
  have stopped := List.head?_dropWhile_not isComment tokens
  rw [starts] at stopped
  simpa [isComment] using stopped

namespace Reader

variable {reader : Reader} {number : Nat} {tokens : List Token} {result : Except LexError Mode}

theorem Holds.grows {last : Mode} (holds : Holds reader number tokens (.ok last)) :
    Mode.Grows number reader.mode last := by
  obtain ⟨later, _, reads⟩ := holds.reads
  obtain ⟨run, ended⟩ := reads.run
  exact run.grows ended holds.numbered

theorem Done.holds {last : Mode} (done : Done reader last) (number : Nat) :
    Holds reader number [] (.ok last) where
  reads := by
    refine ⟨[], by rw [done.queue]; rfl, ?_⟩
    rw [done.unread, done.reached]
    have ending : last.ending = .ok last := by rw [Mode.ending, done.outside]
    exact ending ▸ Mode.Reads.done last
  numbered := by rw [done.unread]; trivial
  queued := by simp [done.queue]
  begun some := absurd done.queue some
  settled inside := by simp [done.reached, done.outside] at inside

theorem answer_nextUncommented (holds : Holds reader number tokens result) (fuel : Nat)
    (enough : reader.size ≤ fuel) :
    Answer reader number (tokens.dropWhile isComment) result (reader.nextUncommented fuel) := by
  induction fuel generalizing reader number tokens with
  | zero =>
      have empty : tokens = [] := by
        have bound := holds.length_le
        exact List.eq_nil_of_length_eq_zero (by omega)
      rw [empty] at holds ⊢
      exact answer_next holds
  | succ fuel ih =>
      have answer := answer_next holds
      rw [nextUncommented]
      generalize called : reader.next = given at answer
      cases answer with
      | @token token tokens _ after next holds later line begun continues smaller =>
          simp only
          by_cases comment : token.kind = .comment
          · rw [if_pos comment, List.dropWhile_cons_of_pos (by simp [isComment, comment])]
            exact (ih holds (by omega)).of_skipped later continues (Nat.le_of_lt smaller)
          · rw [if_neg comment, List.dropWhile_cons_of_neg (by simp [isComment, comment])]
            exact Answer.token holds later line begun continues smaller
      | failure error after => exact Answer.failure error after
      | ending done continues => exact Answer.ending done continues

theorem Done.size {last : Mode} (done : Done reader last) : reader.size = 0 := by
  rw [Reader.size, done.queue, done.unread]
  rfl

/-- At the end of a document there is nothing but its end. -/
theorem Done.nextUncommented {last : Mode} (done : Done reader last) (fuel : Nat) :
    ∃ after, reader.nextUncommented fuel = (.ok ⟨.eof, [], reader.finish⟩, after) ∧
      Done after last ∧ Continues reader after := by
  have answer := answer_nextUncommented (done.holds 0) fuel (done.size ▸ Nat.zero_le fuel)
  generalize called : reader.nextUncommented fuel = given at answer
  cases answer with
  | ending done continues => exact ⟨_, rfl, done, continues⟩

end Reader

/-! One cursor fetches tokens as it goes and the other has them all. The first is behind, but never by a token
that the grammar has asked for. -/

/-- How far a cursor that reads as it goes has come, compared with one that holds all tokens up to
the end of the document. The mode at that end is `last`. -/
inductive Behind (last : Mode) (left right : Cursor) : Prop where
  | reading {number : Nat} {tokens : List Token}
      (holds : left.reader.Holds number tokens (.ok last))
      (seen : ∀ token ∈ left.ahead, token.location.line < number)
      (rest : right.ahead = left.ahead ++ (uncommented tokens ++ [⟨.eof, [], left.reader.finish⟩]))
  | finished (done : left.reader.Done last) (same : right.ahead = left.ahead)

structure Lags (last : Mode) (left right : Cursor) : Prop where
  limit : left.limit = right.limit
  size : left.reader.size ≤ left.limit
  done : right.reader.Done last
  finish : right.reader.finish = left.reader.finish
  behind : Behind last left right

def Fixed (last : Mode) (cursor : Cursor) : Prop :=
  cursor.reader.mode.headerAllowed = false ∨ cursor.reader.mode = last

section Lagging

open Parse

variable {last : Mode} {left right : Cursor}

theorem Lags.ahead (lags : Lags last left right) : ∃ more, right.ahead = left.ahead ++ more := by
  cases lags.behind with
  | reading _ _ rest => exact ⟨_, rest⟩
  | finished _ same => exact ⟨[], by rw [same, List.append_nil]⟩

/-- Fetching one more token lets the left cursor catch up by that token. -/
theorem Lags.fetch (lags : Lags last left right) {number : Nat} {tokens : List Token}
    (holds : left.reader.Holds number tokens (.ok last))
    (seen : ∀ token ∈ left.ahead, token.location.line < number)
    (rest : right.ahead = left.ahead ++ (uncommented tokens ++ [⟨.eof, [], left.reader.finish⟩])) :
    ∃ token after, fetch left = (.ok token, after) ∧ after.ahead = left.ahead ++ [token] ∧
      Lags last after right ∧ Fixed last after ∧
      (token.kind = .eof ∨ after.reader.size < left.reader.size ∧
        ∃ number tokens, after.reader.Holds number tokens (.ok last) ∧
          (∀ token ∈ after.ahead, token.location.line < number) ∧
          right.ahead =
            after.ahead ++ (uncommented tokens ++ [⟨.eof, [], after.reader.finish⟩])) := by
  have answer := Reader.answer_nextUncommented holds left.limit lags.size
  have same := uncommented_dropWhile tokens
  generalize start : tokens.dropWhile isComment = dropped at answer same
  generalize called : left.reader.nextUncommented left.limit = given at answer
  cases answer with
  | @token token tokens' _ reader next held later line begun continues smaller =>
      have counts := kind_of_dropWhile tokens tokens' token start
      have first : uncommented (token :: tokens') = token :: uncommented tokens' := by
        simp [uncommented, counts]
      -- The comments that were skipped are no tokens for the right cursor either.
      have further : right.ahead = (left.ahead ++ [token]) ++
          (uncommented tokens' ++ [⟨.eof, [], reader.finish⟩]) := by
        rw [rest, ← same, first, continues.finish]
        simp
      have known : ∀ other ∈ left.ahead ++ [token], other.location.line < next := by
        intro other member
        rcases List.mem_append.mp member with old | new
        · exact Nat.lt_of_lt_of_le (seen other old) later
        · rw [List.mem_singleton.mp new]
          exact line
      refine ⟨token, { left with reader, ahead := left.ahead ++ [token] }, ?_, rfl,
        ⟨lags.limit, ?_, lags.done, ?_, Behind.reading held known further⟩, Or.inl (begun counts),
        Or.inr ⟨smaller, next, tokens', held, known, further⟩⟩
      · rw [Parse.fetch, called]
      · exact Nat.le_of_lt (Nat.lt_of_lt_of_le smaller lags.size)
      · exact lags.finish.trans continues.finish.symm
  | @ending _ reader done continues =>
      refine ⟨⟨.eof, [], left.reader.finish⟩,
        { left with reader, ahead := left.ahead ++ [⟨.eof, [], left.reader.finish⟩] }, ?_, rfl,
        ⟨lags.limit, ?_, lags.done, lags.finish.trans continues.finish.symm,
          Behind.finished done ?_⟩, Or.inr done.reached, Or.inl rfl⟩
      · rw [Parse.fetch, called]
      · rw [done.size]
        exact Nat.zero_le _
      · rw [rest, ← same]
        rfl

/-- At the end of the document both cursors fetch its end once more. -/
theorem Lags.fetch_finished (lags : Lags last left right) (done : left.reader.Done last)
    (same : right.ahead = left.ahead) :
    ∃ token first second, Parse.fetch left = (.ok token, first) ∧
      Parse.fetch right = (.ok token, second) ∧ token.kind = .eof ∧
      first.ahead = left.ahead ++ [token] ∧ Lags last first second ∧ Fixed last first := by
  obtain ⟨reader, called, ended, continues⟩ := done.nextUncommented left.limit
  obtain ⟨other, otherCalled, otherEnded, otherContinues⟩ := lags.done.nextUncommented right.limit
  refine ⟨⟨.eof, [], left.reader.finish⟩,
    { left with reader, ahead := left.ahead ++ [⟨.eof, [], left.reader.finish⟩] },
    { right with reader := other, ahead := right.ahead ++ [⟨.eof, [], left.reader.finish⟩] },
    ?_, ?_, rfl, rfl, ⟨lags.limit, ?_, otherEnded, ?_, Behind.finished ended ?_⟩,
    Or.inr ended.reached⟩
  · rw [Parse.fetch, called]
  · rw [Parse.fetch, otherCalled, lags.finish]
  · rw [ended.size]
    exact Nat.zero_le _
  · rw [otherContinues.finish, continues.finish]
    exact lags.finish
  · rw [same]

def Lagging (last : Mode) (left right : Cursor) : Prop :=
  Lags last left right ∧ Fixed last left

theorem Lags.peek {allowed : ParseError → Prop} (lags : Lags last left right)
    (fixed : left.ahead ≠ [] → Fixed last left) :
    Same (Lagging last) allowed (Parse.peek left) (Parse.peek right) := by
  cases ahead : left.ahead with
  | cons token rest =>
      obtain ⟨more, whole⟩ := lags.ahead
      rw [ahead, List.cons_append] at whole
      rw [peek_cons left token rest ahead, peek_cons right token _ whole]
      exact ⟨rfl, lags, fixed (by simp [ahead])⟩
  | nil =>
      cases lags.behind with
      | reading holds seen rest =>
          obtain ⟨token, after, fetched, added, further, known, _⟩ := lags.fetch holds seen rest
          obtain ⟨more, whole⟩ := further.ahead
          rw [added, ahead, List.nil_append, List.singleton_append] at whole
          rw [peek_apply, ahead, peek_cons right token more whole]
          simp only [fetched]
          exact ⟨rfl, further, known⟩
      | finished done same =>
          obtain ⟨token, first, second, here, there, _, _, further, known⟩ :=
            lags.fetch_finished done same
          rw [peek_apply, peek_apply, same, ahead]
          simp only [here, there]
          exact ⟨rfl, further, known⟩

/-- The left cursor goes on until it has the first token past the tags, which the right one holds
already. -/
theorem Lags.fetchPastTags (lags : Lags last left right) {number : Nat} {tokens : List Token}
    (holds : left.reader.Holds number tokens (.ok last))
    (seen : ∀ token ∈ left.ahead, token.location.line < number)
    (rest : right.ahead = left.ahead ++ (uncommented tokens ++ [⟨.eof, [], left.reader.finish⟩]))
    (tags : left.ahead.find? (fun token => !inTags token) = none) (fuel : Nat)
    (enough : left.reader.size < fuel) :
    ∃ token after, Parse.fetchPastTags fuel left = (.ok token.kind, after) ∧
      right.ahead.find? (fun token => !inTags token) = some token ∧ Lagging last after right := by
  induction fuel generalizing left number tokens with
  | zero => cases enough
  | succ fuel ih =>
      obtain ⟨token, after, fetched, added, further, known, next⟩ := lags.fetch holds seen rest
      rw [fetchPastTags_apply, fetched]
      by_cases tag : inTags token = true
      · rcases next with eof | ⟨smaller, number, tokens, holds, seen, rest⟩
        · simp [inTags, eof] at tag
        · simp only [tag, if_true]
          refine ih further holds seen rest ?_ (by omega)
          rw [added, List.find?_append, tags]
          simp [tag]
      · refine ⟨token, after, by simp [tag], ?_, further, known⟩
        obtain ⟨more, whole⟩ := further.ahead
        rw [whole, added, List.find?_append, List.find?_append, tags]
        simp [tag]

theorem Lags.kindAfterTags {allowed : ParseError → Prop} (lags : Lags last left right)
    (fixed : Fixed last left) :
    Same (Lagging last) allowed (Parse.kindAfterTags left) (Parse.kindAfterTags right) := by
  rw [kindAfterTags_apply, kindAfterTags_apply]
  cases found : left.ahead.find? fun token => !inTags token with
  | some token =>
      obtain ⟨more, whole⟩ := lags.ahead
      have there : right.ahead.find? (fun token => !inTags token) = some token := by
        rw [whole, List.find?_append, found]
        rfl
      simp only [there]
      exact ⟨rfl, lags, fixed⟩
  | none =>
      cases lags.behind with
      | reading holds seen rest =>
          obtain ⟨token, after, fetched, there, further⟩ := lags.fetchPastTags holds seen rest found
            (left.limit + 1) (Nat.lt_succ_of_le lags.size)
          simp only [fetched, there]
          exact ⟨rfl, further⟩
      | finished done same =>
          obtain ⟨token, first, second, here, there, eof, _, further, known⟩ :=
            lags.fetch_finished done same
          have past : inTags token = false := by simp [inTags, eof]
          simp only [same, found, fetchPastTags_apply, here, there, past]
          exact ⟨rfl, further, known⟩

theorem blocks_of_outside (mode : Mode) (outside : mode.opened = none) :
    mode.blocks = mode.closed := by
  simp [Mode.blocks, outside]

/-- What is known of doc strings before the line `number` is what will be known in the end. -/
theorem openings_of_grows {number : Nat} {mode : Mode} (grows : Mode.Grows number mode last)
    (outside : last.opened = none) :
    ∃ later, last.blocks.map (·.toOpening) = mode.blocks.map (·.toOpening) ++ later ∧
      ∀ opening ∈ later, number ≤ opening.location.line := by
  obtain ⟨finished, later, split, idle, closes, fresh⟩ := grows.blocks
  refine ⟨later.map (·.toOpening), ?_, ?_⟩
  · rw [blocks_of_outside last outside, split, Mode.blocks]
    cases inside : mode.opened with
    | none => simp [idle inside]
    | some opening =>
        obtain ⟨closing, _, made⟩ := closes opening inside
        simp [made]
  · intro opening member
    obtain ⟨block, held, same⟩ := List.mem_map.mp member
    rw [← same]
    exact fresh block held

theorem Lags.opened (lags : Lags last left right) (token : Token) (rest : List Token)
    (ahead : left.ahead = token :: rest) (first : Nat) :
    (left.reader.blockOpenedIn? first token.location.line).map (·.toOpening) =
      (right.reader.blockOpenedIn? first token.location.line).map (·.toOpening) := by
  have byOpening : ∀ reader : Reader,
      (reader.blockOpenedIn? first token.location.line).map (·.toOpening) =
        (reader.mode.blocks.map (·.toOpening)).find? fun opening =>
          first ≤ opening.location.line ∧ opening.location.line < token.location.line := by
    intro reader
    rw [List.find?_map]
    rfl
  rw [byOpening, byOpening, lags.done.reached]
  cases lags.behind with
  | reading holds seen _ =>
      obtain ⟨later, split, fresh⟩ := openings_of_grows holds.grows lags.done.outside
      have before := seen token (by simp [ahead])
      have none : later.find? (fun opening =>
          decide (first ≤ opening.location.line ∧ opening.location.line < token.location.line)) =
            none := by
        refine List.find?_eq_none.mpr ?_
        intro opening member
        have beyond := fresh opening member
        simp only [decide_eq_true_eq]
        omega
      rw [split, List.find?_append, none, Option.or_none]
  | finished done _ => rw [done.reached]

theorem Lags.closing (lags : Lags last left right)
    (ordered : ∀ block ∈ last.closed,
      block.closingLine = some block.stop ∧ block.location.line < block.stop)
    (token : Token) (rest : List Token) (ahead : left.ahead = token :: rest) (line : Nat) :
    (∀ stop ∈ (left.reader.blockAt? line).bind (·.closingLine), token.location.line ≤ stop) ↔
      ∀ stop ∈ (right.reader.blockAt? line).bind (·.closingLine), token.location.line ≤ stop := by
  unfold Reader.blockAt?
  rw [lags.done.reached, blocks_of_outside last lags.done.outside]
  cases lags.behind with
  | finished done _ => rw [done.reached, blocks_of_outside last done.outside]
  | reading holds seen _ =>
      have before := seen token (by simp [ahead])
      obtain ⟨finished, later, split, idle, closes, fresh⟩ := holds.grows.blocks
      rw [split, List.append_assoc, Mode.blocks, List.find?_append, List.find?_append]
      cases left.reader.mode.closed.find? fun block => block.location.line = line with
      | some block => rfl
      | none =>
          -- A doc string that is not closed yet ends only after the token.
          refine ⟨fun _ stop found => ?_, fun _ stop found => ?_⟩
          · obtain ⟨block, held, closed⟩ := Option.bind_eq_some_iff.mp found
            have member : block ∈ finished ++ later := List.mem_of_find?_eq_some held
            rcases List.mem_append.mp member with current | new
            · cases inside : left.reader.mode.opened with
              | none => simp [idle inside] at current
              | some opening =>
                  obtain ⟨closing, beyond, made⟩ := closes opening inside
                  rw [made, List.mem_singleton] at current
                  rw [current] at closed
                  cases closed
                  omega
            · have beyond := fresh block new
              have order := ordered block (by rw [split]; simp [new])
              rw [order.1] at closed
              cases closed
              omega
          · obtain ⟨block, held, closed⟩ := Option.bind_eq_some_iff.mp found
            have member := List.mem_of_find?_eq_some held
            cases inside : left.reader.mode.opened with
            | none => simp [inside] at member
            | some opening =>
                simp only [inside, Option.map_some, Option.toList_some, List.mem_singleton] at member
                rw [member] at closed
                cases closed

def OfGrammar (error : ParseError) : Prop :=
  ∃ cause, error = .grammar cause

theorem faithful_lagging (last : Mode)
    (ordered : ∀ block ∈ last.closed,
      block.closingLine = some block.stop ∧ block.location.line < block.stop) :
    Faithful (Lagging last) OfGrammar where
  grammar cause := ⟨cause, rfl⟩
  peek left right kept := kept.1.peek fun _ => kept.2
  consume left right kept some := by
    obtain ⟨lags, fixed⟩ := kept
    refine ⟨⟨lags.limit, lags.size, lags.done, lags.finish, ?_⟩, fixed⟩
    obtain ⟨token, rest, ahead⟩ := List.exists_cons_of_ne_nil some
    cases lags.behind with
    | reading holds seen whole =>
        refine Behind.reading holds (fun other member => seen other (List.mem_of_mem_tail member)) ?_
        simp only [consumed, whole, ahead, List.cons_append, List.tail_cons]
    | finished done same => exact Behind.finished done (congrArg List.tail same)
  kindAfterTags left right kept := kept.1.kindAfterTags kept.2
  limit left right kept := kept.1.limit
  dialect left right kept := by
    obtain ⟨lags, fixed⟩ := kept
    rw [lags.done.reached]
    -- Once a token was fetched headers are over, so the dialect does not change while the reader goes on.
    rcases fixed with begun | same
    · cases lags.behind with
      | reading holds => exact (holds.grows.dialect begun).symm
      | finished done => rw [done.reached]
    · rw [same]
  language left right kept := by
    obtain ⟨lags, fixed⟩ := kept
    rw [Reader.language, Reader.language, lags.done.reached]
    rcases fixed with begun | same
    · cases lags.behind with
      | reading holds => exact (holds.grows.language begun).symm
      | finished done => rw [done.reached]
    · rw [same]
  opened left right kept token rest ahead first := kept.1.opened token rest ahead first
  closing left right kept token rest ahead _ line := kept.1.closing ordered token rest ahead line

end Lagging

namespace Parse

variable {α β : Type}

theorem bind_congr_at (first : Parse α) (next : α → Parse β) (left right : Cursor)
    (same : first left = first right) : (first >>= next) left = (first >>= next) right := by
  rw [bind_apply, bind_apply, same]

theorem takeIf_of_peek (kind : TokenKind) (cursor after : Cursor) (token : Token)
    (peeked : peek cursor = (.ok token, after)) : takeIf kind cursor = takeIf kind after := by
  obtain ⟨rest, ahead⟩ := ahead_of_peek cursor after token peeked
  rw [takeIf_apply, takeIf_apply, peeked, peek_cons after token rest ahead]

theorem limit_of_peek (cursor after : Cursor) (token : Token)
    (peeked : peek cursor = (.ok token, after)) : after.limit = cursor.limit := by
  rw [peek_apply] at peeked
  split at peeked
  · cases peeked
    rfl
  · unfold fetch at peeked
    split at peeked
    · cases peeked
      rfl
    · cases peeked

/-- A document starts with a look at its first token, which may as well come before. -/
theorem feature_of_peek (cursor after : Cursor) (token : Token)
    (peeked : peek cursor = (.ok token, after)) : feature cursor = feature after := by
  apply bind_congr_at tags _ cursor after
  rw [tags, many_apply, many_apply, limit_of_peek cursor after token peeked]
  refine bind_congr_at _ _ cursor after (bind_congr_at tag _ cursor after ?_)
  exact bind_congr_at _ _ cursor after (takeIf_of_peek .tag cursor after token peeked)

end Parse

/-! In front of an error nothing is the end of a document, so the grammar cannot come to its own end there. -/

/-- The document has an error ahead, and nothing up to it is an end. -/
structure Failing (error : LexError) (cursor : Cursor) : Prop where
  size : cursor.reader.size ≤ cursor.limit
  held : ∃ number tokens, cursor.reader.Holds number tokens (.error error) ∧
    ∀ token ∈ tokens, token.kind ≠ .eof
  ahead : ∀ token ∈ cursor.ahead, token.kind ≠ .eof

section Failures

open Parse

variable {error : LexError} {cursor : Cursor}

def Reported (error : LexError) (reported : ParseError) : Prop :=
  ∀ other, reported = .lex other → other = error

theorem Failing.fetch (failing : Failing error cursor) :
    (∃ token after, Parse.fetch cursor = (.ok token, after) ∧ Failing error after ∧
      after.ahead = cursor.ahead ++ [token] ∧ after.reader.size < cursor.reader.size) ∨
    ∃ after, Parse.fetch cursor = (.error (.lex error), after) := by
  obtain ⟨number, tokens, holds, proper⟩ := failing.held
  have answer := Reader.answer_nextUncommented holds cursor.limit failing.size
  have kept : ∀ token ∈ tokens.dropWhile isComment, token.kind ≠ .eof :=
    fun token member => proper token ((List.dropWhile_sublist isComment).subset member)
  generalize tokens.dropWhile isComment = dropped at answer kept
  generalize called : cursor.reader.nextUncommented cursor.limit = given at answer
  cases answer with
  | @token token rest _ reader next held later line begun continues smaller =>
      refine Or.inl ⟨token, { cursor with reader, ahead := cursor.ahead ++ [token] },
        by rw [Parse.fetch, called], ⟨?_, ?_, ?_⟩, rfl, smaller⟩
      · exact Nat.le_of_lt (Nat.lt_of_lt_of_le smaller failing.size)
      · exact ⟨next, rest, held, fun other member => kept other (List.mem_cons_of_mem token member)⟩
      · intro other member
        rcases List.mem_append.mp member with old | new
        · exact failing.ahead other old
        · rw [List.mem_singleton.mp new]
          exact kept token List.mem_cons_self
  | failure _ reader =>
      exact Or.inr ⟨{ cursor with reader }, by rw [Parse.fetch, called]⟩

theorem Failing.peek (failing : Failing error cursor) :
    Same (Keeping (Failing error)) (Reported error) (Parse.peek cursor) (Parse.peek cursor) := by
  rw [peek_apply]
  cases ahead : cursor.ahead with
  | cons token rest => exact ⟨rfl, rfl, failing⟩
  | nil =>
      rcases failing.fetch with ⟨token, after, fetched, further, _⟩ | ⟨after, fetched⟩
      · simp only [fetched]
        exact ⟨rfl, rfl, further⟩
      · simp only [fetched]
        exact ⟨rfl, fun other same => (ParseError.lex.inj same).symm⟩

theorem Failing.fetchPastTags (failing : Failing error cursor) (fuel : Nat)
    (enough : cursor.reader.size < fuel) :
    Same (Keeping (Failing error)) (Reported error) (Parse.fetchPastTags fuel cursor)
      (Parse.fetchPastTags fuel cursor) := by
  induction fuel generalizing cursor with
  | zero => cases enough
  | succ fuel ih =>
      rw [fetchPastTags_apply]
      rcases failing.fetch with ⟨token, after, fetched, further, _, smaller⟩ | ⟨after, fetched⟩
      · simp only [fetched]
        split
        · exact ih further (by omega)
        · exact ⟨rfl, rfl, further⟩
      · simp only [fetched]
        exact ⟨rfl, fun other same => (ParseError.lex.inj same).symm⟩

theorem faithful_failing (error : LexError) :
    Faithful (Keeping (Failing error)) (Reported error) where
  grammar _ _ same := by cases same
  peek := by
    rintro cursor _ ⟨rfl, failing⟩
    exact failing.peek
  consume := by
    rintro cursor _ ⟨rfl, failing⟩ _
    exact ⟨rfl, failing.size, failing.held,
      fun token member => failing.ahead token (List.mem_of_mem_tail member)⟩
  kindAfterTags := by
    rintro cursor _ ⟨rfl, failing⟩
    rw [kindAfterTags_apply]
    split
    · exact ⟨rfl, rfl, failing⟩
    · exact failing.fetchPastTags _ (Nat.lt_succ_of_le failing.size)
  limit := by rintro cursor _ ⟨rfl, _⟩; rfl
  dialect := by rintro cursor _ ⟨rfl, _⟩; rfl
  language := by rintro cursor _ ⟨rfl, _⟩; rfl
  opened := by rintro cursor _ ⟨rfl, _⟩ token rest _ first; rfl
  closing := by rintro cursor _ ⟨rfl, _⟩ token rest _ _ line; rfl

/-- A document with an error is not accepted: its end is never reached. -/
theorem Failing.feature_ne_ok (failing : Failing error cursor) (feature : Feature)
    (after : Cursor) : Parse.feature cursor ≠ (.ok feature, after) := by
  intro run
  have faithful := faithful_failing error
  obtain ⟨tags, first, tagged, run⟩ := (bind_eq_ok _ _ _ _ _).mp run
  obtain ⟨heading, second, headed, run⟩ := (bind_eq_ok _ _ _ _ _).mp run
  obtain ⟨background, third, grounded, run⟩ := (bind_eq_ok _ _ _ _ _).mp run
  obtain ⟨children, fourth, filled, run⟩ := (bind_eq_ok _ _ _ _ _).mp run
  obtain ⟨rules, fifth, ruled, run⟩ := (bind_eq_ok _ _ _ _ _).mp run
  obtain ⟨eof, sixth, ended, _⟩ := (bind_eq_ok _ _ _ _ _).mp run
  have one := (agree_tags faithful).ok_of_keeping _ _ _ failing tagged
  have two := (agree_featureHeading faithful).ok_of_keeping _ _ _ one headed
  have three := (agree_background faithful).ok_of_keeping _ _ _ two grounded
  have four := (agree_definitions faithful).ok_of_keeping _ _ _ three filled
  have five := (agree_rules faithful).ok_of_keeping _ _ _ four ruled
  rw [expect_apply] at ended
  split at ended
  · rename_i token middle peeked
    obtain ⟨rest, ahead⟩ := ahead_of_peek fifth middle token peeked
    have six := faithful.peek.ok_of_keeping _ _ _ five peeked
    have proper := six.ahead token (by simp [ahead])
    rw [if_neg proper] at ended
    cases ended
  · cases ended

end Failures

/-- A cursor over all tokens of a document, with the reader where they have all been read. -/
def Cursor.complete (setup : Setup) (text : Text) (tokens : List Token) : Cursor where
  reader := .afterDocument setup text
  ahead := uncommented tokens
  limit := (Reader.start setup text).size

theorem failing_start {setup : Setup} {text : Text} {tokens : List Token} {error : LexError}
    (reads : Mode.Reads setup (.initial setup) (Line.split text) tokens (.error error)) :
    Failing error (.ofReader (.start setup text)) where
  size := Nat.le_refl _
  held := ⟨1, tokens, Reader.holds_start setup text reads, reads.kind_ne_eof⟩
  ahead := by simp [Cursor.ofReader]

/-- A document without errors, read as the grammar goes and read beforehand. -/
theorem same_complete {setup : Setup} {text : Text} {tokens : List Token}
    (lexed : tokenize setup text = .ok tokens) :
    ∃ last, Parse.Same (Lagging last) OfGrammar
      (Parse.feature (.ofReader (.start setup text)))
      (Parse.feature (.complete setup text tokens)) := by
  obtain ⟨read, last, reads, split⟩ := reads_of_tokenize_ok lexed
  obtain ⟨_, done, continues⟩ := tokenize_of_reads_ok reads
  have whole : (Cursor.complete setup text tokens).ahead =
      uncommented read ++ [⟨.eof, [], (Reader.start setup text).finish⟩] := by
    rw [Cursor.complete, split, uncommented_append]
    rfl
  have lags : Lags last (.ofReader (.start setup text)) (.complete setup text tokens) :=
    ⟨rfl, Nat.le_refl _, done, continues.finish,
      Behind.reading (Reader.holds_start setup text reads) (by simp [Cursor.ofReader]) whole⟩
  have looked : Parse.Same (Lagging last) (fun _ => False) _ _ :=
    lags.peek fun some => absurd rfl some
  refine ⟨last, ?_⟩
  cases here : Parse.peek (.ofReader (.start setup text)) with
  | mk result first =>
      cases there : Parse.peek (.complete setup text tokens) with
      | mk other second =>
          rw [here, there] at looked
          cases result with
          | error error => cases other <;> exact absurd looked (by simp [Parse.Same])
          | ok token =>
              cases other with
              | error error => exact looked.elim
              | ok otherToken =>
                  rw [Parse.feature_of_peek _ first token here,
                    Parse.feature_of_peek _ second otherToken there]
                  exact Parse.agree_feature (faithful_lagging last (layout_of_reads reads).closed)
                    first second looked.2

theorem parse_eq_complete {setup : Setup} {text : Text} {tokens : List Token}
    (lexed : tokenize setup text = .ok tokens) :
    parse setup text = (Parse.feature (.complete setup text tokens)).1 := by
  obtain ⟨last, same⟩ := same_complete lexed
  rw [parse_eq_feature]
  exact same.result_eq

/-- A document with an error is not accepted, and no other error of the reader is reported. -/
theorem parse_of_tokenize_error {setup : Setup} {text : Text} {error : LexError}
    (lexed : tokenize setup text = .error error) :
    (∀ feature, parse setup text ≠ .ok feature) ∧
      ∀ other, parse setup text = .error (.lex other) → other = error := by
  obtain ⟨tokens, result, reads⟩ := Mode.exists_reads setup (.initial setup) (Line.split text)
  cases result with
  | ok last => simp [(tokenize_of_reads_ok reads).1] at lexed
  | error first =>
      rw [tokenize_of_reads_error reads] at lexed
      cases lexed
      have failing := failing_start reads
      rw [parse_eq_feature]
      cases run : Parse.feature (.ofReader (.start setup text)) with
      | mk result after =>
          constructor
          · rintro feature ⟨⟩
            exact failing.feature_ne_ok feature after run
          · rintro other ⟨⟩
            exact (Parse.agree_feature (faithful_failing error)).error_of_keeping _ after _ failing
              run other rfl

theorem exists_tokens_of_parse {setup : Setup} {text : Text} {feature : Feature}
    (parsed : parse setup text = .ok feature) : ∃ tokens, tokenize setup text = .ok tokens := by
  cases lexed : tokenize setup text with
  | ok tokens => exact ⟨tokens, rfl⟩
  | error error => exact absurd parsed ((parse_of_tokenize_error lexed).1 feature)

/-- Reading as the grammar goes cannot be told from reading everything first. A document without
errors is parsed as if all its tokens were there from the start and the reader were asked at the end
of the document. A document that is accepted has no errors, and an error of the reader that stops
the parse is the first one of the document. -/
theorem parse_of_tokenize (setup : Setup) (text : Text) :
    (∀ tokens, tokenize setup text = .ok tokens →
      parse setup text = (Parse.feature (.complete setup text tokens)).1) ∧
    (∀ feature, parse setup text = .ok feature → ∃ tokens, tokenize setup text = .ok tokens) ∧
    ∀ error, parse setup text = .error (.lex error) → tokenize setup text = .error error := by
  refine ⟨fun tokens lexed => parse_eq_complete lexed, fun _ => exists_tokens_of_parse, ?_⟩
  intro error parsed
  cases lexed : tokenize setup text with
  | ok tokens =>
      -- Without errors to read, only the grammar can be violated.
      obtain ⟨last, same⟩ := same_complete lexed
      rw [parse_eq_feature] at parsed
      obtain ⟨cause, violated⟩ := same.allowed_of_error (.lex error) parsed
      cases violated
  | error first => rw [(parse_of_tokenize_error lexed).2 error parsed]

def brokenText : Text :=
  "Feature: f\n  Scenario: s\n    Given x\n      \"\"\"\n".toList

def ampleText : Text :=
  ("# c\n@a @b\nFeature: f\n\n  # d\n  @c\n  Scenario: s\n    Given x\n      | a | b |\n      # e\n      | 1 | 2 |\n" ++
    "    When y\n      \"\"\"\n      # n\n  @d\n      \"\"\"\n    Then z\n      \"\"\"\n      \"\"\"\n").toList

theorem parse_of_tokenize_samples :
    (∃ tokens feature, tokenize .standard ampleText = .ok tokens ∧
      parse .standard ampleText = .ok feature ∧
      (Parse.feature (.complete .standard ampleText tokens)).1 = .ok feature) ∧
    (tokenize .standard [] = .ok [⟨.eof, [], ⟨1, 1⟩⟩] ∧
      parse .standard [] = (Parse.feature (.complete .standard [] [⟨.eof, [], ⟨1, 1⟩⟩])).1) ∧
    parse .standard brokenText = .error (.lex (.unterminatedDocString 4)) ∧
      tokenize .standard brokenText = .error (.unterminatedDocString 4) := by
  obtain ⟨feature, parsed⟩ : ∃ feature, parse .standard ampleText = .ok feature :=
    exists_of_isOk (by decide +kernel)
  have rejected : parse .standard brokenText = .error (.lex (.unterminatedDocString 4)) := by
    decide +kernel
  obtain ⟨whole, legal, _⟩ := parse_of_tokenize .standard ampleText
  obtain ⟨tokens, lexed⟩ := legal feature parsed
  exact ⟨⟨tokens, feature, lexed, parsed, (whole tokens lexed).symm.trans parsed⟩,
    ⟨by decide, (parse_of_tokenize .standard []).1 _ (by decide)⟩, rejected,
    (parse_of_tokenize .standard brokenText).2.2 _ rejected⟩

end Gherkin
