import Gherkin.Proofs.States
import Gherkin.Proofs.Supply
import Gherkin.Proofs.Watch

/-!
Watched looks at a document.

A watched parser that stands where a cursor does gets the same tokens and the same errors as the cursor,
and no alarm: the reader finds the doc string it is in, the buffer holds what it was filled up to, and the
ends of lines and names are met where they belong, because the tokens of a document come in whole lines.
-/

namespace Gherkin

def Cursor.stand (cursor : Cursor) (last : Option Token) : Stand :=
  ⟨cursor.reader, cursor.ahead, last⟩

namespace Watch

variable {α β : Type}

theorem pure_apply (value : α) (stand : Stand) : (pure value : Watch α) stand = some (.ok value, stand) :=
  rfl

theorem bind_apply (first : Watch α) (next : α → Watch β) (stand : Stand) :
    (first >>= next) stand =
      match first stand with
      | none => none
      | some (.ok value, after) => next value after
      | some (.error halt, after) => some (.error halt, after) := by
  simp only [bind, ExceptT.bind, ExceptT.mk, StateT.bind]
  rcases first stand with _ | ⟨_ | _, _⟩ <;> rfl

theorem get_apply (stand : Stand) : (get : Watch Stand) stand = some (.ok stand, stand) := rfl

section Loops

variable {turn : β → Watch (β ⊕ α)} {state next : β} {stand after : Stand}

theorem mem_turns {answer : Except Halt (β ⊕ α) × Stand} (comes : turn state stand = some answer) :
    afterTurn answer ∈ turns turn (state, stand) := by
  rw [turns, Part.mem_ofOption, comes]
  rfl

theorem loop_of_end {answer : Except Halt (β ⊕ α) × Stand} {result : Except Halt α × Stand}
    (comes : turn state stand = some answer) (ends : afterTurn answer = .inl result) :
    loop turn state stand = some result := by
  have stops := PFun.fix_stop (ends ▸ mem_turns comes)
  rw [loop, Part.eq_some_iff.mpr stops, Part.some_toOption]

theorem loop_of_value {value : α} (ends : turn state stand = some (.ok (.inr value), after)) :
    loop turn state stand = some (.ok value, after) :=
  loop_of_end ends rfl

theorem loop_of_halt {halt : Halt} (stops : turn state stand = some (.error halt, after)) :
    loop turn state stand = some (.error halt, after) :=
  loop_of_end stops rfl

theorem loop_of_next (goesOn : turn state stand = some (.ok (.inl next), after)) :
    loop turn state stand = loop turn next after := by
  have same : (turns turn).fix (state, stand) = (turns turn).fix (next, after) :=
    PFun.fix_fwd_eq (mem_turns goesOn)
  rw [loop, loop, same]

end Loops

section Reading

variable {setup : Setup} {text : Text} {stand : Stand}

/-- The doc string that a line belongs to is the one found under the line that opened it. -/
theorem readLine?_of_tracks {reader : Reader} (tracks : reader.Tracks setup text) (line : Line) :
    reader.readLine? line = some (reader.mode.read reader.setup line) := by
  rw [Reader.readLine?, Mode.read]
  cases opened : reader.mode.opened with
  | none => rfl
  | some opening =>
      have found : reader.blockAt? opening.location.line = some ⟨opening, none⟩ :=
        tracks.bounded.find?_blocks (Mode.mem_blocks.mpr (Or.inr ⟨opening, opened, rfl⟩))
      simp only [found, Option.map_some]

theorem tracks_passSilent {reader : Reader} {line : Line} {rest : List Line} {mode : Mode}
    (tracks : reader.Tracks setup text) (unread : reader.unread = line :: rest)
    (empty : reader.queue = []) (read : reader.mode.read reader.setup line = (.ok [], mode)) :
    (reader.passLine line mode [] rest).Tracks setup text := by
  have phase := tracks.phase
  rw [tracks.fixed] at read
  rw [empty] at phase
  apply tracks.passLine unread read [] reader.queue
  rw [empty]
  exact phase.readSilent (Mode.step_of_read read)

theorem enqueue_nil {reader : Reader} (empty : reader.queue = []) : reader.enqueue [] = reader := by
  rw [Reader.enqueue, ← empty]

def answered (stand : Stand) : Except LexError Token × Reader → Except Halt Token × Stand
  | (.ok token, reader) => (.ok token, { stand with reader })
  | (.error error, reader) => (.error (.fault (.lex error)), { stand with reader })

theorem answered_reader (stand : Stand) (reader : Reader) (answer : Except LexError Token × Reader) :
    answered { stand with reader } answer = answered stand answer := by
  rcases answer with ⟨_ | _, _⟩ <;> rfl

theorem next_of_queue {token : Token} {queue : List Token}
    (queued : stand.reader.queue = token :: queue) :
    next stand = some (.ok token, { stand with reader := stand.reader.handOut token queue }) :=
  loop_of_value (by rw [seek, queued])

theorem next_of_end (empty : stand.reader.queue = []) (unread : stand.reader.unread = []) :
    next stand = some (answered stand (stand.reader.ending, stand.reader)) := by
  cases ends : stand.reader.ending with
  | ok token => exact loop_of_value (by rw [seek, empty, unread]; simp only [ends])
  | error error => exact loop_of_halt (by rw [seek, empty, unread]; simp only [ends])

section Lines

variable {line : Line} {rest : List Line} {mode : Mode} (empty : stand.reader.queue = [])
  (unread : stand.reader.unread = line :: rest)

include empty unread

theorem next_of_lost (lost : stand.reader.readLine? line = none) :
    next stand = some (.error (.alarm .lostBlock), stand) := by
  refine loop_of_halt ?_
  rw [seek, empty, unread]
  simp only [lost]

theorem next_of_error {error : LexError} (read : stand.reader.readLine? line = some (.error error, mode)) :
    next stand = some (.error (.fault (.lex error)),
      { stand with reader := stand.reader.passLine line mode [] rest }) := by
  refine loop_of_halt ?_
  rw [seek, empty, unread]
  simp only [read]

theorem seek_of_tokens {tokens : List Token}
    (read : stand.reader.readLine? line = some (.ok tokens, mode)) :
    seek () stand = some (.ok (.inl ()),
      { stand with reader := (stand.reader.passLine line mode tokens rest).enqueue tokens }) := by
  rw [seek, empty, unread]
  simp only [read]

end Lines

theorem next_of_pull (lines : List Line) (tracks : stand.reader.Tracks setup text)
    (unread : stand.reader.unread = lines) (empty : stand.reader.queue = []) :
    next stand = some (answered stand (stand.reader.pull lines)) := by
  induction lines generalizing stand with
  | nil => exact next_of_end empty unread
  | cons line rest ih =>
      have known := readLine?_of_tracks tracks line
      rw [Reader.pull]
      cases read : stand.reader.mode.read stand.reader.setup line with
      | mk result mode =>
          rw [read] at known
          cases result with
          | error error => exact next_of_error empty unread known
          | ok tokens =>
              rw [next, loop_of_next (seek_of_tokens empty unread known), ← next]
              cases tokens with
              | nil =>
                  have silent : (stand.reader.passLine line mode [] rest).queue = [] := empty
                  rw [enqueue_nil silent,
                    @ih { stand with reader := stand.reader.passLine line mode [] rest }
                      (tracks_passSilent tracks unread empty read) rfl silent]
                  exact congrArg some (answered_reader _ _ _)
              | cons token queue => exact next_of_queue rfl

theorem next_of_tracks (tracks : stand.reader.Tracks setup text) :
    next stand = some (answered stand stand.reader.next) := by
  rw [Reader.next]
  cases queued : stand.reader.queue with
  | nil => exact next_of_pull _ tracks rfl queued
  | cons token queue => exact next_of_queue queued

end Reading

section Buffer

variable {setup : Setup} {text : Text} {stand : Stand} {place : Nat}

theorem fill_of_lt (full : place < stand.ahead.length) :
    fill place () stand = some (.ok (.inr ()), stand) := by
  rw [fill, bind_apply, get_apply]
  simp only [Nat.not_le_of_lt full, if_false]
  rfl

theorem fill_of_error (short : stand.ahead.length ≤ place) {halt : Halt} {after : Stand}
    (called : next stand = some (.error halt, after)) :
    fill place () stand = some (.error halt, after) := by
  rw [fill, bind_apply, get_apply]
  simp only [short, if_true]
  rw [bind_apply, called]

theorem fill_of_comment (short : stand.ahead.length ≤ place) {token : Token} {after : Stand}
    (called : next stand = some (.ok token, after)) (comment : token.kind = .comment) :
    fill place () stand = some (.ok (.inl ()), after) := by
  rw [fill, bind_apply, get_apply]
  simp only [short, if_true]
  rw [bind_apply, called]
  simp only [comment, ne_eq, not_true_eq_false, if_false]
  rfl

theorem fill_of_token (short : stand.ahead.length ≤ place) {token : Token} {after : Stand}
    (called : next stand = some (.ok token, after)) (counts : token.kind ≠ .comment) :
    fill place () stand = some (.ok (.inl ()), { after with ahead := after.ahead ++ [token] }) := by
  rw [fill, bind_apply, get_apply]
  simp only [short, if_true]
  rw [bind_apply, called]
  simp only [counts, ne_eq, not_false_eq_true, if_true]
  rfl

def filled (stand : Stand) : Except LexError Token × Reader → Except Halt Unit × Stand
  | (.ok token, reader) => (.ok (), { stand with reader, ahead := stand.ahead ++ [token] })
  | (.error error, reader) => (.error (.fault (.lex error)), { stand with reader })

theorem fill_answered {answer : Except LexError Token × Reader}
    (called : next stand = some (answered stand answer))
    (counts : ∀ token reader, answer = (.ok token, reader) → token.kind ≠ .comment) :
    loop (fill stand.ahead.length) () stand = some (filled stand answer) := by
  obtain ⟨_ | token, reader⟩ := answer
  · exact loop_of_halt (fill_of_error (Nat.le_refl _) called)
  · rw [loop_of_next (fill_of_token (Nat.le_refl _) called (counts token reader rfl))]
    exact loop_of_value (fill_of_lt (by simp))

theorem filled_reader (stand : Stand) (reader : Reader) (answer : Except LexError Token × Reader) :
    filled { stand with reader } answer = filled stand answer := by
  rcases answer with ⟨_ | _, _⟩ <;> rfl

/-- Each comment leaves the reader less, and the fuel is for all that it has. -/
theorem fill_fetched (fuel : Nat) (tracks : stand.reader.Tracks setup text)
    (enough : stand.reader.size ≤ fuel) :
    loop (fill stand.ahead.length) () stand =
      some (filled stand (stand.reader.nextUncommented fuel)) := by
  induction fuel generalizing stand with
  | zero =>
      refine fill_answered (next_of_tracks tracks) fun token reader answer comment => ?_
      have pays := Reader.pays_next stand.reader
      -- There is no fuel, so the reader has nothing left and cannot have answered with a comment.
      have paid : reader.size + token.weight ≤ stand.reader.size := by
        rw [Reader.nextUncommented] at answer
        rw [answer] at pays
        exact pays
      rw [Token.weight_of_kind comment (by decide)] at paid
      omega
  | succ fuel ih =>
      have called := next_of_tracks tracks
      have pays := Reader.pays_next stand.reader
      have further := Reader.tracks_next tracks
      rw [Reader.nextUncommented]
      cases answer : stand.reader.next with
      | mk result reader =>
          rw [answer] at called pays further
          cases result with
          | error error => exact fill_answered called (by rintro _ _ ⟨⟩)
          | ok token =>
              by_cases comment : token.kind = .comment
              · have paid : reader.size + token.weight ≤ stand.reader.size := pays
                rw [Token.weight_of_kind comment (by decide)] at paid
                have skipped := fill_of_comment (Nat.le_refl _) called comment
                rw [loop_of_next skipped]
                simp only [comment, if_true]
                rw [← filled_reader stand reader]
                exact @ih { stand with reader } further (by change reader.size ≤ fuel; omega)
              · simp only [comment, if_false]
                refine fill_answered called ?_
                rintro _ _ ⟨⟩
                exact comment

theorem advance_of_ahead {token : Token} {rest : List Token} {after : Stand}
    (peeked : peek stand = some (.ok token, after)) (ahead : after.ahead = token :: rest) :
    advance stand = some (.ok token, { after with ahead := rest, last := some token }) := by
  rw [advance, bind_apply, peeked]
  simp only
  rw [bind_apply, get_apply]
  simp only [ahead]
  rfl

end Buffer

end Watch

/-! A watched parser and the parser beside it stand at the same tokens of one supply. That a token is met
where it belongs follows from how the supply lies on its lines. -/

theorem Reader.tracks_nextUncommented {setup : Setup} {text : Text} {reader : Reader}
    (tracks : reader.Tracks setup text) (fuel : Nat) :
    (reader.nextUncommented fuel).2.Tracks setup text := by
  induction fuel generalizing reader with
  | zero => exact tracks_next tracks
  | succ fuel ih =>
      have further := tracks_next tracks
      rw [nextUncommented]
      split
      · rename_i token after read
        rw [read] at further
        split
        · exact ih further
        · exact further
      · rename_i error after read
        rw [read] at further
        exact further

theorem Parse.tracks_fetch {setup : Setup} {text : Text} {cursor : Cursor}
    (tracks : cursor.reader.Tracks setup text) : (fetch cursor).2.reader.Tracks setup text := by
  have kept := Reader.tracks_nextUncommented tracks cursor.limit
  rw [fetch]
  rcases called : cursor.reader.nextUncommented cursor.limit with ⟨_ | token, reader⟩
  · rwa [called] at kept
  · rwa [called] at kept

/-- What a reader has left for the grammar: the tokens up to an error or the end of the document, and
that end unless it has come already. -/
def Reader.Leaves (reader : Reader) (result : Except LexError Mode) (tokens : List Token) : Prop :=
  ∃ number later ending, reader.Holds number later result ∧
    (ending = [] ∨ ending = [⟨.eof, [], reader.finish⟩]) ∧ tokens = uncommented later ++ ending

/-- A token comes, unless none is left or there is an error. -/
theorem fetch_of_leaves {cursor : Cursor} {result : Except LexError Mode} {tokens : List Token}
    (leaves : cursor.reader.Leaves result tokens) (size : cursor.reader.size ≤ cursor.limit) :
    (∃ token rest reader, tokens = token :: rest ∧
      Parse.fetch cursor = (.ok token, { cursor with reader, ahead := cursor.ahead ++ [token] }) ∧
      reader.Leaves result rest ∧ (token.kind ≠ .eof → reader.size < cursor.reader.size)) ∨
    (tokens = [] ∧ ∃ last, result = .ok last) ∨
    ∃ error reader, Parse.fetch cursor = (.error (.lex error), { cursor with reader }) := by
  obtain ⟨number, later, ending, holds, ends, split⟩ := leaves
  have answer := Reader.answer_nextUncommented holds cursor.limit size
  rw [← uncommented_dropWhile] at split
  generalize start : later.dropWhile isComment = dropped at answer split
  generalize called : cursor.reader.nextUncommented cursor.limit = given at answer
  cases answer with
  | @token token more _ reader next held further line begun continues smaller =>
      have counts := kind_of_dropWhile later more token start
      have first : uncommented (token :: more) = token :: uncommented more := by
        simp [uncommented, counts]
      rw [first, List.cons_append] at split
      rw [← continues.finish] at ends
      exact Or.inl ⟨token, _, reader, split, by rw [Parse.fetch, called],
        ⟨next, more, ending, held, ends, rfl⟩, fun _ => smaller⟩
  | failure error reader => exact Or.inr (Or.inr ⟨error, reader, by rw [Parse.fetch, called]⟩)
  | @ending last reader done continues =>
      change tokens = [] ++ ending at split
      rw [List.nil_append] at split
      rcases ends with none | one
      · exact Or.inr (Or.inl ⟨split.trans none, last, rfl⟩)
      · refine Or.inl ⟨_, [], reader, split.trans one, by rw [Parse.fetch, called], ?_, fun proper =>
          absurd rfl proper⟩
        exact ⟨0, [], [], done.holds 0, Or.inl rfl, rfl⟩

namespace Supply

/-- A parser stands at these tokens of the supply, with the one before them consumed last. -/
structure Poised (supply : Supply) (cursor : Cursor) (last : Option Token) (tokens : List Token) :
    Prop where
  funded : cursor.Funded
  tracks : ∃ setup text, cursor.reader.Tracks setup text
  held : ∃ later, cursor.reader.Leaves supply.result later ∧ tokens = cursor.ahead ++ later
  within : last.toList ++ tokens <:+ supply.tokens
  begun : last = none → ∀ token ∈ tokens.head?, token.kind.opensLine = true
  alive : ∀ mode, supply.result = .ok mode → tokens ≠ []

variable {supply : Supply} {cursor : Cursor} {last : Option Token} {tokens : List Token}

theorem Poised.size_le (poised : supply.Poised cursor last tokens) :
    cursor.reader.size ≤ cursor.limit :=
  Nat.le_trans (Nat.le_add_right _ _) poised.funded

theorem Poised.fill_of_fetch (poised : supply.Poised cursor last tokens) :
    Watch.loop (Watch.fill cursor.ahead.length) () (cursor.stand last) =
      match Parse.fetch cursor with
      | (.ok _, after) => some (.ok (), after.stand last)
      | (.error error, after) => some (.error (.fault error), after.stand last) := by
  obtain ⟨setup, text, tracks⟩ := poised.tracks
  have filled := @Watch.fill_fetched _ _ (cursor.stand last) cursor.limit tracks poised.size_le
  refine filled.trans ?_
  rw [Parse.fetch]
  change some (Watch.filled _ (cursor.reader.nextUncommented cursor.limit)) = _
  rcases cursor.reader.nextUncommented cursor.limit with ⟨_ | token, reader⟩ <;> rfl

/-- A token comes, unless the tokens are all there already or there is an error. -/
theorem Poised.fetch (poised : supply.Poised cursor last tokens) :
    (∃ token rest after, tokens = cursor.ahead ++ token :: rest ∧
      Parse.fetch cursor = (.ok token, after) ∧ after.ahead = cursor.ahead ++ [token] ∧
      supply.Poised after last tokens ∧
      (token.kind ≠ .eof → after.reader.size < cursor.reader.size)) ∨
    (tokens = cursor.ahead ∧ ∃ mode, supply.result = .ok mode) ∨
    ∃ error after, Parse.fetch cursor = (.error (.lex error), after) := by
  obtain ⟨later, leaves, split⟩ := poised.held
  obtain ⟨setup, text, tracks⟩ := poised.tracks
  obtain ⟨token, rest, reader, rfl, fetched, further, smaller⟩ | ⟨none, passed⟩ |
    ⟨error, reader, fetched⟩ := fetch_of_leaves leaves poised.size_le
  · have moved : Parse.Moves cursor (Parse.fetch cursor).2 := .fetch .refl
    have funded := moved.funded poised.funded
    have kept := Parse.tracks_fetch tracks
    rw [fetched] at funded kept
    refine Or.inl ⟨token, rest, _, split, fetched, rfl, ?_, smaller⟩
    constructor
    case funded => exact funded
    case tracks => exact ⟨setup, text, kept⟩
    case held => exact ⟨rest, further, by simp [split]⟩
    case within => exact poised.within
    case begun => exact poised.begun
    case alive => exact poised.alive
  · rw [none, List.append_nil] at split
    exact Or.inr (Or.inl ⟨split, passed⟩)
  · exact Or.inr (Or.inr ⟨error, _, fetched⟩)

theorem Poised.within_tokens (poised : supply.Poised cursor last tokens) : tokens <:+ supply.tokens :=
  (List.suffix_append _ _).trans poised.within

theorem Poised.joins (poised : supply.Poised cursor last tokens) {front behind : List Token}
    {before token : Token} (split : tokens = front ++ token :: behind)
    (inFront : (last.toList ++ front).getLast? = some before) : Joins before token := by
  obtain ⟨first, whole⟩ := List.getLast?_eq_some_iff.mp inFront
  have within := poised.within
  rw [split, ← List.append_assoc, whole, List.append_assoc, List.singleton_append] at within
  exact joins_of_within ((List.suffix_append first _).trans within)

theorem follows_of_joins {kinds : TokenKind → Bool} {before token : Token} (joins : Joins before token)
    (inner : token.kind.opensLine = false)
    (fits : before.kind.precedes token.kind = true → kinds before.kind = true) :
    Watch.follows kinds (some before) token = true := by
  rcases joins with ⟨line, precedes⟩ | ⟨_, opens⟩
  · simp [Watch.follows, fits precedes, line]
  · rw [inner] at opens
    cases opens

/-- What a line does not open with comes behind the token in front of it on its line. -/
theorem Poised.follows (poised : supply.Poised cursor last tokens) {kinds : TokenKind → Bool}
    {front behind : List Token} {token : Token} (split : tokens = front ++ token :: behind)
    (inner : token.kind.opensLine = false)
    (fits : ∀ kind : TokenKind, kind.precedes token.kind = true → kinds kind = true) :
    Watch.follows kinds (last.toList ++ front).getLast? token = true := by
  cases inFront : (last.toList ++ front).getLast? with
  | some before => exact follows_of_joins (poised.joins split inFront) inner (fits _)
  | none =>
      obtain ⟨none, rfl⟩ := List.append_eq_nil_iff.mp (List.getLast?_eq_none_iff.mp inFront)
      have opens := poised.begun (Option.toList_eq_nil_iff.mp none) token (by simp [split])
      rw [inner] at opens
      cases opens

theorem endsLine_of_precedes {kind : TokenKind} (precedes : kind.precedes .eol = true) :
    Watch.endsLine kind = true := by
  cases kind <;> first | rfl | cases precedes

theorem isKeyword_of_precedes {kind : TokenKind} (precedes : kind.precedes .name = true) :
    Watch.isKeyword kind = true := by
  cases kind <;> first | rfl | cases precedes

theorem Poised.inspect (poised : supply.Poised cursor last tokens) {front behind : List Token}
    {token : Token} (split : tokens = front ++ token :: behind) (stand : Stand) :
    Watch.inspect (last.toList ++ front).getLast? token stand = some (.ok (), stand) := by
  rw [Watch.inspect]
  have ends : token.kind = .eol →
      Watch.follows Watch.endsLine (last.toList ++ front).getLast? token = true := fun kind =>
    poised.follows split (by rw [kind]; rfl) fun _ precedes => endsLine_of_precedes (kind ▸ precedes)
  have named : token.kind = .name →
      Watch.follows Watch.isKeyword (last.toList ++ front).getLast? token = true := fun kind =>
    poised.follows split (by rw [kind]; rfl) fun _ precedes => isKeyword_of_precedes (kind ▸ precedes)
  rw [if_neg (fun stray => stray.2 (ends stray.1)), if_neg (fun stray => stray.2 (named stray.1))]
  rfl

theorem Poised.ahead_prefix (poised : supply.Poised cursor last tokens) :
    ∃ later, tokens = cursor.ahead ++ later := by
  obtain ⟨later, _, split⟩ := poised.held
  exact ⟨later, split⟩

/-- A token that is there already is seen where it stands. -/
theorem Poised.peekNth_of_ahead (poised : supply.Poised cursor last tokens) {front behind : List Token}
    {token : Token} (ahead : cursor.ahead = front ++ token :: behind) :
    Watch.peekNth front.length (cursor.stand last) = some (.ok token, cursor.stand last) := by
  obtain ⟨later, split⟩ := poised.ahead_prefix
  have filled : Watch.loop (Watch.fill front.length) () (cursor.stand last) =
      some (.ok (), cursor.stand last) :=
    Watch.loop_of_value (Watch.fill_of_lt (by simp [Cursor.stand, ahead]))
  have before : (cursor.stand last).before front.length = (last.toList ++ front).getLast? := by
    simp [Stand.before, Cursor.stand, ahead]
  rw [ahead, List.append_assoc, List.cons_append] at split
  have here : (cursor.stand last).ahead[front.length]? = some token := by
    simp [Cursor.stand, ahead]
  rw [Watch.peekNth, Watch.bind_apply]
  simp only [filled]
  rw [Watch.bind_apply, Watch.get_apply]
  simp only [here, before]
  rw [Watch.bind_apply, poised.inspect split]
  rfl

/-- Looking again at a place fetches nothing more. -/
theorem peekNth_of_filled {place : Nat} {stand after : Stand}
    (filled : Watch.loop (Watch.fill place) () stand = some (.ok (), after))
    (full : place < after.ahead.length) : Watch.peekNth place stand = Watch.peekNth place after := by
  have again : Watch.loop (Watch.fill place) () after = some (.ok (), after) :=
    Watch.loop_of_value (Watch.fill_of_lt full)
  rw [Watch.peekNth, Watch.bind_apply, Watch.bind_apply, filled, again]

inductive Fetched (supply : Supply) (cursor : Cursor) (last : Option Token) (tokens : List Token) :
    Option (Except Halt Token × Stand) → Except ParseError Token × Cursor → Prop where
  | token {token : Token} {rest : List Token} {after : Cursor}
      (split : tokens = cursor.ahead ++ token :: rest) (ahead : after.ahead = cursor.ahead ++ [token])
      (poised : supply.Poised after last tokens)
      (smaller : token.kind ≠ .eof → after.reader.size < cursor.reader.size) :
      Fetched supply cursor last tokens (some (.ok token, after.stand last)) (.ok token, after)
  | failure {error : ParseError} {stand : Stand} {after : Cursor} :
      Fetched supply cursor last tokens (some (.error (.fault error), stand)) (.error error, after)

/-- Nothing is fetched behind the end of a document. -/
theorem Poised.peekNth_of_fetch (poised : supply.Poised cursor last tokens)
    (more : ∀ mode, supply.result = .ok mode → tokens ≠ cursor.ahead) :
    supply.Fetched cursor last tokens (Watch.peekNth cursor.ahead.length (cursor.stand last))
      (Parse.fetch cursor) := by
  have filled := poised.fill_of_fetch
  obtain ⟨token, rest, after, split, fetched, ahead, further, smaller⟩ | ⟨all, mode, passed⟩ |
    ⟨error, after, fetched⟩ := poised.fetch
  · rw [fetched] at filled
    rw [fetched, peekNth_of_filled filled (by simp [Cursor.stand, ahead]),
      further.peekNth_of_ahead ahead]
    exact .token split ahead further smaller
  · exact absurd all (more mode passed)
  · rw [fetched] at filled ⊢
    rw [Watch.peekNth, Watch.bind_apply, filled]
    exact .failure

inductive Looked (supply : Supply) (last : Option Token) (tokens : List Token) :
    Option (Except Halt Token × Stand) → Except ParseError Token × Cursor → Prop where
  | token {token : Token} {rest more : List Token} {after : Cursor} (split : tokens = token :: rest)
      (ahead : after.ahead = token :: more) (poised : supply.Poised after last tokens) :
      Looked supply last tokens (some (.ok token, after.stand last)) (.ok token, after)
  | failure {error : ParseError} {stand : Stand} {after : Cursor} :
      Looked supply last tokens (some (.error (.fault error), stand)) (.error error, after)

theorem Poised.peek (poised : supply.Poised cursor last tokens) :
    supply.Looked last tokens (Watch.peek (cursor.stand last)) (Parse.peek cursor) := by
  rw [Parse.peek_apply, Watch.peek]
  cases ahead : cursor.ahead with
  | cons token more =>
      obtain ⟨later, split⟩ := poised.ahead_prefix
      rw [ahead] at split
      have first : cursor.ahead = [] ++ token :: more := ahead
      have seen := poised.peekNth_of_ahead first
      rw [List.length_nil] at seen
      rw [seen]
      exact .token split ahead poised
  | nil =>
      have looked := poised.peekNth_of_fetch fun mode passed => ahead ▸ poised.alive mode passed
      rw [ahead, List.length_nil] at looked
      simp only
      generalize Watch.peekNth 0 (cursor.stand last) = watched at looked
      generalize Parse.fetch cursor = answer at looked
      cases looked with
      | token split further shown smaller =>
          rw [ahead, List.nil_append] at split further
          exact .token split further shown
      | failure => exact .failure

theorem Poised.consume {token : Token} {rest more : List Token}
    (poised : supply.Poised cursor last (token :: rest)) (ahead : cursor.ahead = token :: more)
    (proper : token.kind ≠ .eof) : supply.Poised (Parse.consumed cursor) (some token) rest where
  funded := by
    have moved : Parse.Moves cursor (Parse.consumed cursor) := .consume .refl
    exact moved.funded poised.funded
  tracks := poised.tracks
  held := by
    obtain ⟨later, leaves, split⟩ := poised.held
    refine ⟨later, leaves, ?_⟩
    rw [ahead] at split
    rw [Parse.consumed, ahead]
    exact (List.cons.inj split).2
  within := poised.within_tokens
  begun := nofun
  alive := by
    intro mode passed none
    obtain ⟨before, split⟩ := poised.within_tokens
    have final := supply.ended mode passed token (by rw [← split, none]; simp)
    exact proper final

/-- A look before the next token is consumed shows that token. -/
theorem advance_of_peek {stand : Stand} {token : Token} {more : List Token}
    (peeked : Watch.peek stand = some (.ok token, cursor.stand last))
    (ahead : cursor.ahead = token :: more) :
    Watch.advance stand = some (.ok token, (Parse.consumed cursor).stand (some token)) := by
  have tail : cursor.ahead.tail = more := by rw [ahead, List.tail_cons]
  rw [Watch.advance_of_ahead peeked ahead, Cursor.stand, Parse.consumed, tail]
  rfl

end Supply

end Gherkin
