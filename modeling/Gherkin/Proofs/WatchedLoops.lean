import Gherkin.Proofs.WatchedLooks

/-!
Loops that come to an end.

Wherever it stands, a watched parser comes to a result, and it leaves no more of the document than there
was. Each loop has a measure for this: a turn that goes on leaves less of the lines that are unread, of the
tokens in the queue, or of those in the buffer that are still to be passed or consumed. The end of a
document, which comes again and again, does not count.
-/

namespace Gherkin

def Stand.size (stand : Stand) : Nat :=
  stand.reader.size + Token.totalWeight stand.ahead

namespace Watch

open Progress

variable {α β : Type}

def Ends (watched : Watch α) : Prop :=
  ∀ stand, ∃ result after, watched stand = some (result, after) ∧ after.size ≤ stand.size

def Shrinks (turn : β → Watch (β ⊕ α)) (measure : β → Stand → Nat) : Prop :=
  ∀ state stand next after, turn state stand = some (.ok (.inl next), after) →
    measure next after < measure state stand

section Sequences

variable {first : Watch α} {next : α → Watch β} {stand after : Stand}

theorem bind_eq_ok {value : β} (run : (first >>= next) stand = some (.ok value, after)) :
    ∃ found middle, first stand = some (.ok found, middle) ∧
      next found middle = some (.ok value, after) := by
  rw [bind_apply] at run
  split at run
  · cases run
  · rename_i found middle here
    exact ⟨found, middle, here, run⟩
  · cases run

theorem pure_eq_ok {given value : α} (run : (pure given : Watch α) stand = some (.ok value, after)) :
    given = value ∧ stand = after := by
  cases run
  exact ⟨rfl, rfl⟩

instance : Progress (ExceptT Halt (StateT Stand Option)) where
  Place := Stand
  left := Stand.size
  Yields watched stand value after := watched stand = some (.ok value, after)
  of_pure := pure_eq_ok
  of_bind := bind_eq_ok

theorem ends_pure (value : α) : Ends (pure value) :=
  fun stand => ⟨_, stand, rfl, Nat.le_refl _⟩

theorem ends_raise (alarm : Alarm) : Ends (raise alarm : Watch α) :=
  fun stand => ⟨_, stand, rfl, Nat.le_refl _⟩

theorem ends_fail (error : ParseError) : Ends (fail error : Watch α) :=
  fun stand => ⟨_, stand, rfl, Nat.le_refl _⟩

theorem ends_bind (head : Ends first) (tail : ∀ value, Ends (next value)) : Ends (first >>= next) := by
  intro stand
  obtain ⟨result, middle, here, less⟩ := head stand
  rw [bind_apply, here]
  cases result with
  | error halt => exact ⟨_, middle, rfl, less⟩
  | ok value =>
      obtain ⟨result, after, there, further⟩ := tail value middle
      exact ⟨result, after, there, Nat.le_trans further less⟩

theorem ends_get {next : Stand → Watch β} (tail : ∀ stand, Ends (next stand)) :
    Ends (get >>= next) :=
  fun stand => tail stand stand

theorem Ends.size_le (ends : Ends first) {result : Except Halt α}
    (run : first stand = some (result, after)) : after.size ≤ stand.size := by
  obtain ⟨_, _, here, less⟩ := ends stand
  rw [run] at here
  cases here
  exact less

theorem Ends.keeps (ends : Ends first) : Keeps first :=
  fun _ _ _ run => ends.size_le run

theorem takes_iff : Takes first ↔ ∀ stand value after,
    first stand = some (.ok value, after) → after.size < stand.size :=
  Iff.rfl

theorem spends_iff {item : Watch (Option α)} : Spends item ↔ ∀ stand value after,
    item stand = some (.ok (some value), after) → after.size < stand.size :=
  Iff.rfl

theorem ends_loop {turn : β → Watch (β ⊕ α)} {measure : β → Stand → Nat}
    (ends : ∀ state, Ends (turn state)) (shrinks : Shrinks turn measure) (state : β) :
    Ends (loop turn state) := by
  -- The induction is on the measure, which each turn makes less.
  intro stand
  induction bound : measure state stand using Nat.strongRecOn generalizing state stand with
  | ind count ih =>
      obtain ⟨result, middle, here, less⟩ := ends state stand
      match result, here with
      | .error halt, here => exact ⟨_, middle, loop_of_halt here, less⟩
      | .ok (.inr value), here => exact ⟨_, middle, loop_of_value here, less⟩
      | .ok (.inl next), here =>
          obtain ⟨result, after, there, further⟩ :=
            ih (measure next middle) (bound ▸ shrinks state stand next middle here) next middle rfl
          exact ⟨result, after, (loop_of_next here).trans there, Nat.le_trans further less⟩

theorem shrinks_pick {item : β → Watch (Option (α × β))} (spends : ∀ state, Spends (item state)) :
    Shrinks (pick item) fun _ stand => stand.size := by
  rintro ⟨found, state⟩ stand next after run
  obtain ⟨picked, middle, here, there⟩ := bind_eq_ok run
  cases picked with
  | none => cases there
  | some pair =>
      cases there
      exact spends state stand pair after here

theorem ends_gather {item : β → Watch (Option (α × β))} (ends : ∀ state, Ends (item state))
    (spends : ∀ state, Spends (item state)) (state : β) : Ends (gather item state) := by
  refine ends_loop (fun (state : List α × β) => ends_bind (ends state.2) fun picked => ?_)
    (shrinks_pick spends) _
  cases picked with
  | none => exact ends_pure _
  | some pair => exact ends_pure _

end Sequences

theorem length_of_readLine? {reader : Reader} {line : Line} {tokens : List Token} {mode : Mode}
    (read : reader.readLine? line = some (.ok tokens, mode)) :
    tokens.length ≤ line.content.length + 1 := by
  rw [Reader.readLine?] at read
  split at read
  · exact (Mode.step_of_read (Option.some.inj read)).length_le
  · obtain ⟨block, _, same⟩ := Option.map_eq_some_iff.mp read
    have one : (reader.mode.readVerbatim block.toOpening line).1.length ≤ 1 := by
      rw [Mode.readVerbatim]
      split <;> simp
    cases same
    exact Nat.le_trans one (Nat.le_add_left 1 _)

theorem shrinks_seek : Shrinks seek fun _ stand => stand.reader.unread.length := by
  intro _ stand _ after run
  rw [seek] at run
  split at run
  · cases run
  · split at run <;> cases run
  · rename_i line unread _ _
    split at run <;> cases run
    simp_all [Reader.enqueue, Reader.passLine]

/-- What a call for a token leaves: a token is paid for out of the reader. -/
structure Paid (stand : Stand) (result : Except Halt Token) (after : Stand) : Prop where
  ahead : after.ahead = stand.ahead
  size : after.reader.size ≤ stand.reader.size
  token : ∀ token, result = .ok token → after.reader.size + token.weight ≤ stand.reader.size

theorem paid_of_halt {stand after : Stand} {halt : Halt} (ahead : after.ahead = stand.ahead)
    (size : after.reader.size ≤ stand.reader.size) : Paid stand (.error halt) after where
  ahead := ahead
  size := size
  token := nofun

theorem paid_of_queue {stand : Stand} {token : Token} {queue : List Token}
    (queued : stand.reader.queue = token :: queue) :
    Paid stand (.ok token) { stand with reader := stand.reader.handOut token queue } := by
  have light := token.weight_le
  have size : (stand.reader.handOut token queue).size + 1 = stand.reader.size := by
    simp only [Reader.size, Reader.handOut, queued, List.length_cons]
    omega
  refine ⟨rfl, by simp only; omega, ?_⟩
  rintro _ ⟨⟩
  simp only
  omega

theorem paid_of_end {stand : Stand} :
    Paid stand (answered stand (stand.reader.ending, stand.reader)).1
      (answered stand (stand.reader.ending, stand.reader)).2 := by
  cases ends : stand.reader.ending with
  | error error => exact paid_of_halt rfl (Nat.le_refl _)
  | ok token =>
      refine ⟨rfl, Nat.le_refl _, ?_⟩
      rintro _ ⟨⟩
      rw [Reader.ending] at ends
      split at ends <;> cases ends
      exact Nat.le_refl _

theorem exists_next (stand : Stand) :
    ∃ result after, next stand = some (result, after) ∧ Paid stand result after := by
  -- The induction is on the lines that are unread.
  induction unread : stand.reader.unread generalizing stand with
  | nil =>
      cases queued : stand.reader.queue with
      | cons token queue => exact ⟨_, _, next_of_queue queued, paid_of_queue queued⟩
      | nil => exact ⟨_, _, next_of_end queued unread, paid_of_end⟩
  | cons line rest ih =>
      cases queued : stand.reader.queue with
      | cons token queue => exact ⟨_, _, next_of_queue queued, paid_of_queue queued⟩
      | nil =>
          have size : stand.reader.size = line.content.length + 1 + Line.capacity rest := by
            rw [Reader.size, queued, unread, Line.capacity]
            exact Nat.zero_add _
          cases read : stand.reader.readLine? line with
          | none =>
              exact ⟨_, stand, next_of_lost queued unread read, paid_of_halt rfl (Nat.le_refl _)⟩
          | some outcome =>
              obtain ⟨error | tokens, mode⟩ := outcome
              · refine ⟨_, _, next_of_error queued unread read, paid_of_halt rfl ?_⟩
                rw [size]
                simp only [Reader.size, Reader.passLine, queued, List.length_nil]
                omega
              · have bound := length_of_readLine? read
                have turn := seek_of_tokens queued unread read
                generalize further : (stand.reader.passLine line mode tokens rest).enqueue tokens = reader
                  at turn
                have less : reader.size ≤ stand.reader.size := by
                  rw [size, ← further]
                  simp only [Reader.size, Reader.passLine, Reader.enqueue]
                  omega
                obtain ⟨result, after, called, paid⟩ := ih { stand with reader } (further ▸ rfl)
                exact ⟨result, after, (loop_of_next turn).trans called, paid.ahead,
                  Nat.le_trans paid.size less, fun token same => Nat.le_trans (paid.token token same) less⟩

/-! Tokens pass from the reader into the buffer, and each one is paid for: what the reader has left grows
smaller by as much. -/

theorem shrinks_fill (place : Nat) :
    Shrinks (fill place) fun _ stand => stand.reader.size + (place + 1 - stand.ahead.length) := by
  intro _ stand _ after run
  by_cases short : stand.ahead.length ≤ place
  · obtain ⟨result, middle, called, paid⟩ := exists_next stand
    cases result with
    | error halt =>
        rw [fill_of_error short called] at run
        cases run
    | ok token =>
        have cost := paid.token token rfl
        by_cases comment : token.kind = .comment
        · rw [fill_of_comment short called comment] at run
          cases run
          rw [Token.weight_of_kind comment (by decide)] at cost
          simp only [paid.ahead]
          omega
        · rw [fill_of_token short called comment] at run
          cases run
          simp only [paid.ahead, List.length_append, List.length_singleton]
          omega
  · rw [fill_of_lt (Nat.lt_of_not_le short)] at run
    cases run

theorem ends_fill (place : Nat) (state : Unit) : Ends (fill place state) := by
  intro stand
  by_cases short : stand.ahead.length ≤ place
  · obtain ⟨result, after, called, paid⟩ := exists_next stand
    have smaller := paid.size
    cases result with
    | error halt =>
        refine ⟨_, after, fill_of_error short called, ?_⟩
        rw [Stand.size, Stand.size, paid.ahead]
        omega
    | ok token =>
        have cost := paid.token token rfl
        by_cases comment : token.kind = .comment
        · refine ⟨_, after, fill_of_comment short called comment, ?_⟩
          rw [Stand.size, Stand.size, paid.ahead]
          omega
        · refine ⟨_, _, fill_of_token short called comment, ?_⟩
          simp only [Stand.size, paid.ahead, Token.totalWeight_concat]
          omega
  · exact ⟨_, stand, fill_of_lt (Nat.lt_of_not_le short), Nat.le_refl _⟩

/-- How a buffer comes to reach to a place. A token that was not there comes last and has been paid for. -/
inductive Fills (place : Nat) (stand : Stand) : Stand → Prop where
  | there (full : place < stand.ahead.length) : Fills place stand stand
  | fetched {after : Stand} {front : List Token} {token : Token} (short : stand.ahead.length ≤ place)
      (ahead : after.ahead = front ++ [token]) (length : front.length = place)
      (cost : after.reader.size + token.weight ≤ stand.reader.size) : Fills place stand after

theorem fills_of_loop {place : Nat} {stand after : Stand}
    (filled : loop (fill place) () stand = some (.ok (), after)) : Fills place stand after := by
  -- The induction is on what a turn of the loop leaves.
  induction bound : stand.reader.size + (place + 1 - stand.ahead.length) using Nat.strongRecOn
    generalizing stand with
  | ind count ih =>
      by_cases short : stand.ahead.length ≤ place
      · obtain ⟨result, middle, called, paid⟩ := exists_next stand
        have smaller := paid.size
        cases result with
        | error halt =>
            rw [loop_of_halt (fill_of_error short called)] at filled
            cases filled
        | ok token =>
            have cost := paid.token token rfl
            by_cases comment : token.kind = .comment
            · have turn := fill_of_comment short called comment
              have less := shrinks_fill place _ _ _ _ turn
              rw [loop_of_next turn] at filled
              cases ih _ (bound ▸ less) filled rfl with
              | there full => exact absurd full (by rw [paid.ahead]; omega)
              | fetched _ ahead length dearer =>
                  exact .fetched short ahead length (Nat.le_trans dearer smaller)
            · have turn := fill_of_token short called comment
              have less := shrinks_fill place _ _ _ _ turn
              rw [loop_of_next turn] at filled
              cases ih _ (bound ▸ less) filled rfl with
              | there full =>
                  refine .fetched short (congrArg (· ++ [token]) paid.ahead) ?_ cost
                  simp only [List.length_append, List.length_singleton, paid.ahead] at full
                  omega
              | fetched _ ahead length dearer =>
                  exact .fetched short ahead length (Nat.le_trans dearer smaller)
      · have full := Nat.lt_of_not_le short
        rw [loop_of_value (fill_of_lt full)] at filled
        cases filled
        exact .there full

theorem ends_inspect (before : Option Token) (token : Token) : Ends (inspect before token) := by
  rw [inspect]
  split
  · exact ends_raise _
  · split
    · exact ends_raise _
    · exact ends_pure _

theorem ends_peekNth (place : Nat) : Ends (peekNth place) := by
  refine ends_bind (ends_loop (ends_fill place) (shrinks_fill place) ()) fun _ => ends_get fun stand => ?_
  cases stand.ahead[place]? with
  | none => exact ends_raise _
  | some token => exact ends_bind (ends_inspect _ token) fun _ => ends_pure token

theorem fills_of_peekNth {place : Nat} {stand after : Stand} {token : Token}
    (peeked : peekNth place stand = some (.ok token, after)) :
    after.ahead[place]? = some token ∧ Fills place stand after := by
  obtain ⟨_, middle, filled, run⟩ := bind_eq_ok peeked
  rw [bind_apply, get_apply] at run
  cases here : middle.ahead[place]? with
  | none =>
      simp only [here] at run
      cases run
  | some found =>
      simp only [here] at run
      obtain ⟨_, last, looked, ended⟩ := bind_eq_ok run
      rw [inspect] at looked
      split at looked
      · cases looked
      · split at looked <;> cases looked
        cases ended
        exact ⟨here, fills_of_loop filled⟩

theorem ends_peek : Ends peek :=
  ends_peekNth 0

theorem ahead_of_peek {stand after : Stand} {token : Token}
    (peeked : peek stand = some (.ok token, after)) : ∃ rest, after.ahead = token :: rest := by
  obtain ⟨here, _⟩ := fills_of_peekNth peeked
  cases ahead : after.ahead with
  | nil =>
      rw [ahead] at here
      cases here
  | cons first rest =>
      rw [ahead] at here
      cases here
      exact ⟨rest, rfl⟩

/-- A tag line's token in the buffer is passed, and one that is fetched has been paid for. -/
theorem shrinks_passTag :
    Shrinks passTag fun place stand => stand.reader.size + (stand.ahead.length - place) := by
  intro place stand further after run
  obtain ⟨token, middle, peeked, run⟩ := bind_eq_ok run
  obtain ⟨here, fills⟩ := fills_of_peekNth peeked
  -- Whatever the kind, the place moves on by one and the stand is the one of the look.
  have passed : further = place + 1 ∧ after = middle ∧ token.weight = 1 := by
    split at run
    · rename_i tag
      cases run
      exact ⟨rfl, rfl, Token.weight_of_kind tag (by decide)⟩
    · split at run
      · rename_i ends
        rw [bind_apply, get_apply] at run
        simp only at run
        split at run
        · cases run
          exact ⟨rfl, rfl, Token.weight_of_kind ends (by decide)⟩
        · cases run
      · cases run
  obtain ⟨rfl, rfl, weight⟩ := passed
  cases fills with
  | there full =>
      simp only
      omega
  | fetched short ahead length cost =>
      rw [ahead, List.getElem?_append_right (Nat.le_of_eq length), length, Nat.sub_self] at here
      cases here
      simp only [ahead, List.length_append, List.length_singleton]
      omega

theorem ends_passTag (place : Nat) : Ends (passTag place) := by
  refine ends_bind (ends_peekNth place) fun token => ?_
  split
  · exact ends_pure _
  · split
    · refine ends_get fun stand => ?_
      split
      · exact ends_pure _
      · exact ends_raise _
    · exact ends_pure _

theorem ends_kindAfterTags : Ends kindAfterTags :=
  ends_loop ends_passTag shrinks_passTag 0

section Tokens

variable {stand after : Stand} {token : Token} {kind : TokenKind}

theorem ends_advance : Ends advance := by
  intro stand
  obtain ⟨halt | token, middle, here, less⟩ := ends_peek stand
  · refine ⟨.error halt, middle, ?_, less⟩
    rw [advance, bind_apply, here]
  · obtain ⟨rest, ahead⟩ := ahead_of_peek here
    refine ⟨_, _, advance_of_ahead here ahead, ?_⟩
    rw [Stand.size, ahead, Token.totalWeight] at less
    change middle.reader.size + Token.totalWeight rest ≤ stand.size
    omega

theorem size_of_advance (run : advance stand = some (.ok token, after)) :
    after.size + token.weight ≤ stand.size := by
  obtain ⟨peeked, middle, here, _⟩ := bind_eq_ok run
  obtain ⟨rest, ahead⟩ := ahead_of_peek here
  have less := ends_peek.size_le here
  rw [advance_of_ahead here ahead] at run
  cases run
  rw [Stand.size, ahead, Token.totalWeight] at less
  change middle.reader.size + Token.totalWeight rest + token.weight ≤ stand.size
  omega

/-- A token that has been looked at is the one that is consumed. -/
theorem advance_after_peek {middle : Stand} {taken : Token} (peeked : peek stand = some (.ok token, middle))
    (run : advance middle = some (.ok taken, after)) : taken = token := by
  obtain ⟨rest, ahead⟩ := ahead_of_peek peeked
  obtain ⟨seen, last, again, _⟩ := bind_eq_ok run
  obtain ⟨here, fills⟩ := fills_of_peekNth again
  cases fills with
  | there full =>
      rw [ahead] at here
      cases here
      rw [advance_of_ahead again ahead] at run
      cases run
      rfl
  | fetched short =>
      rw [ahead] at short
      cases short

theorem ends_reader : Ends reader :=
  ends_get fun _ => ends_pure _

theorem ends_unexpected (token : Token) (expected : String) : Ends (unexpected token expected : Watch α) :=
  ends_fail _

theorem ends_takeIf (kind : TokenKind) : Ends (takeIf kind) := by
  refine ends_bind ends_peek fun token => ?_
  split
  · exact ends_bind ends_advance fun _ => ends_pure _
  · exact ends_pure _

theorem spends_takeIf (proper : kind ≠ .eof) : Spends (takeIf kind) := by
  rw [spends_iff]
  intro stand value after run
  obtain ⟨token, middle, peeked, run⟩ := bind_eq_ok run
  have less := ends_peek.size_le peeked
  split at run
  · rename_i same
    obtain ⟨taken, last, advanced, ended⟩ := bind_eq_ok run
    cases ended
    have cost := size_of_advance advanced
    rw [advance_after_peek peeked advanced, Token.weight_of_kind same proper] at cost
    omega
  · cases run

theorem ends_expect (kind : TokenKind) (expected : String) : Ends (expect kind expected) := by
  refine ends_bind ends_advance fun token => ?_
  split
  · exact ends_pure _
  · exact ends_unexpected _ _

theorem takes_expect (proper : kind ≠ .eof) (expected : String) : Takes (expect kind expected) := by
  rw [takes_iff]
  intro stand token after run
  obtain ⟨taken, middle, advanced, run⟩ := bind_eq_ok run
  have cost := size_of_advance advanced
  split at run
  · rename_i same
    cases run
    rw [Token.weight_of_kind same proper] at cost
    omega
  · cases run

end Tokens

theorem ends_tag : Ends tag := by
  refine ends_bind (ends_takeIf .tag) fun token => ?_
  cases token with
  | none => exact ends_pure none
  | some token => exact ends_bind (ends_takeIf .eol) fun _ => ends_pure _

theorem spends_tag : Spends tag :=
  spends_bind (spends_takeIf (by decide)) rfl fun _ =>
    keeps_bind (ends_takeIf .eol).keeps fun _ => keeps_pure _

theorem ends_growRow (row : OpenRow) : Ends (growRow row) := by
  refine ends_bind ends_advance fun token => ?_
  cases token.kind with
  | cell =>
      dsimp only
      split
      · exact ends_raise _
      · exact ends_pure _
  | pipe => exact ends_pure _
  | eol => exact ends_pure _
  | _ => exact ends_raise _

theorem shrinks_growRow : Shrinks growRow fun _ stand => stand.size := by
  intro row stand next after run
  obtain ⟨token, middle, advanced, run⟩ := bind_eq_ok run
  have cost := size_of_advance advanced
  have passed : after = middle ∧ token.weight = 1 := by
    cases kind : token.kind with
    | cell =>
        rw [kind] at run
        dsimp only at run
        split at run
        · cases run
        · cases run
          exact ⟨rfl, Token.weight_of_kind kind (by decide)⟩
    | pipe =>
        rw [kind] at run
        cases run
        exact ⟨rfl, Token.weight_of_kind kind (by decide)⟩
    | _ =>
        rw [kind] at run
        cases run
  obtain ⟨rfl, weight⟩ := passed
  simp only
  omega

theorem ends_cells (border : Token) : Ends (loop growRow ⟨[], none, border.location⟩) :=
  ends_loop ends_growRow shrinks_growRow _

theorem ends_row (width : Option Nat) : Ends (row width) := by
  refine ends_bind (ends_takeIf .pipe) fun border => ?_
  cases border with
  | none => exact ends_pure none
  | some border =>
      refine ends_bind (ends_cells border) fun cells => ?_
      split
      · exact ends_pure _
      · exact ends_fail _

theorem spends_row (width : Option Nat) : Spends (row width) := by
  refine spends_bind (spends_takeIf (by decide)) rfl fun border => ?_
  refine keeps_bind (ends_cells border).keeps fun cells => ?_
  split
  · exact keeps_pure _
  · exact (ends_fail _).keeps

theorem ends_docStringLine (block : Block) (indent : Nat) : Ends (docStringLine block indent) := by
  refine ends_bind ends_peek fun token => ends_bind ends_reader fun reader => ?_
  dsimp only
  split
  · exact ends_bind ends_advance fun _ => ends_pure _
  · exact ends_pure none

theorem spends_docStringLine (block : Block) (indent : Nat) : Spends (docStringLine block indent) := by
  rw [spends_iff]
  intro stand value after run
  obtain ⟨token, middle, peeked, run⟩ := bind_eq_ok run
  have less := ends_peek.size_le peeked
  rw [bind_apply] at run
  simp only [reader, bind_apply, get_apply, pure_apply] at run
  split at run
  · rename_i verbatim
    obtain ⟨taken, last, advanced, ended⟩ := bind_eq_ok run
    cases ended
    have cost := size_of_advance advanced
    rw [advance_after_peek peeked advanced, Token.weight_of_kind verbatim.1 (by decide)] at cost
    omega
  · cases run

end Watch

end Gherkin
