import Gherkin.Proofs.Closure
import Gherkin.Proofs.Reading

/-!
How far parsers go.

A parser does nothing to its cursor but fetch tokens and consume them, and this is so whether it
succeeds or fails. What is true of these two moves is therefore true of every parser. In
particular the tokens that a cursor has before it never become more, and each item of a repetition
takes one of them away. So a repetition ends by itself before its fuel does.

What takes a token is told by the successes of a parser alone. The rules for it are stated for every
kind of parser whose successes can be told (`Progress`), with fuel or without.
-/

namespace Gherkin

/-- A kind of parser, told by its successes: the place where one starts, its value and the place where it
stops. What is left of a document at a place is counted. -/
class Progress (M : Type → Type) [Monad M] where
  Place : Type
  left : Place → Nat
  Yields {α : Type} : M α → Place → α → Place → Prop
  of_pure {α : Type} {given value : α} {start stop : Place} :
    Yields (pure given) start value stop → given = value ∧ start = stop
  of_bind {α β : Type} {first : M α} {next : α → M β} {value : β} {start stop : Place} :
    Yields (first >>= next) start value stop →
      ∃ found middle, Yields first start found middle ∧ Yields (next found) middle value stop

namespace Progress

variable {M : Type → Type} [Monad M] [Progress M] {α β : Type}

def Keeps (parser : M α) : Prop :=
  ∀ start value stop, Yields parser start value stop → left stop ≤ left start

def Takes (parser : M α) : Prop :=
  ∀ start value stop, Yields parser start value stop → left stop < left start

def Spends (item : M (Option α)) : Prop :=
  ∀ start value stop, Yields item start (some value) stop → left stop < left start

theorem keeps_pure (value : α) : Keeps (pure value : M α) := by
  intro start found stop run
  obtain ⟨_, rfl⟩ := of_pure run
  exact Nat.le_refl _

theorem Takes.spends {item : M (Option α)} (takes : Takes item) : Spends item :=
  fun start value stop run => takes start (some value) stop run

theorem keeps_bind {first : M α} {next : α → M β} (head : Keeps first)
    (tail : ∀ value, Keeps (next value)) : Keeps (first >>= next) := by
  intro start value stop run
  obtain ⟨found, middle, here, there⟩ := of_bind run
  exact Nat.le_trans (tail found middle value stop there) (head start found middle here)

theorem takes_bind {first : M α} {next : α → M β} (head : Takes first)
    (tail : ∀ value, Keeps (next value)) : Takes (first >>= next) := by
  intro start value stop run
  obtain ⟨found, middle, here, there⟩ := of_bind run
  exact Nat.lt_of_le_of_lt (tail found middle value stop there) (head start found middle here)

theorem takes_after {first : M α} {next : α → M β} (head : Keeps first)
    (tail : ∀ value, Takes (next value)) : Takes (first >>= next) := by
  intro start value stop run
  obtain ⟨found, middle, here, there⟩ := of_bind run
  exact Nat.lt_of_lt_of_le (tail found middle value stop there) (head start found middle here)

theorem spends_none : Spends (pure none : M (Option α)) := by
  intro start value stop run
  obtain ⟨same, _⟩ := of_pure run
  cases same

theorem spends_after {first : M α} {next : α → M (Option β)} (head : Keeps first)
    (tail : ∀ value, Spends (next value)) : Spends (first >>= next) := by
  intro start value stop run
  obtain ⟨found, middle, here, there⟩ := of_bind run
  exact Nat.lt_of_lt_of_le (tail found middle value stop there) (head start found middle here)

/-- What follows an item that has declined has nothing to offer either. -/
theorem spends_bind {first : M (Option α)} {next : Option α → M (Option β)} (head : Spends first)
    (declines : next none = pure none) (tail : ∀ value, Keeps (next (some value))) :
    Spends (first >>= next) := by
  intro start value stop run
  obtain ⟨found, middle, here, there⟩ := of_bind run
  cases found with
  | none =>
      rw [declines] at there
      obtain ⟨same, _⟩ := of_pure there
      cases same
  | some found =>
      exact Nat.lt_of_le_of_lt (tail found middle value stop there) (head start found middle here)

theorem spends_stateless {item : M (Option α)} (once : Spends item) (state : Unit) :
    Spends (stateless item state) :=
  spends_bind once rfl fun _ => keeps_pure _

end Progress

/-! The end of a document comes again and again, so it does not count as something that is left. -/

def Token.weight (token : Token) : Nat :=
  if token.kind = .eof then 0 else 1

theorem Token.weight_of_kind {token : Token} {kind : TokenKind} (same : token.kind = kind)
    (proper : kind ≠ .eof) : token.weight = 1 := by
  rw [weight, if_neg (same ▸ proper)]

theorem Token.weight_le (token : Token) : token.weight ≤ 1 := by
  unfold weight
  split
  · exact Nat.zero_le 1
  · exact Nat.le_refl 1

namespace Reader

def Pays (size : Nat) : Except LexError Token × Reader → Prop
  | (.ok token, after) => after.size + token.weight ≤ size
  | (.error _, after) => after.size ≤ size

theorem Pays.mono {less more : Nat} (le : less ≤ more) {answer : Except LexError Token × Reader}
    (pays : Pays less answer) : Pays more answer := by
  obtain ⟨_ | token, after⟩ := answer
  · exact Nat.le_trans pays le
  · exact Nat.le_trans pays le

theorem Pays.size_le {size : Nat} {answer : Except LexError Token × Reader}
    (pays : Pays size answer) : answer.2.size ≤ size := by
  obtain ⟨_ | token, after⟩ := answer
  · exact pays
  · exact Nat.le_trans (Nat.le_add_right _ _) pays

theorem pays_pull (lines : List Line) (reader : Reader) (unread : reader.unread = lines)
    (queue : reader.queue = []) : Pays reader.size (reader.pull lines) := by
  induction lines generalizing reader with
  | nil =>
      rw [pull, ending]
      cases reader.mode.opened with
      | some opening => exact Nat.le_refl _
      | none => exact Nat.le_refl _
  | cons line rest ih =>
      have size : reader.size = line.content.length + 1 + Line.capacity rest := by
        simp [Reader.size, queue, unread, Line.capacity]
      rw [pull]
      cases read : reader.mode.read reader.setup line with
      | mk result mode =>
          cases result with
          | error error =>
              simp only [Pays, Reader.size, passLine, queue, List.length_nil] at size ⊢
              omega
          | ok tokens =>
              have bound := (Mode.step_of_read read).length_le
              -- A line pays for its tokens with its characters and its break.
              cases tokens with
              | nil =>
                  apply (ih (reader.passLine line mode [] rest) rfl queue).mono
                  simp only [Reader.size, passLine, queue, List.length_nil] at size ⊢
                  omega
              | cons token tokens =>
                  have light := token.weight_le
                  rw [List.length_cons] at bound
                  simp only [Pays, Reader.size, handOut, passLine] at size ⊢
                  omega

theorem pays_next (reader : Reader) : Pays reader.size reader.next := by
  unfold next
  split
  · rename_i token queue found
    have light := token.weight_le
    simp only [Pays, size, handOut, found, List.length_cons]
    omega
  · rename_i found
    exact pays_pull reader.unread reader rfl found

theorem pays_nextUncommented (fuel : Nat) (reader : Reader) :
    Pays reader.size (reader.nextUncommented fuel) := by
  induction fuel generalizing reader with
  | zero => exact pays_next reader
  | succ fuel ih =>
      have pays := pays_next reader
      rw [nextUncommented]
      rcases called : reader.next with ⟨_ | token, after⟩
      · rw [called] at pays
        exact pays
      · rw [called] at pays
        simp only
        split
        · exact (ih after).mono pays.size_le
        · exact pays

end Reader

def Token.totalWeight : List Token → Nat
  | [] => 0
  | token :: rest => token.weight + totalWeight rest

theorem Token.totalWeight_concat (tokens : List Token) (token : Token) :
    totalWeight (tokens ++ [token]) = totalWeight tokens + token.weight := by
  induction tokens with
  | nil => simp [totalWeight]
  | cons first rest ih => simp only [List.cons_append, totalWeight, ih, Nat.add_assoc]

def Cursor.remaining (cursor : Cursor) : Nat :=
  cursor.reader.size + Token.totalWeight cursor.ahead

def Cursor.Funded (cursor : Cursor) : Prop :=
  cursor.remaining ≤ cursor.limit

theorem Cursor.funded_ofReader (reader : Reader) : (Cursor.ofReader reader).Funded :=
  Nat.le_refl _

namespace Parse

open Progress

theorem remaining_fetch (cursor : Cursor) : (fetch cursor).2.remaining ≤ cursor.remaining := by
  have pays := Reader.pays_nextUncommented cursor.limit cursor.reader
  rw [fetch]
  rcases called : cursor.reader.nextUncommented cursor.limit with ⟨_ | token, reader⟩
  · rw [called] at pays
    exact Nat.add_le_add_right pays _
  · rw [called] at pays
    have paid : reader.size + token.weight ≤ cursor.reader.size := pays
    simp only [Cursor.remaining, Token.totalWeight_concat]
    omega

theorem remaining_consumed {cursor : Cursor} {token : Token} {rest : List Token}
    (ahead : cursor.ahead = token :: rest) :
    (consumed cursor).remaining + token.weight = cursor.remaining := by
  simp only [Cursor.remaining, consumed, ahead, List.tail_cons, Token.totalWeight]
  omega

/-! Fetching and consuming are all that can be done to a cursor, so what these two moves keep every parser
keeps. -/

inductive Moves (start : Cursor) : Cursor → Prop where
  | refl : Moves start start
  | fetch {cursor : Cursor} (before : Moves start cursor) : Moves start (fetch cursor).2
  | consume {cursor : Cursor} (before : Moves start cursor) : Moves start (consumed cursor)

namespace Moves

variable {start middle cursor : Cursor}

theorem trans (first : Moves start middle) (second : Moves middle cursor) : Moves start cursor := by
  induction second with
  | refl => exact first
  | fetch _ ih => exact ih.fetch
  | consume _ ih => exact ih.consume

theorem remaining_le (moves : Moves start cursor) : cursor.remaining ≤ start.remaining := by
  induction moves with
  | refl => exact Nat.le_refl _
  | fetch _ ih => exact Nat.le_trans (remaining_fetch _) ih
  | @consume cursor _ ih =>
      cases ahead : cursor.ahead with
      | nil =>
          have same : consumed cursor = cursor := by
            obtain ⟨reader, tokens, limit⟩ := cursor
            cases ahead
            rfl
          rw [same]
          exact ih
      | cons token rest =>
          have less := remaining_consumed ahead
          omega

theorem limit_eq (moves : Moves start cursor) : cursor.limit = start.limit := by
  induction moves with
  | refl => rfl
  | @fetch cursor _ ih =>
      rw [← ih, Parse.fetch]
      rcases cursor.reader.nextUncommented cursor.limit with ⟨_ | token, reader⟩ <;> rfl
  | consume _ ih => exact ih

theorem funded (moves : Moves start cursor) (funded : start.Funded) : cursor.Funded := by
  unfold Cursor.Funded
  rw [moves.limit_eq]
  exact Nat.le_trans moves.remaining_le funded

end Moves

def Travels {α : Type} (parser : Parse α) : Prop :=
  ∀ cursor, Moves cursor (parser cursor).2

section Travelling

variable {α β : Type}

theorem travels_pure (value : α) : Travels (pure value : Parse α) :=
  fun _ => .refl

theorem travels_throw (error : ParseError) : Travels (throw error : Parse α) :=
  fun _ => .refl

theorem travels_bind {first : Parse α} {next : α → Parse β} (head : Travels first)
    (tail : ∀ value, Travels (next value)) : Travels (first >>= next) := by
  intro cursor
  have moved := head cursor
  rw [bind_apply]
  generalize first cursor = ran at moved
  obtain ⟨_ | value, after⟩ := ran
  · exact moved
  · exact moved.trans (tail value after)

theorem closed_travels : Closed @Travels where
  pure := travels_pure
  bind := travels_bind
  inspect some cursor := some cursor cursor
  fetch _ := Moves.refl.fetch
  consume _ := Moves.refl.consume
  throw _ _ := travels_throw _

end Travelling

theorem travels_step : ∀ previous, Travels (step previous) :=
  closed_travels.step fun _ => travels_throw _

theorem travels_feature : Travels feature :=
  closed_travels.feature travels_step

instance : Progress (ExceptT ParseError (StateM Cursor)) where
  Place := Cursor
  left := Cursor.remaining
  Yields parser cursor value after := parser cursor = (.ok value, after)
  of_pure run := (pure_eq_ok _ _ _ _).mp run
  of_bind run := (bind_eq_ok _ _ _ _ _).mp run

section Spending

variable {α β : Type}

theorem Travels.remaining_le {parser : Parse α} (travels : Travels parser) {cursor after : Cursor}
    {result : Except ParseError α} (run : parser cursor = (result, after)) :
    after.remaining ≤ cursor.remaining := by
  have moved := travels cursor
  rw [run] at moved
  exact moved.remaining_le

theorem Travels.keeps {parser : Parse α} (travels : Travels parser) : Keeps parser :=
  fun _ _ _ run => travels.remaining_le run

theorem keeps_throw (error : ParseError) : Keeps (throw error : Parse α) :=
  (travels_throw error).keeps

theorem closed_keeps : Closed (@Keeps Parse _ _) where
  pure := keeps_pure
  bind := keeps_bind
  inspect some cursor := some cursor cursor
  fetch := closed_travels.fetch.keeps
  consume := closed_travels.consume.keeps
  throw _ _ := keeps_throw _

theorem takes_iff {parser : Parse α} : Takes parser ↔ ∀ cursor value after,
    parser cursor = (.ok value, after) → after.remaining < cursor.remaining :=
  Iff.rfl

theorem spends_iff {item : Parse (Option α)} : Spends item ↔ ∀ cursor value after,
    item cursor = (.ok (some value), after) → after.remaining < cursor.remaining :=
  Iff.rfl

theorem remaining_advance {cursor after : Cursor} {token : Token}
    (run : advance cursor = (.ok token, after)) :
    after.remaining + token.weight ≤ cursor.remaining := by
  rw [advance_apply] at run
  cases peeked : peek cursor with
  | mk result middle =>
      rw [peeked] at run
      cases result with
      | error error => cases run
      | ok found =>
          obtain ⟨rest, ahead⟩ := ahead_of_peek cursor middle found peeked
          cases run
          have less := remaining_consumed ahead
          have moved := closed_travels.peek.remaining_le peeked
          omega

theorem takes_expect {kind : TokenKind} (proper : kind ≠ .eof) (expected : String) :
    Takes (expect kind expected) := by
  rw [takes_iff]
  intro cursor token after run
  obtain ⟨found, middle, here, there⟩ := (bind_eq_ok _ _ _ _ _).mp run
  have less := remaining_advance here
  split at there
  · rename_i same
    cases there
    rw [Token.weight_of_kind same proper] at less
    omega
  · cases there

theorem spends_takeIf {kind : TokenKind} (proper : kind ≠ .eof) : Spends (takeIf kind) := by
  rw [spends_iff]
  intro cursor token after run
  obtain ⟨found, middle, here, there⟩ := (bind_eq_ok _ _ _ _ _).mp run
  have moved := closed_travels.peek.remaining_le here
  obtain ⟨rest, ahead⟩ := ahead_of_peek cursor middle found here
  split at there
  · rename_i same
    obtain ⟨taken, last, advanced, ended⟩ := (bind_eq_ok _ _ _ _ _).mp there
    cases ended
    rw [advance_apply, peek_cons middle found rest ahead] at advanced
    cases advanced
    have less := remaining_consumed ahead
    rw [Token.weight_of_kind same proper] at less
    omega
  · cases there

end Spending

theorem spends_cell (border : Location) : Spends (cell border) := by
  rw [spends_iff]
  intro cursor value after run
  rw [cell_apply] at run
  obtain ⟨raw, first, looked, run⟩ := (bind_eq_ok _ _ _ _ _).mp run
  obtain ⟨token, second, advanced, run⟩ := (bind_eq_ok _ _ _ _ _).mp run
  have moved := (closed_travels.takeIf .cell).remaining_le looked
  have less := remaining_advance advanced
  split at run
  · rename_i pipe
    cases run
    rw [Token.weight_of_kind pipe (by decide)] at less
    omega
  · split at run
    · cases run
    · cases run

theorem spends_row (width : Option Nat) : Spends (row width) := by
  refine spends_bind (spends_takeIf (by decide)) rfl fun border => ?_
  refine keeps_bind (closed_keeps.collect closed_keeps.cell border.location) fun cells => ?_
  split
  · exact keeps_pure _
  · exact keeps_throw _

theorem spends_docStringLine (block : Block) (indent : Nat) :
    Spends (docStringLine block indent) := by
  rw [spends_iff]
  intro cursor text after run
  obtain ⟨token, middle, here, there⟩ := (bind_eq_ok _ _ _ _ _).mp run
  obtain ⟨rest, ahead⟩ := ahead_of_peek cursor middle token here
  have moved := closed_travels.peek.remaining_le here
  rw [bind_apply, reader_apply] at there
  simp only at there
  split at there
  · rename_i verbatim
    obtain ⟨taken, last, advanced, ended⟩ := (bind_eq_ok _ _ _ _ _).mp there
    cases ended
    rw [advance_apply, peek_cons middle token rest ahead] at advanced
    cases advanced
    have less := remaining_consumed ahead
    rw [Token.weight_of_kind verbatim.1 (by decide)] at less
    omega
  · cases there

theorem spends_tag : Spends tag :=
  spends_bind (spends_takeIf (by decide)) rfl fun _ =>
    closed_keeps.map (closed_keeps.takeIf .eol) _

theorem spends_descriptionLine : Spends descriptionLine :=
  spends_bind (spends_takeIf (by decide)) rfl fun _ => keeps_pure _

theorem keeps_step (previous : Option StepKeyword) : Keeps (step previous) :=
  (travels_step previous).keeps

theorem spends_step (previous : Option StepKeyword) : Spends (step previous) := by
  refine spends_bind (spends_takeIf (by decide)) rfl fun token => ?_
  refine keeps_bind closed_keeps.reader fun reader => ?_
  dsimp only
  split
  · exact keeps_throw _
  · refine keeps_bind (closed_keeps.expect .name (by decide)) fun name => ?_
    exact closed_keeps.map (closed_keeps.argument _) _

theorem takes_heading (keyword : BlockKeyword) {name : Parse Text} (named : Keeps name) :
    Takes (heading keyword name) := by
  refine takes_bind (takes_expect (by simp) _) fun token => keeps_bind named fun _ => ?_
  exact closed_keeps.map (closed_keeps.many closed_keeps.descriptionLine) _

theorem takes_scenario (keyword : BlockKeyword) : Takes (scenario keyword) := by
  refine takes_after closed_keeps.tags fun tags => ?_
  refine takes_bind (takes_heading _ closed_keeps.optionalName) fun heading => ?_
  exact closed_keeps.map (closed_keeps.steps keeps_step) _

theorem spends_examples : Spends examples := by
  refine spends_after closed_keeps.kindAfterTags fun kind => ?_
  split
  · refine spends_after closed_keeps.tags fun tags => Takes.spends ?_
    refine takes_bind (takes_heading _ closed_keeps.optionalName) fun heading => ?_
    exact closed_keeps.map closed_keeps.examplesTable _
  · exact spends_none

theorem spends_definition : Spends definition := by
  refine spends_after closed_keeps.kindAfterTags fun kind => ?_
  split
  · exact (takes_bind (takes_scenario _) fun _ => keeps_pure _).spends
  · refine Takes.spends (takes_bind (takes_scenario _) fun scenario => ?_)
    exact closed_keeps.map (closed_keeps.many closed_keeps.examples) _
  · exact spends_none

theorem spends_rule : Spends rule := by
  refine spends_after closed_keeps.kindAfterTags fun kind => ?_
  split
  · refine spends_after closed_keeps.tags fun tags => Takes.spends ?_
    refine takes_bind (takes_heading _ closed_keeps.optionalName) fun heading => ?_
    refine keeps_bind (closed_keeps.background keeps_step) fun background => ?_
    exact closed_keeps.map (closed_keeps.many (closed_keeps.definition keeps_step)) _
  · exact spends_none

end Parse

end Gherkin
