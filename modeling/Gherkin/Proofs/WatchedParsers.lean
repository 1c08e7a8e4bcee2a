import Gherkin.Proofs.FirstViolation
import Gherkin.Proofs.Reuse
import Gherkin.Proofs.WatchedGrammar

/-!
The watched grammar agrees with the grammar.

Where a line is begun, a watched parser comes to the value of the parser without the watch and stops in
the same place, or both stop with the same error. So no alarm is raised, and every loop ends. A loop of the
watched grammar takes a turn where the other takes fuel, and the fuel is for more tokens than are left.
-/

namespace Gherkin

namespace Watch

variable {α β : Type} {item : β → Watch (Option (α × β))} {found : List α} {state : β}
  {stand after : Stand}

theorem pick_of_none (declined : item state stand = some (.ok none, after)) :
    pick item (found, state) stand = some (.ok (.inr found), after) := by
  rw [pick, bind_apply, declined]
  rfl

theorem pick_of_some {pair : α × β} (taken : item state stand = some (.ok (some pair), after)) :
    pick item (found, state) stand = some (.ok (.inl (found ++ [pair.1], pair.2)), after) := by
  rw [pick, bind_apply, taken]
  rfl

theorem pick_of_halt {halt : Halt} (halted : item state stand = some (.error halt, after)) :
    pick item (found, state) stand = some (.error halt, after) := by
  rw [pick, bind_apply, halted]

section Cells

variable {token : Token} (row : OpenRow)

theorem growRow_of_border (advanced : advance stand = some (.ok token, after))
    (kind : token.kind = .pipe) :
    growRow row stand = some (.ok (.inl ⟨row.cells ++
      [(row.pending.map TableCell.ofToken).getD ⟨[], row.border⟩], none, token.location⟩), after) := by
  rw [growRow, bind_apply, advanced]
  simp only [kind]
  rfl

variable {row}

theorem growRow_of_cell (empty : row.pending = none) (advanced : advance stand = some (.ok token, after))
    (kind : token.kind = .cell) :
    growRow row stand = some (.ok (.inl { row with pending := some token }), after) := by
  rw [growRow, bind_apply, advanced]
  simp only [kind, empty, Option.isSome_none, Bool.false_eq_true, if_false]
  rfl

theorem growRow_of_end (advanced : advance stand = some (.ok token, after)) (kind : token.kind = .eol) :
    growRow row stand = some (.ok (.inr row.cells), after) := by
  rw [growRow, bind_apply, advanced]
  simp only [kind]
  rfl

theorem growRow_of_halt {halt : Halt} (halted : advance stand = some (.error halt, after)) :
    growRow row stand = some (.error halt, after) := by
  rw [growRow, bind_apply, halted]

end Cells

end Watch

namespace Parse

section Cells

variable (border : Location) {cursor after last : Cursor} {token closing : Token} {error : ParseError}

theorem cell_of_border (peeked : peek cursor = (.ok token, after)) (kind : token.kind = .pipe) :
    cell border cursor = (.ok (some (⟨[], border⟩, token.location)), consumed after) := by
  obtain ⟨rest, ahead⟩ := ahead_of_peek cursor after token peeked
  rw [cell_apply, bind_apply, takeIf_apply, peeked]
  simp only [kind, reduceCtorEq, if_false, bind_apply, advance_apply, peek_cons after token rest ahead,
    if_true]
  rfl

theorem cell_of_end (peeked : peek cursor = (.ok token, after)) (kind : token.kind = .eol) :
    cell border cursor = (.ok none, consumed after) := by
  obtain ⟨rest, ahead⟩ := ahead_of_peek cursor after token peeked
  rw [cell_apply, bind_apply, takeIf_apply, peeked]
  simp only [kind, reduceCtorEq, if_false, bind_apply, advance_apply, peek_cons after token rest ahead,
    if_true]

theorem cell_of_text (peeked : peek cursor = (.ok token, after)) (kind : token.kind = .cell)
    (met : peek (consumed after) = (.ok closing, last)) (pipe : closing.kind = .pipe) :
    cell border cursor = (.ok (some (TableCell.ofToken token, closing.location)), consumed last) := by
  rw [cell_apply, bind_apply, takeIf_apply, peeked]
  simp only [kind, if_true, bind_apply, advance_apply, met, pipe]
  rfl

theorem cell_of_broken (peeked : peek cursor = (.ok token, after)) (kind : token.kind = .cell)
    (met : peek (consumed after) = (.error error, last)) :
    cell border cursor = (.error error, last) := by
  rw [cell_apply, bind_apply, takeIf_apply, peeked]
  simp only [kind, if_true, bind_apply, advance_apply, met]

theorem cell_of_error (peeked : peek cursor = (.error error, after)) :
    cell border cursor = (.error error, after) := by
  rw [cell_apply, bind_apply, takeIf_apply, peeked]

end Cells

/-- The items found so far stand in front of those that a repetition goes on to find. -/
theorem collect_onto {α β : Type} (item : β → Parse (Option (α × β))) (fuel : Nat)
    (found : List α) (state : β) (cursor : Cursor) :
    (collectFrom item (fuel + 1) state >>= fun others => pure (found ++ others)) cursor =
      match item state cursor with
      | (.ok none, after) => (.ok found, after)
      | (.ok (some (value, next)), after) =>
          (collectFrom item fuel next >>= fun others => pure (found ++ [value] ++ others)) after
      | (.error error, after) => (.error error, after) := by
  rw [bind_apply, collectFrom_succ]
  rcases item state cursor with ⟨_ | _ | ⟨value, next⟩, after⟩
  · rfl
  · simp only [pure_apply, List.append_nil]
  · simp only [bind_apply]
    rcases collectFrom item fuel next after with ⟨_ | others, last⟩
    · rfl
    · simp only [pure_apply, List.append_assoc, List.singleton_append]

theorem collect_eq_onto {α β : Type} (item : β → Parse (Option (α × β))) (state : β) (cursor : Cursor) :
    collect item state cursor =
      (collectFrom item (cursor.limit + 1) state >>= fun others => pure ([] ++ others)) cursor := by
  rw [collect_apply, bind_apply]
  rcases collectFrom item (cursor.limit + 1) state cursor with ⟨_ | _, _⟩ <;> rfl

end Parse

namespace Supply

variable {supply : Supply} {α β : Type}

inductive Agreement (supply : Supply) (holds : α → Option Token → List Token → Prop) :
    Option (Except Halt α × Stand) → Except ParseError α × Cursor → Prop where
  | value {value : α} {after : Cursor} {last : Option Token} {tokens : List Token}
      (poised : supply.Poised after last tokens) (fits : holds value last tokens) :
      Agreement supply holds (some (.ok value, after.stand last)) (.ok value, after)
  | fault {error : ParseError} {stand : Stand} {after : Cursor} :
      Agreement supply holds (some (.error (.fault error), stand)) (.error error, after)

/-- A parser that starts and stops where no line is half read. -/
def Agrees (supply : Supply) (watched : Watch α) (parser : Parse α) : Prop :=
  ∀ cursor last tokens, supply.Poised cursor last tokens → Clear tokens →
    supply.Agreement (fun _ _ rest => Clear rest) (watched (cursor.stand last)) (parser cursor)

section Sequences

variable {holds : α → Option Token → List Token → Prop} {final : β → Option Token → List Token → Prop}

theorem Agreement.bind {first : Watch α} {second : Parse α} {next : α → Watch β} {other : α → Parse β}
    {stand : Stand} {cursor : Cursor} (head : supply.Agreement holds (first stand) (second cursor))
    (tail : ∀ value after last tokens, supply.Poised after last tokens → holds value last tokens →
      supply.Agreement final (next value (after.stand last)) (other value after)) :
    supply.Agreement final ((first >>= next) stand) ((second >>= other) cursor) := by
  rw [Watch.bind_apply, Parse.bind_apply]
  generalize first stand = watched at head
  generalize second cursor = answer at head
  cases head with
  | value poised fits => exact tail _ _ _ _ poised fits
  | fault => exact .fault

theorem Agreement.mono {watched : Option (Except Halt α × Stand)} {answer : Except ParseError α × Cursor}
    {weaker : α → Option Token → List Token → Prop} (agreement : supply.Agreement holds watched answer)
    (implies : ∀ value last tokens cursor, supply.Poised cursor last tokens → holds value last tokens →
      weaker value last tokens) : supply.Agreement weaker watched answer := by
  cases agreement with
  | value poised fits => exact .value poised (implies _ _ _ _ poised fits)
  | fault => exact .fault

theorem agrees_pure (value : α) : supply.Agrees (pure value) (pure value) :=
  fun _ _ _ poised clear => .value poised clear

theorem agrees_fail (error : ParseError) : supply.Agrees (Watch.fail error : Watch α) (throw error) :=
  fun _ _ _ _ _ => .fault

theorem agrees_bind {first : Watch α} {second : Parse α} {next : α → Watch β} {other : α → Parse β}
    (head : supply.Agrees first second) (tail : ∀ value, supply.Agrees (next value) (other value)) :
    supply.Agrees (first >>= next) (second >>= other) :=
  fun cursor last tokens poised clear =>
    (head cursor last tokens poised clear).bind fun value after _ _ => tail value after _ _

end Sequences

section Tokens

variable {cursor : Cursor} {last : Option Token} {tokens : List Token} {kind : TokenKind}

theorem Poised.reader (poised : supply.Poised cursor last tokens) :
    supply.Agreement (fun _ after rest => after = last ∧ rest = tokens)
      (Watch.reader (cursor.stand last)) (Parse.reader cursor) :=
  .value poised ⟨rfl, rfl⟩

theorem Poised.look (poised : supply.Poised cursor last tokens) :
    supply.Agreement (fun token after rest => after = last ∧ rest = tokens ∧ tokens.head? = some token)
      (Watch.peek (cursor.stand last)) (Parse.peek cursor) := by
  have looked := poised.peek
  generalize Watch.peek (cursor.stand last) = watched at looked
  generalize Parse.peek cursor = answer at looked
  cases looked with
  | token split _ shown => exact .value shown ⟨rfl, rfl, by rw [split, List.head?_cons]⟩
  | failure => exact .fault

/-- Both see the same token come next, and it is consumed by advancing. -/
theorem Poised.meet (poised : supply.Poised cursor last tokens) :
    (∃ token rest more after, tokens = token :: rest ∧ after.ahead = token :: more ∧
      supply.Poised after last tokens ∧ Parse.peek cursor = (.ok token, after) ∧
      Watch.advance (cursor.stand last) = some (.ok token, (Parse.consumed after).stand (some token))) ∨
    ∃ error stand after, Parse.peek cursor = (.error error, after) ∧
      Watch.advance (cursor.stand last) = some (.error (.fault error), stand) := by
  have looked := poised.peek
  generalize watched : Watch.peek (cursor.stand last) = result at looked
  generalize Parse.peek cursor = answer at looked ⊢
  cases looked with
  | @token token rest more after split ahead shown =>
      exact Or.inl ⟨token, rest, more, after, split, ahead, shown, rfl, advance_of_peek watched ahead⟩
  | @failure error stand after =>
      refine Or.inr ⟨error, stand, after, rfl, ?_⟩
      rw [Watch.advance, Watch.bind_apply, watched]

theorem Poised.advance (poised : supply.Poised cursor last tokens) {token : Token}
    (first : tokens.head? = some token) (proper : token.kind ≠ .eof) :
    supply.Agreement (fun taken after rest => taken = token ∧ tokens = token :: rest ∧ after = some token)
      (Watch.advance (cursor.stand last)) (Parse.advance cursor) := by
  rw [Parse.advance_apply]
  obtain ⟨taken, rest, more, after, rfl, ahead, shown, peeked, advanced⟩ |
    ⟨error, stand, after, peeked, halted⟩ := poised.meet
  · rw [List.head?_cons, Option.some.injEq] at first
    subst first
    rw [peeked, advanced]
    exact .value (shown.consume ahead proper) ⟨rfl, rfl, rfl⟩
  · rw [peeked, halted]
    exact .fault

theorem Poised.takeIf (poised : supply.Poised cursor last tokens) (proper : kind ≠ .eof) :
    supply.Agreement
      (fun found after rest =>
        match found with
        | some token => after = some token ∧ token.kind = kind
        | none => after = last ∧ rest = tokens ∧ ∀ token ∈ tokens.head?, token.kind ≠ kind)
      (Watch.takeIf kind (cursor.stand last)) (Parse.takeIf kind cursor) := by
  refine poised.look.bind fun token middle _ _ shown fits => ?_
  obtain ⟨rfl, rfl, first⟩ := fits
  by_cases same : token.kind = kind
  · simp only [same, if_true]
    refine (shown.advance first (same ▸ proper)).bind fun taken after _ _ further fits => ?_
    obtain ⟨rfl, _, rfl⟩ := fits
    exact .value further ⟨rfl, same⟩
  · simp only [same, if_false]
    refine .value shown ⟨rfl, rfl, ?_⟩
    rw [first]
    rintro _ ⟨⟩
    exact same

/-- A line is over behind a token that it does not go on after. -/
theorem Poised.clear {token : Token} (poised : supply.Poised cursor (some token) tokens)
    (plain : token.kind.plain = true) : Clear tokens :=
  clear_of_within poised.within (fun kind => by rw [kind] at plain; cases plain)
    (fun kind => by rw [kind] at plain; cases plain)

theorem agrees_peek : supply.Agrees Watch.peek Parse.peek := by
  intro cursor last tokens poised clear
  exact poised.look.mono fun _ _ _ _ _ ⟨_, same, _⟩ => same ▸ clear

theorem agrees_reader : supply.Agrees Watch.reader Parse.reader := by
  intro cursor last tokens poised clear
  exact poised.reader.mono fun _ _ _ _ _ ⟨_, same⟩ => same ▸ clear

theorem agrees_takeIf (plain : kind.plain = true) :
    supply.Agrees (Watch.takeIf kind) (Parse.takeIf kind) := by
  intro cursor last tokens poised clear
  have proper := TokenKind.ne_eof_of_plain plain
  refine (poised.takeIf proper).mono fun found after rest _ further fits => ?_
  cases found with
  | none => exact fits.2.1 ▸ clear
  | some token =>
      obtain ⟨rfl, same⟩ := fits
      exact further.clear (same ▸ plain)

/-- The end of a document can be expected too, but nothing comes behind it. -/
theorem Poised.expect (poised : supply.Poised cursor last tokens) (kind : TokenKind)
    (expected : String) :
    (∃ token rest after, token.kind = kind ∧
      Watch.expect kind expected (cursor.stand last) = some (.ok token, after.stand (some token)) ∧
      Parse.expect kind expected cursor = (.ok token, after) ∧
      (kind ≠ .eof → supply.Poised after (some token) rest)) ∨
    ∃ error stand after,
      Watch.expect kind expected (cursor.stand last) = some (.error (.fault error), stand) ∧
      Parse.expect kind expected cursor = (.error error, after) := by
  rw [Parse.expect_apply, Watch.expect, Watch.bind_apply]
  obtain ⟨token, rest, more, after, rfl, ahead, shown, peeked, advanced⟩ |
    ⟨error, stand, after, peeked, halted⟩ := poised.meet
  · simp only [peeked, advanced]
    by_cases same : token.kind = kind
    · simp only [same, if_true]
      exact Or.inl ⟨token, rest, _, same, rfl, rfl, fun proper => shown.consume ahead (same ▸ proper)⟩
    · simp only [same, if_false]
      exact Or.inr ⟨_, _, _, rfl, rfl⟩
  · simp only [peeked, halted]
    exact Or.inr ⟨_, _, _, rfl, rfl⟩

theorem agrees_expect (plain : kind.plain = true) (expected : String) :
    supply.Agrees (Watch.expect kind expected) (Parse.expect kind expected) := by
  intro cursor last tokens poised clear
  have proper := TokenKind.ne_eof_of_plain plain
  obtain ⟨token, rest, after, same, watched, met, further⟩ | ⟨error, stand, after, watched, failed⟩ :=
    poised.expect kind expected
  · rw [watched, met]
    exact .value (further proper) ((further proper).clear (same ▸ plain))
  · rw [watched, failed]
    exact .fault

theorem agrees_tag : supply.Agrees Watch.tag Parse.tag := by
  intro cursor last tokens poised clear
  refine (poised.takeIf (by decide)).bind fun found after last rest further fits => ?_
  cases found with
  | none => exact .value further (fits.2.1 ▸ clear)
  | some token =>
      refine (further.takeIf (by decide)).bind fun ending after last rest further fits => ?_
      refine .value further ?_
      cases ending with
      | none => exact fits.2.1 ▸ fits.2.2
      | some ending =>
          obtain ⟨rfl, same⟩ := fits
          exact further.clear (by rw [same]; rfl)

end Tokens

section Past

variable {cursor : Cursor} {last : Option Token} {tokens front behind : List Token} {token : Token}

/-- Behind tag lines only, the end of a line is that of a tag line. -/
theorem Poised.follows_tag (poised : supply.Poised cursor last tokens) (clear : Clear tokens)
    (split : tokens = front ++ token :: behind) (passed : ∀ other ∈ front, Parse.inTags other = true)
    (ends : token.kind = .eol) :
    Watch.follows (· = .tag) (last.toList ++ front).getLast? token = true := by
  cases found : front.getLast? with
  | none =>
      rw [List.getLast?_eq_none_iff.mp found] at split
      exact absurd ends (clear token (by rw [split]; rfl))
  | some before =>
      have inFront : (last.toList ++ front).getLast? = some before := by
        rw [List.getLast?_append, found]
        rfl
      rw [inFront]
      refine follows_of_joins (poised.joins split inFront) (by rw [ends]; rfl) fun precedes => ?_
      have tags := passed before (List.mem_of_getLast? found)
      rw [ends] at precedes
      rw [Parse.inTags] at tags
      cases same : before.kind <;> simp_all [TokenKind.precedes]

theorem Poised.passTag (poised : supply.Poised cursor last tokens) (clear : Clear tokens)
    (ahead : cursor.ahead = front ++ token :: behind)
    (passed : ∀ other ∈ front, Parse.inTags other = true) {stand : Stand}
    (seen : Watch.peekNth front.length stand = some (.ok token, cursor.stand last)) :
    Watch.passTag front.length stand =
      some (.ok (if Parse.inTags token then .inl (front.length + 1) else .inr token.kind),
        cursor.stand last) := by
  obtain ⟨later, split⟩ := poised.ahead_prefix
  rw [ahead, List.append_assoc, List.cons_append] at split
  have before : (cursor.stand last).before front.length = (last.toList ++ front).getLast? := by
    simp [Stand.before, Cursor.stand, ahead]
  rw [Watch.passTag, Watch.bind_apply, seen]
  by_cases tag : token.kind = .tag
  · simp only [tag, if_true, Parse.inTags, decide_true, Bool.true_or]
    rfl
  · by_cases ends : token.kind = .eol
    · have follows := poised.follows_tag clear split passed ends
      simp only [ends, if_true, Parse.inTags, decide_true, Bool.or_true, reduceCtorEq, if_false]
      rw [Watch.bind_apply, Watch.get_apply]
      simp only [before, follows, if_true]
      rfl
    · simp only [tag, ends, if_false, Parse.inTags, decide_false, Bool.or_self, Bool.false_eq_true]
      rfl

/-- The tokens that are there are passed up to the first that belongs to no tag line. -/
theorem Poised.kindAhead (poised : supply.Poised cursor last tokens) (clear : Clear tokens)
    (ahead : cursor.ahead = front ++ behind) (passed : ∀ other ∈ front, Parse.inTags other = true) :
    Watch.loop Watch.passTag front.length (cursor.stand last) =
      match behind.find? fun token => !Parse.inTags token with
      | some token => some (.ok token.kind, cursor.stand last)
      | none => Watch.loop Watch.passTag cursor.ahead.length (cursor.stand last) := by
  induction behind generalizing front with
  | nil => rw [List.find?_nil, ahead, List.append_nil]
  | cons token rest ih =>
      have turn := poised.passTag clear ahead passed (poised.peekNth_of_ahead ahead)
      by_cases tags : Parse.inTags token = true
      · rw [if_pos tags] at turn
        rw [Watch.loop_of_next turn, List.find?_cons_of_neg (by simp [tags])]
        have split : cursor.ahead = (front ++ [token]) ++ rest := by rw [ahead, List.append_assoc]; rfl
        have onwards := ih split (List.forall_mem_append.mpr ⟨passed, List.forall_mem_singleton.mpr tags⟩)
        rwa [List.length_append, List.length_singleton] at onwards
      · rw [if_neg tags] at turn
        rw [Watch.loop_of_value turn, List.find?_cons_of_pos (by simp [tags])]

/-- The end of a document belongs to no tag line. -/
theorem Poised.more_of_passed (poised : supply.Poised cursor last tokens)
    (passed : ∀ other ∈ cursor.ahead, Parse.inTags other = true) :
    ∀ mode, supply.result = .ok mode → tokens ≠ cursor.ahead := by
  intro mode ended all
  have some := poised.alive mode ended
  obtain ⟨before, split⟩ := poised.within_tokens
  have final : supply.tokens.getLast? = Option.some (tokens.getLast some) := by
    rw [← split, List.getLast?_append_of_ne_nil _ some, List.getLast?_eq_some_getLast some]
  have kind := supply.ended mode ended _ (Option.mem_def.mpr final)
  rw [← all] at passed
  have tags := passed _ (List.getLast_mem some)
  simp [Parse.inTags, kind] at tags

/-- Each token fetched leaves the reader less, and the fuel is for all that it has. -/
theorem Poised.fetchPastTags (poised : supply.Poised cursor last tokens) (clear : Clear tokens)
    (fuel : Nat) (enough : cursor.reader.size < fuel)
    (passed : ∀ other ∈ cursor.ahead, Parse.inTags other = true) :
    supply.Agreement (fun _ _ rest => Clear rest)
      (Watch.loop Watch.passTag cursor.ahead.length (cursor.stand last))
      (Parse.fetchPastTags fuel cursor) := by
  induction fuel generalizing cursor with
  | zero => cases enough
  | succ fuel ih =>
      have fetched := poised.peekNth_of_fetch (poised.more_of_passed passed)
      rw [Parse.fetchPastTags_apply]
      generalize watched : Watch.peekNth cursor.ahead.length (cursor.stand last) = result at fetched
      generalize Parse.fetch cursor = answer at fetched
      cases fetched with
      | @token token rest after split ahead shown smaller =>
          -- One look of the watched parser is one token fetched, and both go on for the same tokens.
          have turn := shown.passTag clear ahead passed watched
          by_cases tags : Parse.inTags token = true
          · rw [if_pos tags] at turn
            have length : cursor.ahead.length + 1 = after.ahead.length := by simp [ahead]
            rw [Watch.loop_of_next turn, length]
            simp only [tags, if_true]
            have proper : token.kind ≠ .eof := by
              rintro ends
              simp [Parse.inTags, ends] at tags
            have less := smaller proper
            refine ih shown (by omega) ?_
            rw [ahead]
            exact List.forall_mem_append.mpr ⟨passed, List.forall_mem_singleton.mpr tags⟩
          · rw [if_neg tags] at turn
            rw [Watch.loop_of_value turn]
            simp only [tags]
            exact .value shown clear
      | @failure error stand after =>
          have halted : Watch.passTag cursor.ahead.length (cursor.stand last) =
              some (.error (.fault error), stand) := by
            rw [Watch.passTag, Watch.bind_apply, watched]
          rw [Watch.loop_of_halt halted]
          exact .fault

theorem agrees_kindAfterTags : supply.Agrees Watch.kindAfterTags Parse.kindAfterTags := by
  intro cursor last tokens poised clear
  have whole : cursor.ahead = [] ++ cursor.ahead := rfl
  have ahead := poised.kindAhead clear whole (by simp)
  rw [Watch.kindAfterTags, Parse.kindAfterTags_apply]
  rw [List.length_nil] at ahead
  rw [ahead]
  cases found : cursor.ahead.find? fun token => !Parse.inTags token with
  | some token => exact .value poised clear
  | none =>
      refine poised.fetchPastTags clear _ (Nat.lt_succ_of_le poised.size_le) ?_
      simpa using found

end Past

/-! A loop without fuel and a repetition with fuel find the same items, as long as there is fuel for all that
is left. -/

section Repetition

theorem agreement_loop {item : β → Watch (Option (α × β))} {parser : β → Parse (Option (α × β))}
    (once : ∀ state, supply.Agrees (item state) (parser state))
    (spends : ∀ state, Progress.Spends (parser state)) (fuel : Nat) (found : List α) (state : β)
    {cursor : Cursor} {last : Option Token} {tokens : List Token}
    (poised : supply.Poised cursor last tokens) (clear : Clear tokens)
    (enough : cursor.remaining < fuel) :
    supply.Agreement (fun _ _ rest => Clear rest)
      (Watch.loop (Watch.pick item) (found, state) (cursor.stand last))
      ((Parse.collectFrom parser fuel state >>= fun others => pure (found ++ others)) cursor) := by
  induction fuel generalizing found state cursor last tokens with
  | zero => cases enough
  | succ fuel ih =>
      have here := once state cursor last tokens poised clear
      rw [Parse.collect_onto]
      generalize watched : item state (cursor.stand last) = result at here
      generalize ran : parser state cursor = answer at here
      cases here with
      | @value value after last rest further clear =>
          cases value with
          | none =>
              rw [Watch.loop_of_value (Watch.pick_of_none watched)]
              exact .value further clear
          | some pair =>
              have less := Parse.spends_iff.mp (spends state) cursor pair after ran
              rw [Watch.loop_of_next (Watch.pick_of_some watched)]
              exact ih (found ++ [pair.1]) pair.2 further clear (by omega)
      | fault =>
          rw [Watch.loop_of_halt (Watch.pick_of_halt watched)]
          exact .fault

theorem agrees_gather {item : β → Watch (Option (α × β))} {parser : β → Parse (Option (α × β))}
    (once : ∀ state, supply.Agrees (item state) (parser state))
    (spends : ∀ state, Progress.Spends (parser state)) (state : β) :
    supply.Agrees (Watch.gather item state) (Parse.collect parser state) := by
  intro cursor last tokens poised clear
  rw [Watch.gather, Parse.collect_eq_onto]
  exact agreement_loop once spends _ [] state poised clear (Nat.lt_succ_of_le poised.funded)

end Repetition

section Rows

variable {cursor : Cursor} {border : Token} {tokens : List Token}

theorem Poised.border_of_cell {cell : Token} (poised : supply.Poised cursor (some cell) tokens)
    (kind : cell.kind = .cell) : ∃ closing rest, tokens = closing :: rest ∧ closing.kind = .pipe := by
  obtain ⟨closing, rest, split, _, precedes⟩ := exists_next poised.within (Or.inr (Or.inr kind))
  refine ⟨closing, rest, split, ?_⟩
  rw [kind] at precedes
  cases same : closing.kind <;> rw [same] at precedes <;> first | rfl | cases precedes

/-- Behind a border comes another one, or a cell and then one, or the end of the line. So a cell of the parser
is one turn of the watched row or two, or its last. -/
theorem Poised.cell (poised : supply.Poised cursor (some border) tokens) (kind : border.kind = .pipe)
    (cells : List TableCell) :
    (∃ cell closing after rest,
      Parse.cell border.location cursor = (.ok (some (cell, closing.location)), after) ∧
      Watch.loop Watch.growRow ⟨cells, none, border.location⟩ (cursor.stand (some border)) =
        Watch.loop Watch.growRow ⟨cells ++ [cell], none, closing.location⟩ (after.stand (some closing)) ∧
      closing.kind = .pipe ∧ supply.Poised after (some closing) rest) ∨
    (∃ after last rest, Parse.cell border.location cursor = (.ok none, after) ∧
      Watch.loop Watch.growRow ⟨cells, none, border.location⟩ (cursor.stand (some border)) =
        some (.ok cells, after.stand last) ∧ supply.Poised after last rest ∧ Clear rest) ∨
    ∃ error stand after, Parse.cell border.location cursor = (.error error, after) ∧
      Watch.loop Watch.growRow ⟨cells, none, border.location⟩ (cursor.stand (some border)) =
        some (.error (.fault error), stand) := by
  obtain ⟨next, rest, rfl, _, precedes⟩ := exists_next poised.within (Or.inr (Or.inl kind))
  rw [kind] at precedes
  obtain ⟨token, others, more, after, split, ahead, shown, peeked, advanced⟩ |
    ⟨error, stand, after, peeked, halted⟩ := poised.meet
  · cases split
    have further := shown.consume ahead (by rintro ends; rw [ends] at precedes; cases precedes)
    cases same : next.kind with
    | pipe =>
        exact Or.inl ⟨_, next, _, rest, Parse.cell_of_border border.location peeked same,
          Watch.loop_of_next (Watch.growRow_of_border _ advanced same), same, further⟩
    | cell =>
        have first : Watch.growRow ⟨cells, none, border.location⟩ (cursor.stand (some border)) = _ :=
          Watch.growRow_of_cell rfl advanced same
        -- The watched row takes the cell in one turn and the border behind it in another.
        have turn := Watch.loop_of_next first
        obtain ⟨closing, rest, rfl, pipe⟩ := further.border_of_cell same
        obtain ⟨token, others, more, last, split, ahead, again, met, advanced⟩ |
          ⟨error, stand, last, met, halted⟩ := further.meet
        · cases split
          exact Or.inl ⟨_, closing, _, rest, Parse.cell_of_text border.location peeked same met pipe,
            turn.trans (Watch.loop_of_next (Watch.growRow_of_border _ advanced pipe)), pipe,
            again.consume ahead (by rw [pipe]; decide)⟩
        · exact Or.inr (Or.inr ⟨error, stand, last, Parse.cell_of_broken border.location peeked same met,
            turn.trans (Watch.loop_of_halt (Watch.growRow_of_halt halted))⟩)
    | eol =>
        exact Or.inr (Or.inl ⟨_, _, rest, Parse.cell_of_end border.location peeked same,
          Watch.loop_of_value (Watch.growRow_of_end advanced same), further,
          further.clear (by rw [same]; rfl)⟩)
    | _ =>
        rw [same] at precedes
        cases precedes
  · exact Or.inr (Or.inr ⟨error, stand, after, Parse.cell_of_error border.location peeked,
      Watch.loop_of_halt (Watch.growRow_of_halt halted)⟩)

theorem agreement_cells (fuel : Nat) (cells : List TableCell)
    (poised : supply.Poised cursor (some border) tokens) (kind : border.kind = .pipe)
    (enough : cursor.remaining < fuel) :
    supply.Agreement (fun _ _ rest => Clear rest)
      (Watch.loop Watch.growRow ⟨cells, none, border.location⟩ (cursor.stand (some border)))
      ((Parse.collectFrom Parse.cell fuel border.location >>= fun others => pure (cells ++ others))
        cursor) := by
  induction fuel generalizing cells cursor border tokens with
  | zero => cases enough
  | succ fuel ih =>
      rw [Parse.collect_onto]
      obtain ⟨cell, closing, after, rest, one, turns, pipe, further⟩ |
        ⟨after, last, rest, one, ended, further, clear⟩ | ⟨error, stand, after, one, halted⟩ :=
        poised.cell kind cells
      · have less := Parse.spends_iff.mp (Parse.spends_cell _) _ _ _ one
        rw [turns, one]
        exact ih _ further pipe (by omega)
      · rw [ended, one]
        exact .value further clear
      · rw [halted, one]
        exact .fault

theorem agrees_row (width : Option Nat) : supply.Agrees (Watch.row width) (Parse.row width) := by
  intro cursor last tokens poised clear
  refine (poised.takeIf (by decide)).bind fun found after last rest further fits => ?_
  cases found with
  | none => exact .value further (fits.2.1 ▸ clear)
  | some border =>
      obtain ⟨rfl, kind⟩ := fits
      have cells := agreement_cells (after.limit + 1) [] further kind (Nat.lt_succ_of_le further.funded)
      rw [← Parse.collect_eq_onto] at cells
      refine cells.bind fun cells last after rest further clear => ?_
      split
      · exact .value further clear
      · exact .fault

theorem agrees_docStringLine (block : Block) (indent : Nat) :
    supply.Agrees (Watch.docStringLine block indent) (Parse.docStringLine block indent) := by
  intro cursor last tokens poised clear
  refine poised.look.bind fun token middle _ _ shown fits => ?_
  obtain ⟨rfl, rfl, first⟩ := fits
  refine shown.reader.bind fun reader after _ _ again fits => ?_
  obtain ⟨rfl, rfl⟩ := fits
  split
  · rename_i verbatim
    refine (again.advance first (by rw [verbatim.1]; decide)).bind fun taken last _ _ further fits => ?_
    obtain ⟨rfl, _, rfl⟩ := fits
    exact .value further (further.clear (by rw [verbatim.1]; rfl))
  · exact .value again clear

end Rows

theorem closed_agrees : Watch.Closed supply.Agrees where
  pure := agrees_pure
  fail := agrees_fail
  bind := agrees_bind
  gather once _ spends := agrees_gather once spends
  reader := agrees_reader
  peek := agrees_peek
  takeIf := agrees_takeIf
  expect := agrees_expect
  kindAfterTags := agrees_kindAfterTags
  tag := agrees_tag
  row := agrees_row
  docStringLine := agrees_docStringLine

/-- A parser that ends a document, of which only the answer counts. -/
def Concludes (supply : Supply) (watched : Watch α) (parser : Parse α) : Prop :=
  ∀ cursor last tokens, supply.Poised cursor last tokens → Clear tokens →
    (watched (cursor.stand last)).map (·.1) = some ((parser cursor).1.mapError .fault)

theorem concludes_bind {first : Watch α} {second : Parse α} {next : α → Watch β} {other : α → Parse β}
    (head : supply.Agrees first second) (tail : ∀ value, supply.Concludes (next value) (other value)) :
    supply.Concludes (first >>= next) (second >>= other) := by
  intro cursor last tokens poised clear
  have agreement := head cursor last tokens poised clear
  rw [Watch.bind_apply, Parse.bind_apply]
  generalize first (cursor.stand last) = watched at agreement
  generalize second cursor = answer at agreement
  cases agreement with
  | value poised clear => exact tail _ _ _ _ poised clear
  | fault => rfl

theorem concludes_ending (expected : String) (value : Reader → β) :
    supply.Concludes (Watch.expect .eof expected >>= fun _ => Watch.reader >>= fun reader =>
        pure (value reader))
      (Parse.expect .eof expected >>= fun _ => Parse.reader >>= fun reader => pure (value reader)) := by
  intro cursor last tokens poised clear
  rw [Watch.bind_apply, Parse.bind_apply]
  obtain ⟨token, rest, after, same, watched, met, further⟩ | ⟨error, stand, after, watched, failed⟩ :=
    poised.expect .eof expected
  · rw [watched, met]
    rfl
  · rw [watched, failed]
    rfl

theorem concludes_feature : supply.Concludes Watch.feature Parse.feature := by
  refine concludes_bind closed_agrees.tags fun tags => ?_
  refine concludes_bind (closed_agrees.heading _ closed_agrees.featureName) fun heading => ?_
  refine concludes_bind closed_agrees.background fun background => ?_
  refine concludes_bind closed_agrees.definitions fun children => ?_
  refine concludes_bind closed_agrees.rules fun rules => ?_
  exact concludes_ending _ _

section Documents

variable {setup : Setup} {text : Text} {read : List Token} {result : Except LexError Mode}

theorem poised_start (reads : Mode.Reads setup (.initial setup) (Line.split text) read result) :
    (ofReads reads).Poised (.ofReader (.start setup text)) none (ofReads reads).tokens where
  funded := Cursor.funded_ofReader _
  tracks := by
    have tracks := Reader.tracks_restart (Reader.tracks_start setup) text
    rw [Reader.restart_start] at tracks
    exact ⟨setup, text, tracks⟩
  held := by
    refine ⟨_, ⟨1, read, closing text result, Reader.holds_start setup text reads, ?_, rfl⟩, rfl⟩
    cases result with
    | ok mode => exact Or.inr rfl
    | error error => exact Or.inl rfl
  within := List.suffix_refl _
  begun _ := opens_of_reads reads
  alive := by
    rintro mode rfl
    exact List.append_ne_nil_of_right_ne_nil _ (List.cons_ne_nil _ _)

end Documents

end Supply

namespace Watch

/-- A watched parser comes to the same answer as the parser, whatever it was used for before. -/
theorem parse_eq (setup : Setup) (documents : List Text) (text : Text) :
    parse ((Reader.start setup []).afterParsing documents) text =
      some ((Gherkin.parse setup text).mapError .fault) := by
  have fresh : Reader.Reached setup [] (.start setup []) := .start
  obtain ⟨last, reached⟩ := fresh.afterParsing documents
  obtain ⟨read, result, reads⟩ := Mode.exists_reads setup (.initial setup) (Line.split text)
  rw [parse, reached.restart_eq, Reader.restart_start, parse_eq_feature]
  exact Supply.concludes_feature _ _ _ (Supply.poised_start reads) (Supply.clear_of_reads reads)

end Watch

/-! Parsing ends.

Each loop has a measure, made of the lines that are unread, the tokens in the queue and those in the
buffer, and a turn that goes on makes it less. This is so wherever the loop stands, on any document and
also behind an error. The end of a document, which the reader answers again and again, counts for nothing
in the measures, so no loop goes on with it for ever. -/

namespace Watch

open Progress (spends_stateless)

structure LoopsShrink : Prop where
  lines : Shrinks seek fun _ stand => stand.reader.unread.length
  buffer : ∀ place,
    Shrinks (fill place) fun _ stand => stand.reader.size + (place + 1 - stand.ahead.length)
  pastTags : Shrinks passTag fun place stand => stand.reader.size + (stand.ahead.length - place)
  tags : Shrinks (pick (stateless tag)) fun _ stand => stand.size
  description : Shrinks (pick (stateless descriptionLine)) fun _ stand => stand.size
  steps : Shrinks (pick step) fun _ stand => stand.size
  rows : Shrinks (pick row) fun _ stand => stand.size
  cells : Shrinks growRow fun _ stand => stand.size
  docString : ∀ block indent,
    Shrinks (pick (stateless (docStringLine block indent))) fun _ stand => stand.size
  examples : Shrinks (pick (stateless Watch.examples)) fun _ stand => stand.size
  definitions : Shrinks (pick (stateless definition)) fun _ stand => stand.size
  rules : Shrinks (pick (stateless rule)) fun _ stand => stand.size

theorem loops_shrink : LoopsShrink where
  lines := shrinks_seek
  buffer := shrinks_fill
  pastTags := shrinks_passTag
  tags := shrinks_pick (spends_stateless spends_tag)
  description := shrinks_pick (spends_stateless spends_descriptionLine)
  steps := shrinks_pick spends_step
  rows := shrinks_pick spends_row
  cells := shrinks_growRow
  docString _ _ := shrinks_pick (spends_stateless (spends_docStringLine _ _))
  examples := shrinks_pick (spends_stateless spends_examples)
  definitions := shrinks_pick (spends_stateless spends_definition)
  rules := shrinks_pick (spends_stateless spends_rule)

end Watch

/-- Every turn of a loop leaves less, and so the grammar comes to a result from wherever it stands. On a
document it is the result of the parser, whose loops have fuel: the fuel never ends one of them. -/
theorem parsing_ends (setup : Setup) (text : Text) :
    Watch.LoopsShrink ∧
    (∀ stand, ∃ result after, Watch.feature stand = some (result, after)) ∧
    ∀ documents, Watch.parse ((Reader.start setup []).afterParsing documents) text =
      some ((parse setup text).mapError .fault) := by
  refine ⟨Watch.loops_shrink, fun stand => ?_, fun documents => Watch.parse_eq setup documents text⟩
  obtain ⟨result, after, ended, _⟩ := Watch.ends_feature stand
  exact ⟨result, after, ended⟩

end Gherkin
