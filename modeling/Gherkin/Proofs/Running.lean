import Gherkin.Grammar.Document

/-!
Running parsers.

One equation for each question the grammar can ask of a cursor, and one rule for a parser that
succeeds after another. No later proof opens a parser monad again.
-/

namespace Gherkin

/-- What is known of an outcome tells that there is one. -/
theorem exists_of_outcome {ε α β : Type} {result : Except ε α} {view : α → β} {value : β}
    (outcome : result.toOption.map view = some value) : ∃ found, result = .ok found ∧ view found = value := by
  cases result with
  | error error => cases outcome
  | ok found => exact ⟨found, rfl, Option.some.inj outcome⟩

theorem exists_of_isOk {ε α : Type} {result : Except ε α} (accepted : result.isOk = true) :
    ∃ found, result = .ok found := by
  cases result with
  | error error => cases accepted
  | ok found => exact ⟨found, rfl⟩

namespace Parse

variable {α β : Type}

theorem get_apply (cursor : Cursor) : (get : Parse Cursor) cursor = (.ok cursor, cursor) := rfl

theorem reader_apply (cursor : Cursor) : reader cursor = (.ok cursor.reader, cursor) := rfl

/-- A sequence succeeds when both parts do, the second from where the first one stops. -/
theorem bind_eq_ok (first : Parse α) (next : α → Parse β) (cursor after : Cursor) (value : β) :
    (first >>= next) cursor = (.ok value, after) ↔
      ∃ found middle, first cursor = (.ok found, middle) ∧ next found middle = (.ok value, after) := by
  rw [bind_apply]
  constructor
  · intro run
    split at run
    · rename_i found middle here
      exact ⟨found, middle, here, run⟩
    · cases run
  · rintro ⟨found, middle, here, run⟩
    rw [here]
    exact run

theorem pure_eq_ok (found value : α) (cursor after : Cursor) :
    (pure found : Parse α) cursor = (.ok value, after) ↔ found = value ∧ cursor = after := by
  rw [pure_apply, Prod.mk.injEq, Except.ok.injEq]

theorem peek_apply (cursor : Cursor) :
    peek cursor =
      match cursor.ahead with
      | token :: _ => (.ok token, cursor)
      | [] => fetch cursor := by
  rw [peek, bind_apply, get_apply]
  simp only
  cases cursor.ahead <;> rfl

theorem peek_cons (cursor : Cursor) (token : Token) (rest : List Token)
    (ahead : cursor.ahead = token :: rest) : peek cursor = (.ok token, cursor) := by
  rw [peek_apply, ahead]

/-- A token that was looked at is the first of those not consumed. -/
theorem ahead_of_peek (cursor after : Cursor) (token : Token)
    (peeked : peek cursor = (.ok token, after)) : ∃ rest, after.ahead = token :: rest := by
  rw [peek_apply] at peeked
  split at peeked
  · rename_i first rest ahead
    cases peeked
    exact ⟨rest, ahead⟩
  · rename_i ahead
    unfold fetch at peeked
    split at peeked
    · cases peeked
      exact ⟨[], by rw [ahead]; rfl⟩
    · cases peeked

def consumed (cursor : Cursor) : Cursor :=
  { cursor with ahead := cursor.ahead.tail }

theorem advance_apply (cursor : Cursor) :
    advance cursor =
      match peek cursor with
      | (.ok token, after) => (.ok token, consumed after)
      | (.error error, after) => (.error error, after) := by
  rw [advance, bind_apply]
  rcases peek cursor with ⟨_ | _, _⟩ <;> rfl

theorem takeIf_apply (kind : TokenKind) (cursor : Cursor) :
    takeIf kind cursor =
      match peek cursor with
      | (.ok token, after) =>
          if token.kind = kind then (.ok (some token), consumed after) else (.ok none, after)
      | (.error error, after) => (.error error, after) := by
  rw [takeIf, bind_apply]
  cases peeked : peek cursor with
  | mk result after =>
      cases result with
      | error error => rfl
      | ok token =>
          obtain ⟨rest, ahead⟩ := ahead_of_peek cursor after token peeked
          simp only
          split
          · rw [bind_apply, advance_apply, peek_cons after token rest ahead]
            rfl
          · rfl

theorem expect_apply (kind : TokenKind) (expected : String) (cursor : Cursor) :
    expect kind expected cursor =
      match peek cursor with
      | (.ok token, after) =>
          if token.kind = kind then (.ok token, consumed after)
          else (.error (.grammar ⟨token.location, expected, token.describe⟩), consumed after)
      | (.error error, after) => (.error error, after) := by
  rw [expect, bind_apply, advance_apply]
  rcases peek cursor with ⟨_ | token, after⟩
  · rfl
  · simp only
    split <;> rfl

theorem kindAfterTags_apply (cursor : Cursor) :
    kindAfterTags cursor =
      match cursor.ahead.find? fun token => !inTags token with
      | some token => (.ok token.kind, cursor)
      | none => fetchPastTags (cursor.limit + 1) cursor := by
  rw [kindAfterTags, bind_apply, get_apply]
  simp only
  cases cursor.ahead.find? fun token => !inTags token <;> rfl

theorem fetchPastTags_apply (fuel : Nat) (cursor : Cursor) :
    fetchPastTags (fuel + 1) cursor =
      match fetch cursor with
      | (.ok token, after) =>
          if inTags token then fetchPastTags fuel after else (.ok token.kind, after)
      | (.error error, after) => (.error error, after) := by
  rw [fetchPastTags, bind_apply]
  rcases fetch cursor with ⟨_ | token, after⟩
  · rfl
  · simp only
    split <;> rfl

theorem cell_apply (border : Location) (cursor : Cursor) :
    cell border cursor =
      (takeIf .cell >>= fun raw => advance >>= fun token => fun after =>
        if token.kind = .pipe then
          (.ok (some ((raw.map TableCell.ofToken).getD ⟨[], border⟩, token.location)), after)
        else if token.kind = .eol then (.ok none, after)
        else (.error (.grammar ⟨token.location, "a table cell or `|`", token.describe⟩), after))
        cursor := by
  rw [cell]
  refine congrFun (congrArg _ (funext fun raw => congrArg _ (funext fun token => funext fun after => ?_))) _
  obtain ⟨kind, text, location⟩ := token
  cases kind <;> rfl

theorem collect_apply (item : β → Parse (Option (α × β))) (state : β) (cursor : Cursor) :
    collect item state cursor = collectFrom item (cursor.limit + 1) state cursor := rfl

theorem collectFrom_succ (item : β → Parse (Option (α × β))) (fuel : Nat) (state : β)
    (cursor : Cursor) :
    collectFrom item (fuel + 1) state cursor =
      match item state cursor with
      | (.ok none, after) => (.ok [], after)
      | (.ok (some (element, next)), after) =>
          (collectFrom item fuel next >>= fun others => pure (element :: others)) after
      | (.error error, after) => (.error error, after) := by
  rw [collectFrom, bind_apply]
  rcases item state cursor with ⟨_ | _ | ⟨element, next⟩, after⟩ <;> rfl

/-- Without items the first one has declined. -/
theorem declined_of_collectFrom_nil {item : β → Parse (Option (α × β))} {fuel : Nat} {state : β}
    {cursor after : Cursor} (run : collectFrom item (fuel + 1) state cursor = (.ok [], after)) :
    item state cursor = (.ok none, after) := by
  rw [collectFrom_succ] at run
  cases here : item state cursor with
  | mk result middle =>
      rw [here] at run
      match result with
      | .error error => cases run
      | .ok none =>
          cases run
          rfl
      | .ok (some (element, next)) =>
          obtain ⟨others, last, _, ended⟩ := (bind_eq_ok _ _ _ _ _).mp run
          cases ended

/-- Items one after another until one declines, with no fuel to run out of. -/
inductive Repeats (item : β → Parse (Option (α × β))) : β → Cursor → List α → Cursor → Prop where
  | stop {state : β} {cursor after : Cursor} (declined : item state cursor = (.ok none, after)) :
      Repeats item state cursor [] after
  | next {state later : β} {cursor middle after : Cursor} {value : α} {values : List α}
      (taken : item state cursor = (.ok (some (value, later)), middle))
      (others : Repeats item later middle values after) :
      Repeats item state cursor (value :: values) after

theorem collectFrom_of_repeats {item : β → Parse (Option (α × β))} {state : β}
    {cursor after : Cursor} {values : List α} (repeats : Repeats item state cursor values after)
    (fuel : Nat) (enough : values.length < fuel) :
    collectFrom item fuel state cursor = (.ok values, after) := by
  induction repeats generalizing fuel with
  | stop declined =>
      obtain ⟨fuel, rfl⟩ := Nat.exists_eq_succ_of_ne_zero (Nat.ne_zero_of_lt enough)
      rw [collectFrom_succ, declined]
  | next taken _ ih =>
      obtain ⟨fuel, rfl⟩ := Nat.exists_eq_succ_of_ne_zero (Nat.ne_zero_of_lt enough)
      rw [collectFrom_succ, taken]
      simp only [List.length_cons] at enough
      exact (bind_eq_ok _ _ _ _ _).mpr ⟨_, _, ih fuel (by omega), rfl⟩

/-- Fuel for all tokens ahead lets a repetition end by itself, if every item takes a token and
leaves some. -/
theorem repeats_of_collectFrom {item : β → Parse (Option (α × β))} (holds : Cursor → Prop)
    (ahead : ∀ cursor, holds cursor → cursor.ahead ≠ [])
    (takes : ∀ state cursor value next after, holds cursor →
      item state cursor = (.ok (some (value, next)), after) →
        holds after ∧ after.ahead.length < cursor.ahead.length)
    (fuel : Nat) (state : β) (cursor after : Cursor) (values : List α) (start : holds cursor)
    (enough : cursor.ahead.length ≤ fuel)
    (run : collectFrom item fuel state cursor = (.ok values, after)) :
    Repeats item state cursor values after := by
  induction fuel generalizing state cursor values with
  | zero => exact absurd (List.length_eq_zero_iff.mp (Nat.le_zero.mp enough)) (ahead cursor start)
  | succ fuel ih =>
      rw [collectFrom_succ] at run
      cases here : item state cursor with
      | mk result middle =>
          rw [here] at run
          match result, here with
          | .error error, here => cases run
          | .ok none, here =>
              cases run
              exact .stop here
          | .ok (some (value, next)), here =>
              obtain ⟨holds, shorter⟩ := takes state cursor value next middle start here
              obtain ⟨others, last, further, rfl, rfl⟩ :
                  ∃ others last, collectFrom item fuel next middle = (.ok others, last) ∧
                    value :: others = values ∧ last = after := by
                obtain ⟨others, last, further, ended⟩ := (bind_eq_ok _ _ _ _ _).mp run
                exact ⟨others, last, further, (pure_eq_ok _ _ _ _).mp ended⟩
              exact .next here (ih next middle others holds (by omega) further)

theorem many_apply (item : Parse (Option α)) (cursor : Cursor) :
    many item cursor = collectFrom (stateless item) (cursor.limit + 1) () cursor := rfl

theorem stateless_eq_ok (item : Parse (Option α)) (state : Unit) (found : Option (α × Unit))
    (cursor after : Cursor) :
    stateless item state cursor = (.ok found, after) ↔
      item cursor = (.ok (found.map (·.1)), after) := by
  rw [stateless, bind_eq_ok]
  constructor
  · rintro ⟨value, middle, here, ended⟩
    obtain ⟨rfl, rfl⟩ := (pure_eq_ok _ _ _ _).mp ended
    rw [here]
    cases value <;> rfl
  · intro here
    refine ⟨_, after, here, (pure_eq_ok _ _ _ _).mpr ⟨?_, rfl⟩⟩
    cases found <;> rfl

end Parse

theorem parse_eq_feature (setup : Setup) (text : Text) :
    parse setup text = (Parse.feature (.ofReader (.start setup text))).1 := by
  rw [parse, Reader.parse, Reader.restart_start]
  rfl

end Gherkin
