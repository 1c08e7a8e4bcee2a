import Gherkin.Proofs.Headers
import Gherkin.Proofs.Phrases

/-!
What the grammar gets to see.

A supply is all that can be had of a document: its tokens up to its end, or up to its first error. A
cursor shows those tokens of the supply that are not consumed, whether it has them already or still has
to ask the reader for them. Every question of the grammar is answered from the tokens shown, and with the
error of the document once there are none.
-/

namespace Gherkin

namespace Mode

variable {setup : Setup} {mode : Mode}

theorem dialect_read (past : mode.headerAllowed = false) (line : Line) :
    (mode.read setup line).2.headerAllowed = false ∧
      (mode.read setup line).2.dialect = mode.dialect := by
  cases read : mode.read setup line with
  | mk result after =>
      cases result with
      | ok tokens =>
          obtain ⟨still, _, same⟩ := (step_of_read read).keeps past
          exact ⟨still, same⟩
      | error error =>
          rcases (read_eq_error read).2 with rfl | rfl
          · exact ⟨past, rfl⟩
          · exact ⟨rfl, rfl⟩

theorem dialect_through (past : mode.headerAllowed = false) (lines : List Line) :
    (mode.through setup lines).dialect = mode.dialect := by
  induction lines generalizing mode with
  | nil => rfl
  | cons line rest ih =>
      obtain ⟨still, same⟩ := dialect_read past line
      exact (ih still).trans same

end Mode

namespace Reader

def goal (reader : Reader) : Mode :=
  reader.mode.through reader.setup reader.unread

theorem goal_pull (lines : List Line) (reader : Reader) (unread : reader.unread = lines) :
    (reader.pull lines).2.goal = reader.goal := by
  induction lines generalizing reader with
  | nil => rfl
  | cons line rest ih =>
      have onwards : reader.goal =
          (reader.mode.read reader.setup line).2.through reader.setup rest := by
        rw [goal, unread]
        rfl
      rw [onwards, pull]
      split
      · rename_i error mode read
        rw [read]
        rfl
      · rename_i mode read
        rw [ih _ rfl, read]
        rfl
      · rename_i token queue mode read
        rw [read]
        rfl

theorem goal_next (reader : Reader) : reader.next.2.goal = reader.goal := by
  unfold next
  split
  · rfl
  · exact goal_pull _ reader rfl

theorem goal_nextUncommented (fuel : Nat) (reader : Reader) :
    (reader.nextUncommented fuel).2.goal = reader.goal := by
  induction fuel generalizing reader with
  | zero => exact goal_next reader
  | succ fuel ih =>
      have once := goal_next reader
      rw [nextUncommented]
      split
      · rename_i token after read
        rw [read] at once
        split
        · exact (ih after).trans once
        · exact once
      · rename_i error after read
        rw [read] at once
        exact once

def Steady (reader : Reader) : Prop :=
  reader.mode.headerAllowed = false ∨ reader.unread = []

theorem Steady.dialect_goal {reader : Reader} (steady : reader.Steady) :
    reader.goal.dialect = reader.mode.dialect := by
  rcases steady with past | none
  · exact Mode.dialect_through past _
  · rw [goal, none]
    rfl

end Reader

/-- The answer of the reader is put behind the tokens that are there. -/
theorem fetch_of_holds (cursor : Cursor) {number : Nat} {later : List Token}
    {result : Except LexError Mode} (holds : cursor.reader.Holds number later result)
    (size : cursor.reader.size ≤ cursor.limit) :
    (∃ token rest next reader, uncommented later = token :: uncommented rest ∧
      Parse.fetch cursor = (.ok token, { cursor with reader, ahead := cursor.ahead ++ [token] }) ∧
      reader.Holds next rest result ∧ reader.Steady ∧ reader.goal = cursor.reader.goal ∧
      reader.size < cursor.reader.size) ∨
    uncommented later = [] ∧ ((∃ last, result = .ok last) ∨
      ∃ error reader, result = .error error ∧
        Parse.fetch cursor = (.error (.lex error), { cursor with reader })) := by
  have answer := Reader.answer_nextUncommented holds cursor.limit size
  have goal := Reader.goal_nextUncommented cursor.limit cursor.reader
  have same := uncommented_dropWhile later
  generalize start : later.dropWhile isComment = dropped at answer same
  generalize called : cursor.reader.nextUncommented cursor.limit = given at answer goal
  cases answer with
  | @token token more _ reader next held further line begun continues smaller =>
      have counts := kind_of_dropWhile later more token start
      have first : uncommented (token :: more) = token :: uncommented more := by
        simp [uncommented, counts]
      exact Or.inl ⟨token, more, next, reader, by rw [← same, first], by rw [Parse.fetch, called], held,
        Or.inl (begun counts), goal, smaller⟩
  | failure error reader =>
      exact Or.inr ⟨same.symm, Or.inr ⟨error, reader, rfl, by rw [Parse.fetch, called]⟩⟩
  | ending => exact Or.inr ⟨same.symm, Or.inl ⟨_, rfl⟩⟩

/-! A supply holds what the grammar can ever be given, and says how the tokens lie on their lines. A cursor
shows what is left of it. -/

structure Supply where
  /-- All tokens but comments. -/
  tokens : List Token
  dialect : Dialect
  limit : Nat
  /-- The error behind the tokens, if they do not reach the end of the document. -/
  result : Except LexError Mode
  chain : tokens.IsChain Joins
  whole : ∀ token ∈ tokens.getLast?, token.kind ≠ .tag ∧ token.kind ≠ .pipe ∧ token.kind ≠ .cell
  enough : tokens.length ≤ limit + 1
  ended : ∀ last, result = .ok last → ∀ token ∈ tokens.getLast?, token.kind = .eof

namespace Supply

variable {supply : Supply} {cursor : Cursor} {tokens : List Token}

structure Shows (supply : Supply) (cursor : Cursor) (tokens : List Token) : Prop where
  limit : cursor.limit = supply.limit
  size : cursor.reader.size ≤ cursor.limit
  steady : cursor.reader.Steady
  dialect : cursor.reader.mode.dialect = supply.dialect
  held : ∃ number later, cursor.reader.Holds number later supply.result ∧
    tokens = cursor.ahead ++ uncommented later
  within : tokens <:+ supply.tokens
  alive : ∀ last, supply.result = .ok last → tokens ≠ []

/-- A token comes, unless the tokens shown are all there already. -/
theorem Shows.fetch (shows : supply.Shows cursor tokens) :
    (∃ token rest after, tokens = cursor.ahead ++ token :: rest ∧
      Parse.fetch cursor = (.ok token, after) ∧ after.ahead = cursor.ahead ++ [token] ∧
      supply.Shows after tokens ∧ after.reader.size < cursor.reader.size) ∨
    tokens = cursor.ahead ∧ ((∃ last, supply.result = .ok last) ∨
      ∃ error after, supply.result = .error error ∧
        Parse.fetch cursor = (.error (.lex error), after)) := by
  obtain ⟨number, later, holds, split⟩ := shows.held
  obtain ⟨token, rest, next, reader, more, fetched, held, steady, goal, smaller⟩ | ⟨none, outcome⟩ :=
    fetch_of_holds cursor holds shows.size
  · rw [more] at split
    refine Or.inl ⟨token, uncommented rest, { cursor with reader, ahead := cursor.ahead ++ [token] },
      split, fetched, rfl, ?_, smaller⟩
    constructor
    case limit => exact shows.limit
    case size => exact Nat.le_of_lt (Nat.lt_of_lt_of_le smaller shows.size)
    case steady => exact steady
    case dialect =>
      have kept : reader.goal.dialect = cursor.reader.goal.dialect := congrArg Mode.dialect goal
      rw [steady.dialect_goal, shows.steady.dialect_goal] at kept
      exact kept.trans shows.dialect
    case held => exact ⟨next, rest, held, by simp [split]⟩
    case within => exact shows.within
    case alive => exact shows.alive
  · rw [none, List.append_nil] at split
    refine Or.inr ⟨split, outcome.imp_right ?_⟩
    rintro ⟨error, reader, failed, fetched⟩
    exact ⟨error, _, failed, fetched⟩

inductive Peeked (supply : Supply) (tokens : List Token) :
    Except ParseError Token × Cursor → Prop where
  | token {token : Token} {rest more : List Token} {after : Cursor} (split : tokens = token :: rest)
      (shows : supply.Shows after tokens) (ahead : after.ahead = token :: more) :
      Peeked supply tokens (.ok token, after)
  | failure {error : LexError} {after : Cursor} (none : tokens = [])
      (failed : supply.result = .error error) : Peeked supply tokens (.error (.lex error), after)

theorem Shows.peek (shows : supply.Shows cursor tokens) :
    supply.Peeked tokens (Parse.peek cursor) := by
  rw [Parse.peek_apply]
  cases ahead : cursor.ahead with
  | cons token more =>
      obtain ⟨_, later, _, split⟩ := shows.held
      rw [ahead] at split
      exact .token split shows ahead
  | nil =>
      simp only
      obtain ⟨token, rest, after, split, fetched, further, shown, _⟩ | ⟨none, outcome⟩ := shows.fetch
      · rw [fetched]
        rw [ahead] at split further
        exact .token split shown further
      · rw [ahead] at none
        obtain ⟨last, passed⟩ | ⟨error, after, failed, fetched⟩ := outcome
        · exact absurd none (shows.alive last passed)
        · rw [fetched]
          exact .failure none failed

theorem Shows.consume {token : Token} {rest more : List Token}
    (shows : supply.Shows cursor (token :: rest)) (ahead : cursor.ahead = token :: more)
    (proper : token.kind ≠ .eof) : supply.Shows (Parse.consumed cursor) rest where
  limit := shows.limit
  size := shows.size
  steady := shows.steady
  dialect := shows.dialect
  held := by
    obtain ⟨number, later, holds, split⟩ := shows.held
    refine ⟨number, later, holds, ?_⟩
    rw [ahead] at split
    rw [Parse.consumed, ahead]
    exact (List.cons.inj split).2
  within := (List.suffix_cons token rest).trans shows.within
  alive := by
    intro last passed none
    obtain ⟨before, split⟩ := shows.within
    have final := supply.ended last passed token (by rw [← split, none]; simp)
    exact proper final

inductive TakenIf (supply : Supply) (kind : TokenKind) (tokens : List Token) :
    Except ParseError (Option Token) × Cursor → Prop where
  | taken {token : Token} {rest : List Token} {after : Cursor} (split : tokens = token :: rest)
      (same : token.kind = kind) (shows : supply.Shows after rest) :
      TakenIf supply kind tokens (.ok (some token), after)
  | declined {token : Token} {rest : List Token} {after : Cursor} (split : tokens = token :: rest)
      (other : token.kind ≠ kind) (shows : supply.Shows after tokens) :
      TakenIf supply kind tokens (.ok none, after)
  | failure {error : LexError} {after : Cursor} (none : tokens = [])
      (failed : supply.result = .error error) :
      TakenIf supply kind tokens (.error (.lex error), after)

theorem Shows.takeIf (shows : supply.Shows cursor tokens) {kind : TokenKind} (proper : kind ≠ .eof) :
    supply.TakenIf kind tokens (Parse.takeIf kind cursor) := by
  rw [Parse.takeIf_apply]
  have looked := shows.peek
  generalize Parse.peek cursor = answer at looked
  cases looked with
  | @token token rest more after split shown ahead =>
      by_cases same : token.kind = kind
      · simp only [same, ↓reduceIte]
        subst split
        exact .taken rfl same (shown.consume ahead (same ▸ proper))
      · simp only [same, ↓reduceIte]
        exact .declined split same shown
  | failure none failed => exact .failure none failed

inductive Expected (supply : Supply) (kind : TokenKind) (tokens : List Token) :
    Except ParseError Token × Cursor → Prop where
  | met {token : Token} {rest : List Token} {after : Cursor} (split : tokens = token :: rest)
      (same : token.kind = kind) (shows : kind ≠ .eof → supply.Shows after rest) :
      Expected supply kind tokens (.ok token, after)
  | missed {token : Token} {rest : List Token} {expected found : String} {after : Cursor}
      (split : tokens = token :: rest) (other : token.kind ≠ kind) :
      Expected supply kind tokens (.error (.grammar ⟨token.location, expected, found⟩), after)
  | failure {error : LexError} {after : Cursor} (none : tokens = [])
      (failed : supply.result = .error error) :
      Expected supply kind tokens (.error (.lex error), after)

theorem Shows.expect (shows : supply.Shows cursor tokens) (kind : TokenKind) (expected : String) :
    supply.Expected kind tokens (Parse.expect kind expected cursor) := by
  rw [Parse.expect_apply]
  have looked := shows.peek
  generalize Parse.peek cursor = answer at looked
  cases looked with
  | @token token rest more after split shown ahead =>
      by_cases same : token.kind = kind
      · simp only [same, ↓reduceIte]
        subst split
        exact .met rfl same fun proper => shown.consume ahead (same ▸ proper)
      · simp only [same, ↓reduceIte]
        exact .missed split same
  | failure none failed => exact .failure none failed

/-- No line is left half read. -/
def Clear (tokens : List Token) : Prop :=
  ∀ token ∈ tokens.head?, token.kind ≠ .eol

theorem joins_of_within {left right : Token} {rest : List Token}
    (within : left :: right :: rest <:+ supply.tokens) : Joins left right := by
  obtain ⟨before, split⟩ := within
  have chain := supply.chain
  rw [← split] at chain
  exact (List.isChain_cons_cons.mp (List.isChain_append.mp chain).2.1).1

/-- Only a tag or a border can have the end of its line behind it. -/
theorem clear_of_within {token : Token} {rest : List Token}
    (within : token :: rest <:+ supply.tokens) (untagged : token.kind ≠ .tag)
    (unframed : token.kind ≠ .pipe) : Clear rest := by
  intro next first ends
  obtain ⟨more, rfl⟩ := List.head?_eq_some_iff.mp first
  rcases joins_of_within within with ⟨_, precedes⟩ | ⟨_, opens⟩
  · rw [ends] at precedes
    cases same : token.kind <;> simp_all [TokenKind.precedes]
  · rw [ends] at opens
    cases opens

/-- A line does not break off in the middle. -/
theorem exists_next {token : Token} {rest : List Token} (within : token :: rest <:+ supply.tokens)
    (unfinished : token.kind = .tag ∨ token.kind = .pipe ∨ token.kind = .cell) :
    ∃ next more, rest = next :: more ∧ next.location.line = token.location.line ∧
      token.kind.precedes next.kind = true := by
  cases rest with
  | nil =>
      obtain ⟨before, split⟩ := within
      obtain ⟨untagged, unframed, uncelled⟩ := supply.whole token (by rw [← split]; simp)
      exact absurd unfinished (by simp [untagged, unframed, uncelled])
  | cons next more =>
      rcases joins_of_within within with ⟨line, precedes⟩ | ⟨closes, _⟩
      · exact ⟨next, more, rfl, line.symm, precedes⟩
      · rcases unfinished with kind | kind | kind <;> (rw [kind] at closes; cases closes)

/-- Tokens are fetched until one belongs to no tag line. -/
theorem Shows.fetchPastTags (shows : supply.Shows cursor tokens) (fuel : Nat)
    (enough : cursor.reader.size < fuel) (passed : ∀ token ∈ cursor.ahead, Parse.inTags token = true) :
    (∃ kind after, Parse.fetchPastTags fuel cursor = (.ok kind, after) ∧ supply.Shows after tokens) ∨
      ∃ error after, Parse.fetchPastTags fuel cursor = (.error (.lex error), after) ∧
        supply.result = .error error ∧ ∀ token ∈ tokens, Parse.inTags token = true := by
  induction fuel generalizing cursor with
  | zero => cases enough
  | succ fuel ih =>
      rw [Parse.fetchPastTags_apply]
      obtain ⟨token, rest, after, split, fetched, further, shown, smaller⟩ | ⟨all, outcome⟩ :=
        shows.fetch
      · simp only [fetched]
        by_cases tags : Parse.inTags token = true
        · simp only [tags, ↓reduceIte]
          apply ih shown (by omega)
          rw [further]
          intro other member
          rcases List.mem_append.mp member with old | new
          · exact passed other old
          · rw [List.mem_singleton.mp new]
            exact tags
        · simp only [tags]
          exact Or.inl ⟨token.kind, after, rfl, shown⟩
      · rcases outcome with ⟨last, ok⟩ | ⟨error, after, failed, fetched⟩
        · -- The end of the document belongs to no tag line.
          obtain ⟨token, final⟩ : ∃ token, tokens.getLast? = some token :=
            ⟨_, List.getLast?_eq_some_getLast (shows.alive last ok)⟩
          obtain ⟨before, split⟩ := shows.within
          have ends := supply.ended last ok token (by
            rw [← split, List.getLast?_append_of_ne_nil _ (shows.alive last ok)]
            exact final)
          have tags := passed token (all ▸ List.mem_of_getLast? final)
          simp [Parse.inTags, ends] at tags
        · simp only [fetched]
          exact Or.inr ⟨error, after, rfl, failed, all ▸ passed⟩

theorem Shows.kindAfterTags (shows : supply.Shows cursor tokens) :
    (∃ kind after, Parse.kindAfterTags cursor = (.ok kind, after) ∧ supply.Shows after tokens) ∨
      ∃ error after, Parse.kindAfterTags cursor = (.error (.lex error), after) ∧
        supply.result = .error error ∧ ∀ token ∈ tokens, Parse.inTags token = true := by
  rw [Parse.kindAfterTags_apply]
  split
  · exact Or.inl ⟨_, cursor, rfl, shows⟩
  · rename_i none
    apply shows.fetchPastTags _ (Nat.lt_succ_of_le shows.size)
    simpa using none

end Supply

end Gherkin
