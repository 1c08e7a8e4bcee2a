import Gherkin.Proofs.Violations

/-!
The first violation.

Where a document fails, the lines before the error are read without one, and their tokens start some
document, unless they end in a table of examples with a doubled column. Such a header is looked at when its
table ends, so an error in a row further down is reported first. There is no other case of this kind.
-/

namespace Gherkin

theorem ends_of_rows {tokens rest : List Token} {row : TableRow} {rows : List TableRow}
    (filled : Many DerivesRow tokens (row :: rows) rest) :
    ∃ eol, eol.kind = .eol ∧ eol :: rest <:+ tokens := by
  induction rows generalizing tokens row with
  | nil =>
      cases filled with
      | cons first others =>
          cases others
          cases first with
          | intro _ cells =>
              obtain ⟨eol, kind, within⟩ := cells.ends
              exact ⟨eol, kind, within.trans (List.suffix_cons _ _)⟩
  | cons next others ih =>
      cases filled with
      | cons first later =>
          obtain ⟨eol, kind, within⟩ := ih later
          exact ⟨eol, kind, within.trans first.passes.suffix⟩

theorem SpeltDoubled.ends {spoilt : List Token} {table : DataTable} {header : TableRow}
    (spelt : SpeltDoubled spoilt table header) :
    ∃ before eol, spoilt = before ++ [eol] ∧ eol.kind = .eol := by
  have derived := spelt.derived []
  rw [List.append_nil] at derived
  cases derived with
  | intro filled _ =>
      obtain ⟨eol, kind, before, whole⟩ := ends_of_rows filled
      exact ⟨before, eol, whole.symm, kind⟩

theorem Row.line_of_error {start : Location} {ending row : Text} {error : LexError}
    (failed : Row.tokens start ending row = .error error) : error.line = start.line := by
  unfold Row.tokens at failed
  split at failed
  · split at failed
    · cases failed
      rfl
    · cases failed
  · cases failed
    rfl

theorem Line.line_of_error {line : Line} {shape : Shape} {error : LexError}
    (failed : line.tokens shape = .error error) : error.line = line.number := by
  cases shape with
  | row => exact Row.line_of_error failed
  | tags =>
      change line.tagTokens = .error error at failed
      unfold Line.tagTokens at failed
      split at failed
      · cases failed
        rfl
      · cases failed
  | blank | comment | delimiter | block | step | description => cases failed

namespace Mode

variable {setup : Setup} {mode after last : Mode} {line : Line} {lines before behind : List Line}
  {tokens : List Token} {result : Except LexError Mode} {number : Nat}

theorem line_of_error {error : LexError} (read : (mode.read setup line).1 = .error error) :
    error.line = line.number := by
  unfold Mode.read at read
  split at read
  · cases read
  · generalize line.shape setup.settings.fenced mode.dialect = shape at read
    cases shape with
    | comment =>
        simp only [readShaped, readComment] at read
        split at read
        · cases read
        · split at read
          · cases read
            rfl
          · cases read
    | blank | delimiter => cases read
    | row | tags | block | step | description =>
        simp only [readShaped] at read
        exact Line.line_of_error read

/-- The tokens of some lines are those of a run, which stops before a line with an error if not at the
end. -/
theorem Reads.run_through (reads : Reads setup mode lines tokens result) :
    ∃ early rest, lines = early ++ rest ∧ Run setup mode early tokens (mode.through setup early) ∧
      (rest = [] ∧ (mode.through setup early).ending = result ∨
        ∃ line others error, rest = line :: others ∧ result = .error error ∧
          error.line = line.number) := by
  induction reads with
  | done mode => exact ⟨[], [], rfl, .nil mode, Or.inl ⟨rfl, rfl⟩⟩
  | @fails mode _ line error rest read =>
      refine ⟨[], line :: rest, rfl, .nil mode, Or.inr ⟨line, rest, error, rfl, rfl, ?_⟩⟩
      exact line_of_error (by rw [read])
  | @line mode after line tokens rest _ _ read _ ih =>
      obtain ⟨early, last, split, run, ends⟩ := ih
      have onwards : mode.through setup (line :: early) = after.through setup early := by
        rw [Mode.through, List.foldl_cons, read]
        rfl
      refine ⟨line :: early, last, by rw [split]; rfl, ?_⟩
      rw [onwards]
      exact ⟨.cons (step_of_read read) run, ends⟩

/-- A run over some lines goes through any line of them. -/
theorem Run.split (run : Run setup mode (before ++ behind) tokens last) :
    ∃ first others middle, tokens = first ++ others ∧ Run setup mode before first middle ∧
      Run setup middle behind others last := by
  induction before generalizing mode tokens with
  | nil => exact ⟨[], tokens, mode, rfl, .nil mode, run⟩
  | cons line rest ih =>
      cases run with
      | cons step later =>
          obtain ⟨first, others, middle, rfl, here, there⟩ := ih later
          exact ⟨_ ++ first, others, middle, by rw [List.append_assoc], .cons step here, there⟩

theorem Run.header_still_over (run : Run setup mode lines tokens last)
    (past : mode.headerAllowed = false) : last.headerAllowed = false := by
  induction run with
  | nil => exact past
  | cons step _ ih => exact ih (step.keeps past).1

/-- Tokens other than comments end the headers. -/
theorem Run.header_over (run : Run setup mode lines tokens last) (settled : mode.Settled)
    {token : Token} (member : token ∈ uncommented tokens) : last.headerAllowed = false := by
  obtain ⟨held, counts⟩ := (mem_uncommented _ _).mp member
  clear member
  induction run with
  | nil => cases held
  | cons step later ih =>
      rcases List.mem_append.mp held with here | there
      · exact later.header_still_over (step.header_over settled token here counts)
      · exact ih (step.settled settled) there

/-- A doc string that is open at the end and opened before some lines is open all the time. -/
theorem Run.opened_early (run : Run setup mode lines tokens last)
    (numbered : Line.Consecutive number lines) {opening : Opening}
    (inside : last.opened = some opening) (early : opening.location.line < number) :
    mode.opened = some opening := by
  induction run generalizing number with
  | nil => exact inside
  | cons step _ ih =>
      have still := ih numbered.2 inside (Nat.lt_succ_of_lt early)
      cases step with
      | closing => cases still
      | verbatim | blank | comment | header | content => exact still
      | opening delimiter =>
          cases still
          exact absurd numbered.1 (Nat.ne_of_lt early)

/-- Behind a delimiter that nothing closes there are only lines of its doc string. -/
theorem Run.verbatim_of_opened (run : Run setup mode lines tokens last)
    (numbered : Line.Consecutive number lines) {opening : Opening}
    (inside : last.opened = some opening) {token : Token} (member : token ∈ tokens)
    (below : opening.location.line ≤ token.location.line) : token.kind = .docStringLine := by
  induction run generalizing number with
  | nil => cases member
  | cons step later ih =>
      rcases List.mem_append.mp member with here | there
      · by_contra other
        have line := step.onLine.line token here
        have opened := later.opened_early numbered.2 inside (by have first := numbered.1; omega)
        rw [(step.outside_of_mem token here other).1] at opened
        cases opened
      · exact ih numbered.2 inside there

end Mode

/-! The tokens of a document up to its first error are what a cursor can ever be shown of it, and the error
comes when they are used up. -/

namespace Supply

/-- The end of a document, which only a document without errors comes to. -/
def closing (text : Text) : Except LexError Mode → List Token
  | .ok _ => [⟨.eof, [], Line.finish (Line.split text)⟩]
  | .error _ => []

section Documents

variable {setup : Setup} {text : Text} {read : List Token} {result : Except LexError Mode}
  (reads : Mode.Reads setup (.initial setup) (Line.split text) read result)

include reads

theorem joined_of_reads : Joined (uncommented read) := by
  obtain ⟨early, rest, _, run, _⟩ := reads.run_through
  exact run.joined

theorem chain_of_reads : (uncommented read ++ closing text result).IsChain Joins := by
  have joined := joined_of_reads reads
  refine List.isChain_append.mpr ⟨joined.chain, ?_, ?_⟩
  · cases result with
    | ok last => exact List.IsChain.singleton _
    | error error => exact List.IsChain.nil
  · intro left final right first
    cases result with
    | ok last =>
        cases first
        exact Or.inr ⟨joined.last left final, rfl⟩
    | error error => cases first

theorem whole_of_reads : ∀ token ∈ (uncommented read ++ closing text result).getLast?,
    token.kind ≠ .tag ∧ token.kind ≠ .pipe ∧ token.kind ≠ .cell := by
  intro token final
  cases result with
  | ok last =>
      rw [closing, List.getLast?_concat] at final
      cases final
      simp
  | error error =>
      rw [closing, List.append_nil] at final
      have closes := (joined_of_reads reads).last token final
      refine ⟨?_, ?_, ?_⟩ <;> (intro kind; rw [kind] at closes; cases closes)

theorem enough_of_reads :
    (uncommented read ++ closing text result).length ≤ (Reader.start setup text).size + 1 := by
  have bound := (Reader.holds_start setup text reads).length_le
  have fewer : (uncommented read).length ≤ read.length := List.length_filter_le _ _
  have one : (closing text result).length ≤ 1 := by cases result <;> simp [closing]
  rw [List.length_append]
  omega

end Documents

def ofReads {setup : Setup} {text : Text} {read : List Token} {result : Except LexError Mode}
    (reads : Mode.Reads setup (.initial setup) (Line.split text) read result) : Supply where
  tokens := uncommented read ++ closing text result
  dialect := ((Mode.initial setup).through setup (Line.split text)).dialect
  limit := (Reader.start setup text).size
  result := result
  chain := chain_of_reads reads
  whole := whole_of_reads reads
  enough := enough_of_reads reads
  ended := by
    rintro last rfl token final
    rw [closing, List.getLast?_concat] at final
    cases final
    rfl

section Documents

variable {setup : Setup} {text : Text} {read : List Token}

theorem opens_of_reads {result : Except LexError Mode}
    (reads : Mode.Reads setup (.initial setup) (Line.split text) read result) :
    ∀ token ∈ (ofReads reads).tokens.head?, token.kind.opensLine = true := by
  intro token first
  change token ∈ (uncommented read ++ closing text result).head? at first
  rw [List.head?_append] at first
  cases start : (uncommented read).head? with
  | some other =>
      rw [start] at first
      cases first
      exact (joined_of_reads reads).head token start
  | none =>
      rw [start] at first
      cases result with
      | ok last =>
          cases first
          rfl
      | error error => cases first

theorem clear_of_reads {result : Except LexError Mode}
    (reads : Mode.Reads setup (.initial setup) (Line.split text) read result) :
    Clear (ofReads reads).tokens := by
  intro token first ends
  have opens := opens_of_reads reads token first
  rw [ends] at opens
  cases opens

/-- Of a document without errors all tokens are there from the start. -/
theorem shows_complete {last : Mode} {tokens : List Token}
    (reads : Mode.Reads setup (.initial setup) (Line.split text) read (.ok last))
    (done : (Reader.afterDocument setup text).Done last)
    (split : uncommented tokens = (ofReads reads).tokens) :
    (ofReads reads).Shows (.complete setup text tokens) (ofReads reads).tokens := by
  obtain ⟨early, rest, lines, run, ⟨rfl, ends⟩ | ⟨_, _, _, _, absurd, _⟩⟩ := reads.run_through
  · constructor
    case limit => rfl
    case size =>
      change (Reader.afterDocument setup text).size ≤ _
      rw [Reader.size, done.queue, done.unread]
      exact Nat.zero_le _
    case steady => exact Or.inr done.unread
    case dialect =>
      change (Reader.afterDocument setup text).mode.dialect = (Mode.through setup _ _).dialect
      rw [done.reached, lines, List.append_nil, (Mode.ending_eq_ok _ _ ends).1]
    case held => exact ⟨0, [], done.holds 0, by rw [← split]; exact (List.append_nil _).symm⟩
    case within => exact List.suffix_refl _
    case alive =>
      intro other _ none
      exact absurd none (List.append_ne_nil_of_right_ne_nil _ (List.cons_ne_nil _ _))
  · cases absurd

theorem feature_of_peek_error {cursor after : Cursor} {error : ParseError}
    (peeked : Parse.peek cursor = (.error error, after)) :
    Parse.feature cursor = (.error error, after) := by
  have tagged : Parse.tags cursor = (.error error, after) := by
    rw [Parse.tags, Parse.many_apply, Parse.collectFrom_succ, stateless, Parse.bind_apply,
      Parse.tag, Parse.bind_apply, Parse.takeIf_apply, peeked]
  rw [Parse.feature, Parse.bind_apply, tagged]

/-- How the grammar is started. A document without errors is there from the start. Of another one its
first token is there, so that its dialect is known, or it has none before its error. -/
theorem started_of_reads {result : Except LexError Mode}
    (reads : Mode.Reads setup (.initial setup) (Line.split text) read result) :
    (∃ cursor, parse setup text = (Parse.feature cursor).1 ∧
      (ofReads reads).Shows cursor (ofReads reads).tokens) ∨
    ∃ error, result = .error error ∧ parse setup text = .error (.lex error) ∧
      (ofReads reads).tokens = [] := by
  cases result with
  | ok last =>
      obtain ⟨lexed, done, continues⟩ := tokenize_of_reads_ok reads
      exact Or.inl ⟨_, parse_eq_complete lexed,
        shows_complete reads done (by rw [uncommented_append]; rfl)⟩
  | error error =>
      have held := Reader.holds_start setup text reads
      have all : (ofReads reads).tokens = uncommented read := List.append_nil _
      obtain ⟨token, rest, next, reader, more, fetched, further, steady, goal, smaller⟩ |
        ⟨none, outcome⟩ := fetch_of_holds (.ofReader (.start setup text)) held (Nat.le_refl _)
      · refine Or.inl ⟨{ Cursor.ofReader (.start setup text) with reader, ahead := [token] }, ?_, ?_⟩
        · rw [parse_eq_feature, Parse.feature_of_peek _ _ token (by rw [Parse.peek_apply]; exact fetched)]
          rfl
        · constructor
          case limit => rfl
          case size => exact Nat.le_of_lt smaller
          case steady => exact steady
          case dialect => exact steady.dialect_goal.symm.trans (congrArg Mode.dialect goal)
          case held => exact ⟨next, rest, further, all.trans more⟩
          case within => exact List.suffix_refl _
          case alive => rintro last ⟨⟩
      · obtain ⟨last, absurd⟩ | ⟨other, reader, same, fetched⟩ := outcome
        · cases absurd
        · refine Or.inr ⟨error, rfl, ?_, all.trans none⟩
          rw [parse_eq_feature, feature_of_peek_error (by rw [Parse.peek_apply]; exact fetched)]
          cases same
          rfl

/-- What has become of a document, as its tokens tell it. -/
theorem judged_of_reads {result : Except LexError Mode}
    (reads : Mode.Reads setup (.initial setup) (Line.split text) read result) :
    ∃ answer, parse setup text = answer.1 ∧ (ofReads reads).Judged (ofReads reads).tokens
      (documents (ofReads reads).dialect) (begun (documents (ofReads reads).dialect)) answer := by
  rcases started_of_reads reads with ⟨cursor, same, shows⟩ | ⟨error, failed, same, none⟩
  · exact ⟨_, same, judges_feature _ _ shows (clear_of_reads reads)⟩
  · obtain ⟨word, document⟩ : ∃ word, word ∈ documents (ofReads reads).dialect := exists_document
    refine ⟨(.error (.lex error), .ofReader (.start setup text)), same, ?_⟩
    rw [none]
    exact .fault (fault_of_lex failed (nil_mem_begun document))

end Documents

section Cuts

variable {supply : Supply} {tokens : List Token} {viable : Language Token} {error : ParseError}
  {used spoilt rest : List Token}

/-- Tokens before the line of an error come before the token it belongs to. -/
theorem Fault.cut (fault : supply.Fault tokens viable error used spoilt rest)
    {front behind : List Token} (split : tokens = front ++ behind)
    (above : ∀ token ∈ front, token.location.line < error.line) :
    ∃ more, used ++ spoilt = front ++ more ∧ more <+: behind := by
  have same := fault.split
  rw [split, ← List.append_assoc] at same
  rcases List.append_eq_append_iff.mp same with ⟨more, whole, later⟩ | ⟨more, whole, later⟩
  · exact ⟨more, whole, rest, later.symm⟩
  · cases more with
    | nil => exact ⟨[], by rw [whole, List.append_nil, List.append_nil], List.nil_prefix⟩
    | cons token others =>
        rw [later] at fault
        cases fault.strikes with
        | grammar _ line =>
            have early := above token (by simp [whole])
            rw [ParseError.line, line] at early
            exact absurd early (Nat.lt_irrefl _)

end Cuts

section Places

variable {setup : Setup} {text : Text} {read : List Token} {result : Except LexError Mode}
  (reads : Mode.Reads setup (.initial setup) (Line.split text) read result)
  {viable : Language Token} {error : ParseError} {used spoilt rest : List Token}
  (fault : (ofReads reads).Fault (ofReads reads).tokens viable error used spoilt rest)

omit fault in
theorem mem_read_of_mem (token : Token) (member : token ∈ (ofReads reads).tokens)
    (proper : token.kind ≠ .eof) : token ∈ uncommented read := by
  rcases List.mem_append.mp member with real | final
  · exact real
  · cases result with
    | ok last =>
        rw [List.mem_singleton.mp final] at proper
        exact absurd rfl proper
    | error error => cases final

omit fault in
/-- Whatever stands behind the end of a line stands on a later one. -/
theorem breaks_of_reads : (ofReads reads).tokens.Pairwise fun left right =>
    right.kind ≠ .eof → left.kind = .eol → left.location.line < right.location.line := by
  obtain ⟨early, others, lines, run, _⟩ := reads.run_through
  have numbered : Line.Consecutive 1 early := by
    have whole := Line.consecutive_split text
    rw [lines] at whole
    exact whole.take
  have kept := ((run.rises numbered).and (run.goesOn numbered)).filter
    fun token : Token => token.kind ≠ .comment
  refine List.pairwise_append.mpr ⟨kept.imp ?_, ?_, ?_⟩
  · rintro left right ⟨⟨rises, _⟩, goes⟩ _ ends
    refine Nat.lt_of_le_of_ne rises fun same => ?_
    have further := goes same
    rw [ends] at further
    cases further
  · cases result with
    | ok last => exact List.pairwise_singleton _ _
    | error error => exact List.Pairwise.nil
  · intro left _ right final proper
    cases result with
    | ok last =>
        rw [List.mem_singleton.mp final] at proper
        exact absurd rfl proper
    | error error => cases final

include fault

theorem line_of_fault : (∃ token ∈ (ofReads reads).tokens, error.line = token.location.line) ∨
    ∃ cause, result = .error cause ∧ error.line = cause.line := by
  have split := fault.split
  cases fault.strikes with
  | lex failed => exact Or.inr ⟨_, failed, rfl⟩
  | @grammar _ _ _ token more line =>
      refine Or.inl ⟨token, ?_, line⟩
      rw [split]
      simp

/-- All rows of a table with a doubled column are above the error behind it. -/
theorem above_of_spoils (some : spoilt ≠ []) : ∃ before eol, used ++ spoilt = before ++ [eol] ∧
    eol.location.line < error.line := by
  obtain none | ⟨_, _, table, header, _, _, spelt, border⟩ := fault.spoils
  · exact absurd none some
  obtain ⟨before, eol, rfl, kind⟩ := spelt.ends
  refine ⟨used ++ before, eol, (List.append_assoc ..).symm, ?_⟩
  have split := fault.split
  have breaks := breaks_of_reads reads
  have read := mem_read_of_mem reads eol (by rw [split]; simp) (by simp [kind])
  cases fault.strikes with
  | @grammar _ _ _ token more line =>
      have opens : token.kind = .pipe := border token rfl
      rw [split, List.append_assoc, ← List.append_assoc, List.pairwise_append] at breaks
      have below := List.rel_of_pairwise_cons breaks.2.1 (List.mem_cons_self (a := token))
      rw [ParseError.line, line]
      exact below (by simp [opens]) kind
  | @lex cause failed =>
      have failed : result = .error cause := failed
      obtain ⟨early, others, lines, run, cases⟩ := reads.run_through
      have whole := Line.consecutive_split text
      rw [lines] at whole
      have held := ((mem_uncommented _ _).mp read).1
      rcases cases with ⟨_, ends⟩ | ⟨line, _, other, rfl, same, place⟩
      · -- The document ends inside a doc string, whose lines have no other tokens.
        rw [failed, Mode.ending] at ends
        split at ends
        · rename_i opening inside
          cases ends
          by_contra below
          have verbatim := run.verbatim_of_opened whole.take inside held (Nat.le_of_not_lt below)
          rw [kind] at verbatim
          cases verbatim
        · cases ends
      · cases failed.symm.trans same
        have number := whole.drop.1
        have bound := (run.line_of_mem whole.take eol held).2
        rw [ParseError.line]
        omega

/-- No error stands below the end of its document. -/
theorem le_finish_of_fault (token : Token) (final : token ∈ closing text result) :
    error.line ≤ token.location.line := by
  cases result with
  | error cause => cases final
  | ok last =>
      rw [List.mem_singleton.mp final]
      have run := reads.run.1
      have numbered := Line.consecutive_split text
      have finish := Line.length_le_finish _ numbered
      rcases line_of_fault reads fault with ⟨other, member, same⟩ | ⟨_, ⟨⟩, _⟩
      rcases List.mem_append.mp member with real | last
      · have bound := (run.line_of_mem numbered other ((mem_uncommented _ _).mp real).1).2
        simp only
        omega
      · rw [List.mem_singleton.mp last] at same
        exact Nat.le_of_eq same

/-- The lines before an error are read without one. -/
theorem run_of_fault : ∃ first middle behind,
    Mode.Run setup (.initial setup) ((Line.split text).take (error.line - 1)) first middle ∧
      (ofReads reads).tokens = uncommented first ++ behind ∧
      (∀ token ∈ uncommented first, token.location.line < error.line) ∧
      (∀ token ∈ behind, error.line ≤ token.location.line) ∧
      (uncommented first ≠ [] → middle.dialect = (ofReads reads).dialect) := by
  have place := line_of_fault reads fault
  obtain ⟨early, others, lines, run, ends⟩ := reads.run_through
  have whole := Line.consecutive_split text
  have bound : ∀ token ∈ uncommented read, token.location.line < 1 + early.length := by
    rw [lines] at whole
    exact fun token member =>
      (run.line_of_mem whole.take token ((mem_uncommented _ _).mp member).1).2
  -- The line of the error is read, or it is the one that could not be. Either way all lines above were read.
  have reach : (Line.split text).take (error.line - 1) = early.take (error.line - 1) := by
    rw [lines]
    rcases ends with ⟨rfl, _⟩ | ⟨line, more, cause, rfl, rfl, number⟩
    · rw [List.append_nil]
    · apply List.take_append_of_le_length
      rw [lines] at whole
      have next := whole.drop.1
      rcases place with ⟨token, member, same⟩ | ⟨_, ⟨⟩, same⟩
      · have above := bound token (by simpa [ofReads, closing] using member)
        omega
      · omega
  have parts : early = early.take (error.line - 1) ++ early.drop (error.line - 1) :=
    (List.take_append_drop _ _).symm
  have numbered : Line.Consecutive 1 early := (lines ▸ whole).take
  rw [parts] at run numbered
  obtain ⟨first, later, middle, split, here, there⟩ := run.split
  refine ⟨first, middle, uncommented later ++ closing text result, reach ▸ here, ?_, ?_, ?_, ?_⟩
  · change uncommented read ++ _ = _
    rw [split, uncommented_append, List.append_assoc]
  · intro token member
    have line := (here.line_of_mem numbered.take token ((mem_uncommented _ _).mp member).1)
    rw [List.length_take] at line
    omega
  · intro token member
    rcases List.mem_append.mp member with real | final
    · have line := there.line_of_mem numbered.drop token ((mem_uncommented _ _).mp real).1
      rw [List.length_take, List.length_drop] at line
      omega
    · exact le_finish_of_fault reads fault token final
  · -- A token above the error means that headers are over there, so the dialect is that of the whole document.
    intro some
    obtain ⟨token, member⟩ := List.exists_mem_of_ne_nil _ some
    have past := here.header_over (fun inside => nomatch inside) member
    have still := there.header_still_over past
    rw [← parts] at there still
    have through : (ofReads reads).dialect =
        (((Mode.initial setup).through setup early).through setup others).dialect := by
      change ((Mode.initial setup).through setup (Line.split text)).dialect = _
      rw [lines, Mode.through, List.foldl_append]
      rfl
    rw [through, Mode.dialect_through still]
    exact (there.keeps past).2.symm

end Places

end Supply

theorem suffix_of_rules {dialect : Dialect} {tokens rest : List Token} {rules : List Rule}
    (takes : ∀ {name tokens argument rest},
      (Grammar.shown dialect).argument name tokens argument rest → rest <:+ tokens)
    (derived : Many (Grammar.shown dialect).DerivesRule tokens rules rest) : rest <:+ tokens := by
  induction derived with
  | nil => exact List.suffix_refl _
  | cons first _ ih => exact ih.trans (first.suffix takes).1

theorem eof_of_document {dialect : Dialect} {tokens : List Token}
    (document : tokens ∈ documents dialect) :
    ∃ before eof, tokens = before ++ [eof] ∧ eof.kind = .eof := by
  obtain ⟨feature, derived⟩ := document
  have takes : ∀ {name tokens argument rest},
      (Grammar.shown dialect).argument name tokens argument rest → rest <:+ tokens :=
    fun taken => (DerivesShownArgument.unblocked taken).suffix
  cases derived with
  | intro tagged headed founded filled ruled ends =>
      have ruled := suffix_of_rules takes ruled
      have filled := Grammar.suffix_of_definitions takes filled
      have founded := Grammar.suffix_of_background takes founded
      have headed := (headed.passes DerivesName.passes).suffix
      obtain ⟨before, whole⟩ := (((ruled.trans filled).trans founded).trans headed).trans
        tagged.passes.suffix
      exact ⟨before, _, whole.symm, ends⟩

/-- The tokens of a document that is accepted are a document. -/
theorem mem_documents_of_parse {setup : Setup} {text : Text} {read : List Token} {last : Mode}
    {feature : Feature} (reads : Mode.Reads setup (.initial setup) (Line.split text) read (.ok last))
    (parsed : parse setup text = .ok feature) :
    uncommented read ++ [⟨.eof, [], Line.finish (Line.split text)⟩] ∈
      documents ((Mode.initial setup).through setup (Line.split text)).dialect := by
  obtain ⟨⟨outcome, after⟩, same, judged⟩ := Supply.judged_of_reads reads
  rw [parsed] at same
  cases same
  cases judged with
  | @success _ _ used rest split member =>
      obtain ⟨before, eof, rfl, ends⟩ := eof_of_document member
      have whole : uncommented read ++ [⟨.eof, [], Line.finish (Line.split text)⟩] =
          before ++ [eof] ++ rest := split
      -- Only the last token of the document is its end.
      have none : rest = [] := by
        rcases List.eq_nil_or_concat rest with none | ⟨others, final, rfl⟩
        · exact none
        · rw [List.concat_eq_append, ← List.append_assoc] at whole
          have within := (List.append_inj' whole rfl).1
          have inside : eof ∈ uncommented read := by rw [within]; simp
          exact absurd ends (reads.kind_ne_eof eof ((mem_uncommented _ _).mp inside).1)
      rw [whole, none, List.append_nil]
      exact member

theorem Spoils.doubled {used spoilt rest : List Token} (spoils : Spoils used spoilt rest)
    (some : spoilt ≠ []) :
    Doubled (used ++ spoilt) ∧ ∃ table header, SpeltDoubled spoilt table header := by
  obtain none | ⟨start, heading, table, header, ⟨before, rfl⟩, headed, spelt, _⟩ := spoils
  · exact absurd none some
  · refine ⟨⟨start ++ spoilt, heading, spoilt, table, header, ⟨before, by simp⟩, headed spoilt, ?_,
      spelt.first, spelt.repeated⟩, table, header, spelt⟩
    simpa using spelt.derived []

/-- Without tokens every dialect will do. -/
theorem viable_of_begun {dialect other : Dialect} {front tokens : List Token}
    (told : tokens ≠ [] → dialect = other) (some : front ≠ [] → tokens ≠ [])
    (begins : front ∈ begun (documents other)) : Viable dialect front := by
  cases front with
  | nil =>
      obtain ⟨word, document⟩ : ∃ word, word ∈ documents dialect := exists_document
      exact nil_mem_begun document
  | cons first others =>
      rw [told (some (List.cons_ne_nil _ _))]
      exact begins

/-- Where a document fails, its lines before that of the error are read without an error. Their tokens
start a document exactly if they do not end in a table of examples whose header names a column twice. If
they do, they start one up to this table. -/
theorem viable_before_error {setup : Setup} {text : Text} {error : ParseError}
    (failed : parse setup text = .error error) :
    ∃ tokens mode,
      Mode.Run setup (.initial setup) ((Line.split text).take (error.line - 1)) tokens mode ∧
        (Viable mode.dialect (uncommented tokens) ↔ ¬ Doubled (uncommented tokens)) ∧
          (Doubled (uncommented tokens) → ∃ front rows table header,
            uncommented tokens = front ++ rows ∧ Viable mode.dialect front ∧
              SpeltDoubled rows table header) := by
  obtain ⟨read, result, reads⟩ := Mode.exists_reads setup (.initial setup) (Line.split text)
  obtain ⟨⟨outcome, after⟩, same, judged⟩ := Supply.judged_of_reads reads
  rw [failed] at same
  cases same
  cases judged with
  | @fault _ _ used spoilt rest fault =>
      obtain ⟨tokens, mode, behind, run, split, above, below, told⟩ := Supply.run_of_fault reads fault
      obtain ⟨more, whole, later⟩ := fault.cut split above
      refine ⟨tokens, mode, run, ?_⟩
      by_cases clean : spoilt = []
      · subst clean
        rw [List.append_nil] at whole
        have start := viable_of_begun told id (begun_of_append (whole ▸ fault.begun))
        exact ⟨⟨fun _ doubled => doubled.not_viable start, fun _ => start⟩,
          fun doubled => absurd start doubled.not_viable⟩
      · obtain ⟨before, eol, ends, early⟩ := Supply.above_of_spoils reads fault clean
        -- The table ends above the error, so all of it is there.
        have none : more = [] := by
          rcases List.eq_nil_or_concat more with none | ⟨others, last, rfl⟩
          · exact none
          · rw [ends, List.concat_eq_append, ← List.append_assoc] at whole
            have final : eol = last := by simpa using congrArg List.getLast? whole
            have late := below eol (later.subset (by simp [final]))
            exact absurd early (Nat.not_lt.mpr late)
        rw [none, List.append_nil] at whole
        obtain ⟨doubled, table, header, spelt⟩ := fault.spoils.doubled clean
        rw [whole] at doubled
        refine ⟨⟨fun viable _ => doubled.not_viable viable, fun regular => absurd doubled regular⟩,
          fun _ => ⟨used, spoilt, table, header, whole.symm, ?_, spelt⟩⟩
        refine viable_of_begun told (fun some => ?_) fault.begun
        rw [← whole]
        exact List.append_ne_nil_of_left_ne_nil some spoilt

def headerText : Text :=
  "Feature: f\n  Scenario Outline: o\n    Examples:\n      | a | a |\n".toList

def unevenText : Text :=
  headerText ++ "      | 1 |\n".toList

def danglingText : Text :=
  "Feature: f\n  Scenario: s\n    And x\n".toList

theorem viable_before_error_samples :
    (parse .standard unevenText = .error (.grammar ⟨⟨5, 7⟩, "a row of 2 cells", "1 cells"⟩) ∧
      ∃ tokens mode,
        Mode.Run .standard (.initial .standard) ((Line.split unevenText).take 4) tokens mode ∧
          (Viable mode.dialect (uncommented tokens) ↔ ¬ Doubled (uncommented tokens)) ∧
            (Doubled (uncommented tokens) → ∃ front rows table header,
              uncommented tokens = front ++ rows ∧ Viable mode.dialect front ∧
                SpeltDoubled rows table header)) ∧
    (parse .standard danglingText =
        .error (.grammar ⟨⟨3, 5⟩, "a preceding Given, When or Then step", "`And`"⟩) ∧
      ∃ tokens mode,
        Mode.Run .standard (.initial .standard) ((Line.split danglingText).take 2) tokens mode ∧
          (Viable mode.dialect (uncommented tokens) ↔ ¬ Doubled (uncommented tokens))) := by
  have uneven : parse .standard unevenText =
      .error (.grammar ⟨⟨5, 7⟩, "a row of 2 cells", "1 cells"⟩) := by decide +kernel
  have dangling : parse .standard danglingText =
      .error (.grammar ⟨⟨3, 5⟩, "a preceding Given, When or Then step", "`And`"⟩) := by
    decide +kernel
  refine ⟨⟨uneven, viable_before_error uneven⟩, dangling, ?_⟩
  obtain ⟨tokens, mode, run, viable, _⟩ := viable_before_error dangling
  exact ⟨tokens, mode, run, viable⟩

def headerTokens : List Token :=
  [⟨.block .feature, "Feature:".toList, ⟨1, 1⟩⟩, ⟨.name, "f".toList, ⟨1, 10⟩⟩,
    ⟨.block .scenarioOutline, "Scenario Outline:".toList, ⟨2, 3⟩⟩, ⟨.name, "o".toList, ⟨2, 21⟩⟩,
    ⟨.block .examples, "Examples:".toList, ⟨3, 5⟩⟩, ⟨.pipe, "|".toList, ⟨4, 7⟩⟩,
    ⟨.cell, " a ".toList, ⟨4, 8⟩⟩, ⟨.pipe, "| ".toList, ⟨4, 11⟩⟩, ⟨.cell, "a ".toList, ⟨4, 13⟩⟩,
    ⟨.pipe, "|".toList, ⟨4, 15⟩⟩, ⟨.eol, "\n".toList, ⟨4, 16⟩⟩]

theorem doubled_headerTokens : Doubled headerTokens := by
  have cells : DerivesCells ⟨4, 7⟩ (headerTokens.drop 6)
      [⟨"a".toList, ⟨4, 9⟩⟩, ⟨"a".toList, ⟨4, 13⟩⟩] [] :=
    .filled rfl rfl (.filled rfl rfl (.ending rfl))
  exact ⟨headerTokens.drop 4, _, headerTokens.drop 5, _, _, List.drop_suffix _ _,
    .intro rfl .absent .nil, .intro (.cons (.intro rfl cells) .nil) (by simp), rfl, by decide⟩

/-- An error in a row comes before the one in the header above it. What stands above the row starts no
document. -/
theorem header_passed_over :
    parse .standard unevenText = .error (.grammar ⟨⟨5, 7⟩, "a row of 2 cells", "1 cells"⟩) ∧
      ∃ tokens mode,
        Mode.Run .standard (.initial .standard) ((Line.split unevenText).take 4) tokens mode ∧
          ∀ dialect, ¬ Viable dialect (uncommented tokens) := by
  have lexed : tokenize .standard headerText = .ok (headerTokens ++ [⟨.eof, [], ⟨5, 1⟩⟩]) := by
    decide +kernel
  have lines : (Line.split unevenText).take 4 = Line.split headerText := by decide +kernel
  obtain ⟨read, last, reads, split⟩ := reads_of_tokenize_ok lexed
  have same : headerTokens = read := (List.append_inj' split rfl).1
  refine ⟨by decide +kernel, read, last, ?_, fun dialect => ?_⟩
  · rw [lines]
    exact reads.run.1
  · rw [← same]
    exact doubled_headerTokens.not_viable

end Gherkin
