import Gherkin.Proofs.LineTokens
import Gherkin.Reader.Basic

/-!
Reading a document.

`Mode.Step` lists everything that reading one line can do. `Mode.Reads` puts such steps together
into what some lines hold: all their tokens up to the first error, and that error or the mode
at the end. A reader hands out exactly these tokens, one at a time, and `Reader.Holds` is the
invariant that each call of `next` keeps.
-/

namespace Gherkin

namespace Line

def Consecutive : Nat → List Line → Prop
  | _, [] => True
  | number, line :: rest => line.number = number ∧ Consecutive (number + 1) rest

theorem consecutive_splitFrom (number : Nat) (text : Text) :
    Consecutive number (splitFrom number text) := by
  fun_induction splitFrom number text with
  | case1 => trivial
  | case2 number rest ih => exact ⟨rfl, ih⟩
  | case3 number rest ih => exact ⟨rfl, ih⟩
  | case4 number c rest _ _ empty ih => exact ⟨rfl, trivial⟩
  | case5 number c rest _ _ line more found ih =>
      rw [found] at ih
      exact ⟨ih.1, ih.2⟩

theorem consecutive_split (text : Text) : Consecutive 1 (split text) :=
  consecutive_splitFrom 1 text

end Line

namespace Mode

inductive Step (setup : Setup) (mode : Mode) (line : Line) : List Token → Mode → Prop where
  | closing (opening : Opening) (inside : mode.opened = some opening)
      (fills : opening.delimiter.fills line.body = true) :
      Step setup mode line []
        { mode with closed := mode.closed ++ [⟨opening, some line.number⟩], opened := none }
  | verbatim (opening : Opening) (inside : mode.opened = some opening)
      (differs : ¬ opening.delimiter.fills line.body = true) :
      Step setup mode line [⟨.docStringLine, line.raw, ⟨line.number, opening.location.column⟩⟩] mode
  | blank (outside : mode.opened = none)
      (shape : line.shape setup.settings.fenced mode.dialect = .blank) : Step setup mode line [] mode
  | comment (outside : mode.opened = none)
      (shape : line.shape setup.settings.fenced mode.dialect = .comment)
      (plain : mode.header? line = none) : Step setup mode line [line.commentToken] mode
  | header (language : Text) (dialect : Dialect) (outside : mode.opened = none)
      (shape : line.shape setup.settings.fenced mode.dialect = .comment)
      (names : mode.header? line = some language)
      (known : setup.registry.find? language = some dialect) :
      Step setup mode line [line.commentToken] { mode with language, dialect }
  | opening (delimiter : Delimiter) (outside : mode.opened = none)
      (shape : line.shape setup.settings.fenced mode.dialect = .delimiter delimiter) :
      Step setup mode line []
        { mode with headerAllowed := false, opened := some ⟨delimiter, line.start⟩ }
  | content (tokens : List Token) (outside : mode.opened = none)
      (filled : (line.shape setup.settings.fenced mode.dialect).isContent = true)
      (read : line.tokens (line.shape setup.settings.fenced mode.dialect) = .ok tokens) :
      Step setup mode line tokens { mode with headerAllowed := false }

variable {setup : Setup} {mode after : Mode} {line : Line} {tokens : List Token}

theorem step_of_read (read : mode.read setup line = (.ok tokens, after)) :
    Step setup mode line tokens after := by
  unfold Mode.read at read
  split at read
  · rename_i opening inside
    -- Inside a doc string only the closing delimiter is not verbatim.
    by_cases fills : opening.delimiter.fills line.body = true
    · simp only [readVerbatim, fills, if_true, Prod.mk.injEq, Except.ok.injEq] at read
      obtain ⟨none, same⟩ := read
      subst none same
      exact Step.closing opening inside fills
    · simp only [readVerbatim, fills] at read
      cases read
      exact Step.verbatim opening inside fills
  · rename_i outside
    cases shape : line.shape setup.settings.fenced mode.dialect with
    | blank =>
        rw [shape] at read
        cases read
        exact Step.blank outside shape
    | comment =>
        simp only [shape, readShaped, readComment] at read
        split at read
        · rename_i plain
          cases read
          exact Step.comment outside shape plain
        · rename_i language names
          split at read
          · cases read
          · rename_i dialect known
            cases read
            exact Step.header language dialect outside shape names known
    | delimiter delimiter =>
        rw [shape] at read
        cases read
        exact Step.opening delimiter outside shape
    | row | tags | block _ | step _ | description =>
        simp only [shape, readShaped, Prod.mk.injEq] at read
        obtain ⟨yields, same⟩ := read
        subst same
        exact Step.content tokens outside (by rw [shape]; rfl) (by rw [shape]; exact yields)

/-! Reading a line is a step from mode to mode. What later proofs need of it is read off `Mode.read` once, by
the shape of the line. -/

theorem Step.onLine (step : Step setup mode line tokens after) : OnLine line.number tokens := by
  cases step with
  | closing | blank | opening => exact ⟨by simp, List.IsChain.nil, by simp, by simp⟩
  | verbatim => exact onLine_singleton line.number _ rfl rfl rfl
  | comment => exact onLine_singleton line.number _ rfl rfl rfl
  | header => exact onLine_singleton line.number _ rfl rfl rfl
  | content _ _ filled read => exact Line.onLine_tokens _ _ line tokens filled read

theorem Step.length_le (step : Step setup mode line tokens after) :
    tokens.length ≤ line.content.length + 1 := by
  cases step with
  | content _ _ _ read => exact Line.length_tokens_le _ _ line tokens read
  | _ => simp

theorem Step.kind_ne_eof (step : Step setup mode line tokens after) (token : Token)
    (member : token ∈ tokens) : token.kind ≠ .eof := by
  cases step with
  | closing | blank | opening => cases member
  | verbatim => rw [List.mem_singleton.mp member]; simp
  | comment => rw [List.mem_singleton.mp member]; simp [Line.commentToken]
  | header => rw [List.mem_singleton.mp member]; simp [Line.commentToken]
  | content _ _ filled read =>
      intro ends
      have content := Line.isContent_tokens _ line tokens filled read token member
      rw [ends] at content
      cases content

/-- Inside a doc string no header can come any more. -/
def Settled (mode : Mode) : Prop :=
  mode.opened.isSome = true → mode.headerAllowed = false

theorem Step.settled (step : Step setup mode line tokens after) (settled : mode.Settled) :
    after.Settled := by
  cases step with
  | closing => exact fun inside => nomatch inside
  | verbatim => exact settled
  | blank => exact settled
  | comment => exact settled
  | header => exact settled
  | opening => exact fun _ => rfl
  | content => exact fun _ => rfl

/-- Only comments leave room for a header. -/
theorem Step.header_over (step : Step setup mode line tokens after) (settled : mode.Settled)
    (token : Token) (member : token ∈ tokens) (counts : token.kind ≠ .comment) :
    after.headerAllowed = false := by
  cases step with
  | closing | blank | opening => cases member
  | verbatim opening inside => exact settled (by rw [inside]; rfl)
  | comment => exact absurd (by rw [List.mem_singleton.mp member]; rfl) counts
  | header => exact absurd (by rw [List.mem_singleton.mp member]; rfl) counts
  | content => rfl

theorem Step.header_over_of_two {first second : Token}
    (step : Step setup mode line (first :: second :: tokens) after) : after.headerAllowed = false := by
  cases step
  rfl

def ending (mode : Mode) : Except LexError Mode :=
  match mode.opened with
  | some opening => .error (.unterminatedDocString opening.location.line)
  | none => .ok mode

/-- The tokens of some lines up to the first error, and that error or the mode at the end. -/
inductive Reads (setup : Setup) : Mode → List Line → List Token → Except LexError Mode → Prop where
  | done (mode : Mode) : Reads setup mode [] [] mode.ending
  | fails {mode after : Mode} {line : Line} {error : LexError} (rest : List Line)
      (read : mode.read setup line = (.error error, after)) :
      Reads setup mode (line :: rest) [] (.error error)
  | line {mode after : Mode} {line : Line} {tokens : List Token} {rest : List Line}
      {later : List Token} {result : Except LexError Mode}
      (read : mode.read setup line = (.ok tokens, after))
      (reads : Reads setup after rest later result) :
      Reads setup mode (line :: rest) (tokens ++ later) result

theorem exists_reads (setup : Setup) (mode : Mode) (lines : List Line) :
    ∃ tokens result, Reads setup mode lines tokens result := by
  induction lines generalizing mode with
  | nil => exact ⟨[], mode.ending, Reads.done mode⟩
  | cons line rest ih =>
      cases read : mode.read setup line with
      | mk result after =>
          cases result with
          | error error => exact ⟨[], .error error, Reads.fails rest read⟩
          | ok tokens =>
              obtain ⟨later, result, reads⟩ := ih after
              exact ⟨tokens ++ later, result, Reads.line read reads⟩

theorem ending_eq_ok (mode last : Mode) (ends : mode.ending = .ok last) :
    last = mode ∧ mode.opened = none := by
  unfold ending at ends
  split at ends
  · cases ends
  · rename_i outside
    exact ⟨(Except.ok.inj ends).symm, outside⟩

variable {lines : List Line} {result : Except LexError Mode}

theorem Reads.kind_ne_eof (reads : Reads setup mode lines tokens result) (token : Token)
    (member : token ∈ tokens) : token.kind ≠ .eof := by
  induction reads with
  | done | fails => cases member
  | line read _ ih =>
      rcases List.mem_append.mp member with here | later
      · exact (step_of_read read).kind_ne_eof token here
      · exact ih later

theorem Reads.length_le (reads : Reads setup mode lines tokens result) :
    tokens.length ≤ Line.capacity lines := by
  induction reads with
  | done | fails => exact Nat.zero_le _
  | line read _ ih =>
      have here := (step_of_read read).length_le
      rw [List.length_append, Line.capacity]
      omega

inductive Run (setup : Setup) : Mode → List Line → List Token → Mode → Prop where
  | nil (mode : Mode) : Run setup mode [] [] mode
  | cons {mode after last : Mode} {line : Line} {rest : List Line} {tokens later : List Token}
      (step : Step setup mode line tokens after) (run : Run setup after rest later last) :
      Run setup mode (line :: rest) (tokens ++ later) last

/-- A document that is read to its end leaves no doc string open. -/
theorem Reads.run {last : Mode} (reads : Reads setup mode lines tokens (.ok last)) :
    Run setup mode lines tokens last ∧ last.opened = none := by
  generalize same : Except.ok last = result at reads
  induction reads with
  | done mode =>
      obtain ⟨equal, outside⟩ := ending_eq_ok mode last same.symm
      subst equal
      exact ⟨Run.nil last, outside⟩
  | fails => cases same
  | line read _ ih =>
      obtain ⟨run, outside⟩ := ih same
      exact ⟨Run.cons (step_of_read read) run, outside⟩

end Mode

namespace Reader

/-- A reader that has the given tokens left before its first error or the end of its document.
`number` is that of the next line to be read. -/
structure Holds (reader : Reader) (number : Nat) (tokens : List Token)
    (result : Except LexError Mode) : Prop where
  reads : ∃ later, tokens = reader.queue ++ later ∧
    Mode.Reads reader.setup reader.mode reader.unread later result
  numbered : Line.Consecutive number reader.unread
  queued : ∀ token ∈ reader.queue, token.location.line < number
  begun : reader.queue ≠ [] → reader.mode.headerAllowed = false
  settled : reader.mode.Settled

structure Continues (before after : Reader) : Prop where
  setup : after.setup = before.setup
  finish : after.finish = before.finish

theorem Continues.trans {first second third : Reader} (left : Continues first second)
    (right : Continues second third) : Continues first third :=
  ⟨right.setup.trans left.setup, right.finish.trans left.finish⟩

structure Done (reader : Reader) (mode : Mode) : Prop where
  queue : reader.queue = []
  unread : reader.unread = []
  reached : reader.mode = mode
  outside : mode.opened = none

variable {reader : Reader} {number : Nat} {tokens : List Token} {result : Except LexError Mode}

theorem holds_start (setup : Setup) (text : Text)
    (reads : Mode.Reads setup (.initial setup) (Line.split text) tokens result) :
    Holds (start setup text) 1 tokens result where
  reads := ⟨tokens, rfl, reads⟩
  numbered := Line.consecutive_split text
  queued := by simp [start]
  begun := fun some => absurd rfl some
  settled := fun inside => nomatch inside

theorem Holds.length_le (holds : Holds reader number tokens result) :
    tokens.length ≤ reader.size := by
  obtain ⟨later, same, reads⟩ := holds.reads
  rw [same, List.length_append, size]
  exact Nat.add_le_add_left reads.length_le _

/-- What a reader that holds the given tokens can answer when it is asked for one. -/
inductive Answer (before : Reader) (number : Nat) :
    List Token → Except LexError Mode → Except LexError Token × Reader → Prop where
  | token {token : Token} {tokens : List Token} {result : Except LexError Mode} {after : Reader}
      {next : Nat} (holds : Holds after next tokens result) (later : number ≤ next)
      (line : token.location.line < next)
      (begun : token.kind ≠ .comment → after.mode.headerAllowed = false)
      (continues : Continues before after) (smaller : after.size < before.size) :
      Answer before number (token :: tokens) result (.ok token, after)
  | failure (error : LexError) (after : Reader) :
      Answer before number [] (.error error) (.error error, after)
  | ending {last : Mode} {after : Reader} (done : Done after last)
      (continues : Continues before after) :
      Answer before number [] (.ok last) (.ok ⟨.eof, [], before.finish⟩, after)

variable {before skipped : Reader} {answer : Except LexError Token × Reader}

/-- What a reader passes over makes no difference to the answer. -/
theorem Answer.of_skipped {next : Nat} (given : Answer skipped next tokens result answer)
    (ahead : number ≤ next) (continues : Continues before skipped)
    (smaller : skipped.size ≤ before.size) : Answer before number tokens result answer := by
  cases given with
  | token holds later line begun further less =>
      exact Answer.token holds (Nat.le_trans ahead later) line begun (continues.trans further)
        (Nat.lt_of_lt_of_le less smaller)
  | failure error after => exact Answer.failure error after
  | ending done further =>
      rw [continues.finish]
      exact Answer.ending done (continues.trans further)

theorem answer_pull {setup : Setup} {mode : Mode} {lines : List Line}
    (reads : Mode.Reads setup mode lines tokens result) (reader : Reader) (number : Nat)
    (sameSetup : reader.setup = setup) (sameMode : reader.mode = mode)
    (unread : reader.unread = lines) (queue : reader.queue = [])
    (numbered : Line.Consecutive number lines) (settled : mode.Settled) :
    Answer reader number tokens result (reader.pull lines) := by
  induction reads generalizing reader number with
  | done mode =>
      rw [pull, Reader.ending, sameMode, Mode.ending]
      cases inside : mode.opened with
      | some opening => exact Answer.failure _ _
      | none => exact Answer.ending ⟨queue, unread, sameMode, inside⟩ ⟨rfl, rfl⟩
  | fails rest read =>
      rw [pull, sameSetup, sameMode, read]
      exact Answer.failure _ _
  | @line mode after line tokens rest later result read reads ih =>
      have step := Mode.step_of_read read
      rw [pull, sameSetup, sameMode, read]
      have capacity : Line.capacity reader.unread =
          line.content.length + 1 + Line.capacity rest := by
        rw [unread]
        rfl
      cases tokens with
      | nil =>
          -- A silent line only moves the reader on.
          refine Answer.of_skipped (ih (reader.passLine line after [] rest) (number + 1) sameSetup rfl rfl
            queue numbered.2 (step.settled settled)) (Nat.le_succ number) ⟨rfl, rfl⟩ ?_
          simp only [size, passLine, queue, capacity]
          omega
      | cons token tokens =>
          have here := step.onLine.line
          have bound := step.length_le
          refine Answer.token ⟨⟨later, rfl, sameSetup ▸ reads⟩, numbered.2, ?_, ?_,
            step.settled settled⟩ (Nat.le_succ number) ?_ ?_ ⟨rfl, rfl⟩ ?_
          · intro other member
            have found := here other (List.mem_cons_of_mem token member)
            rw [found, numbered.1]
            exact Nat.lt_succ_self number
          · intro some
            obtain ⟨other, others, split⟩ := List.exists_cons_of_ne_nil some
            subst split
            exact step.header_over_of_two
          · rw [here token List.mem_cons_self, numbered.1]
            exact Nat.lt_succ_self number
          · exact step.header_over settled token List.mem_cons_self
          · simp only [size, handOut, passLine, queue, capacity]
            simp only [List.length_cons] at bound
            simp only [List.length_nil]
            omega

theorem answer_next (holds : Holds reader number tokens result) :
    Answer reader number tokens result reader.next := by
  obtain ⟨later, same, reads⟩ := holds.reads
  unfold next
  cases queue : reader.queue with
  | nil =>
      rw [queue, List.nil_append] at same
      subst same
      exact answer_pull reads reader number rfl rfl rfl queue holds.numbered holds.settled
  | cons token rest =>
      have begun := holds.begun (by simp [queue])
      have queued := holds.queued
      rw [queue] at same queued
      subst same
      refine Answer.token ⟨⟨later, rfl, reads⟩, holds.numbered, ?_, fun _ => begun, holds.settled⟩
        (Nat.le_refl number) (queued token List.mem_cons_self) (fun _ => begun) ⟨rfl, rfl⟩ ?_
      · exact fun other member => queued other (List.mem_cons_of_mem token member)
      · simp [size, handOut, queue]

theorem drain_eq_ok {last : Mode} (holds : Holds reader number tokens (.ok last))
    (proper : ∀ token ∈ tokens, token.kind ≠ .eof) (fuel : Nat) (enough : tokens.length < fuel) :
    ∃ after, drain fuel reader = (.ok (tokens ++ [⟨.eof, [], reader.finish⟩]), after) ∧
      Done after last ∧ Continues reader after := by
  induction tokens generalizing reader number fuel with
  | nil =>
      obtain ⟨fuel, rfl⟩ := Nat.exists_eq_succ_of_ne_zero (Nat.ne_of_gt enough)
      have answer := answer_next holds
      generalize called : reader.next = given at answer
      cases answer with
      | @ending _ after done continues =>
          exact ⟨after, by simp [drain, called], done, continues⟩
  | cons token rest ih =>
      obtain ⟨fuel, rfl⟩ := Nat.exists_eq_succ_of_ne_zero (Nat.ne_of_gt (Nat.zero_lt_of_lt enough))
      have answer := answer_next holds
      generalize called : reader.next = given at answer
      cases answer with
      | @token _ _ _ middle _ holds _ _ _ continues =>
          obtain ⟨after, drained, done, further⟩ := ih holds
            (fun other member => proper other (List.mem_cons_of_mem token member)) fuel
            (Nat.lt_of_succ_lt_succ enough)
          have counts := proper token List.mem_cons_self
          refine ⟨after, ?_, done, continues.trans further⟩
          simp [drain, called, counts, drained, Except.map, continues.finish]

theorem drain_eq_error {error : LexError} (holds : Holds reader number tokens (.error error))
    (proper : ∀ token ∈ tokens, token.kind ≠ .eof) (fuel : Nat) (enough : tokens.length < fuel) :
    ∃ after, drain fuel reader = (.error error, after) := by
  induction tokens generalizing reader number fuel with
  | nil =>
      obtain ⟨fuel, rfl⟩ := Nat.exists_eq_succ_of_ne_zero (Nat.ne_of_gt enough)
      have answer := answer_next holds
      generalize called : reader.next = given at answer
      cases answer with
      | failure _ after => exact ⟨after, by simp [drain, called]⟩
  | cons token rest ih =>
      obtain ⟨fuel, rfl⟩ := Nat.exists_eq_succ_of_ne_zero (Nat.ne_of_gt (Nat.zero_lt_of_lt enough))
      have answer := answer_next holds
      generalize called : reader.next = given at answer
      cases answer with
      | @token _ _ _ middle _ holds _ _ _ continues =>
          obtain ⟨after, drained⟩ := ih holds
            (fun other member => proper other (List.mem_cons_of_mem token member)) fuel
            (Nat.lt_of_succ_lt_succ enough)
          have counts := proper token List.mem_cons_self
          exact ⟨after, by simp [drain, called, counts, drained, Except.map]⟩

end Reader

def Reader.afterDocument (setup : Setup) (text : Text) : Reader :=
  ((Reader.start setup []).tokenize text).2

theorem Reader.tokenize_start (setup : Setup) (text : Text) :
    (Reader.start setup []).tokenize text =
      drain ((Reader.start setup text).size + 1) (Reader.start setup text) := by
  rw [Reader.tokenize, restart_start]

theorem tokenize_of_reads_ok {setup : Setup} {text : Text} {tokens : List Token} {last : Mode}
    (reads : Mode.Reads setup (.initial setup) (Line.split text) tokens (.ok last)) :
    tokenize setup text = .ok (tokens ++ [⟨.eof, [], Line.finish (Line.split text)⟩]) ∧
      (Reader.afterDocument setup text).Done last ∧
      Reader.Continues (.start setup text) (.afterDocument setup text) := by
  have holds := Reader.holds_start setup text reads
  obtain ⟨after, drained, done, continues⟩ := Reader.drain_eq_ok holds reads.kind_ne_eof _
    (Nat.lt_succ_of_le holds.length_le)
  have whole : (Reader.start setup []).tokenize text =
      (.ok (tokens ++ [⟨.eof, [], Line.finish (Line.split text)⟩]), after) :=
    (Reader.tokenize_start setup text).trans drained
  rw [tokenize, Reader.afterDocument, whole]
  exact ⟨rfl, done, continues⟩

theorem tokenize_of_reads_error {setup : Setup} {text : Text} {tokens : List Token}
    {error : LexError}
    (reads : Mode.Reads setup (.initial setup) (Line.split text) tokens (.error error)) :
    tokenize setup text = .error error := by
  have holds := Reader.holds_start setup text reads
  obtain ⟨after, drained⟩ := Reader.drain_eq_error holds reads.kind_ne_eof _
    (Nat.lt_succ_of_le holds.length_le)
  have whole : (Reader.start setup []).tokenize text = (.error error, after) :=
    (Reader.tokenize_start setup text).trans drained
  rw [tokenize, whole]

/-- The lines behind the tokens of a document. -/
theorem reads_of_tokenize_ok {setup : Setup} {text : Text} {all : List Token}
    (lexed : tokenize setup text = .ok all) :
    ∃ tokens last, Mode.Reads setup (.initial setup) (Line.split text) tokens (.ok last) ∧
      all = tokens ++ [⟨.eof, [], Line.finish (Line.split text)⟩] := by
  obtain ⟨tokens, result, reads⟩ := Mode.exists_reads setup (.initial setup) (Line.split text)
  cases result with
  | error error =>
      rw [tokenize_of_reads_error reads] at lexed
      cases lexed
  | ok last =>
      rw [(tokenize_of_reads_ok reads).1] at lexed
      exact ⟨tokens, last, reads, (Except.ok.inj lexed).symm⟩

end Gherkin
