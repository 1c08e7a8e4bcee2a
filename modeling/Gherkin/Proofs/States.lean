import Gherkin.Proofs.Layout

/-!
The states of a reader.

Between two calls a reader is in one of four phases: its conditions, the doc string it has open and
the tokens it has not handed out go together. `Phase` lists them, and reading a line or handing out
a token leads from one to another. Besides, the dialect in force is the registered one, the doc
strings recorded lie one after another, and the lines read and the lines left are the document.
`coherent_after` collects all of this for every sequence of calls, errors on the way included.
-/

namespace Gherkin

namespace Reader

inductive Call where
  | restart (text : Text)
  | next
  | tokenize (text : Text)

def call (reader : Reader) : Call → Reader
  | .restart text => reader.restart text
  | .next => reader.next.2
  | .tokenize text => (reader.tokenize text).2

def after (reader : Reader) (calls : List Call) : Reader :=
  calls.foldl call reader

def Call.document (before : Text) : Call → Text
  | restart text => text
  | next => before
  | tokenize text => text

/-- The document that a reader is at after some calls. A new reader is at an empty one. -/
def document (calls : List Call) : Text :=
  calls.foldl Call.document []

inductive Reached (setup : Setup) : Text → Reader → Prop where
  | start : Reached setup [] (.start setup [])
  | restart {before : Text} {reader : Reader} (reached : Reached setup before reader) (text : Text) :
      Reached setup text (reader.restart text)
  | next {text : Text} {reader : Reader} (reached : Reached setup text reader) :
      Reached setup text reader.next.2

theorem Reached.drain {setup : Setup} {text : Text} {reader : Reader}
    (reached : Reached setup text reader) (fuel : Nat) : Reached setup text (drain fuel reader).2 := by
  induction fuel generalizing reader with
  | zero => exact reached
  | succ fuel ih =>
      have further := reached.next
      rw [Reader.drain]
      generalize reader.next = given at further
      obtain ⟨_ | token, after⟩ := given
      · exact further
      · simp only
        split
        · exact further
        · exact ih further

theorem Reached.call {setup : Setup} {text : Text} {reader : Reader}
    (reached : Reached setup text reader) (call : Call) :
    Reached setup (call.document text) (reader.call call) := by
  cases call with
  | restart other => exact reached.restart other
  | next => exact reached.next
  | tokenize other => exact (reached.restart other).drain _

theorem reached_after (setup : Setup) (calls : List Call) :
    Reached setup (document calls) ((start setup []).after calls) := by
  have steps : ∀ (text : Text) (reader : Reader), Reached setup text reader →
      Reached setup (calls.foldl Call.document text) (reader.after calls) := by
    induction calls with
    | nil => exact fun _ _ reached => reached
    | cons call rest ih => exact fun text reader reached => ih _ _ (reached.call call)
  exact steps [] _ .start

end Reader

namespace Mode

variable {setup : Setup} {mode after : Mode} {line : Line}

def Registered (setup : Setup) (mode : Mode) : Prop :=
  setup.registry.find? mode.language = some mode.dialect

/-- A line with an error can end the headers and does nothing else. -/
theorem read_eq_error {error : LexError} (read : mode.read setup line = (.error error, after)) :
    mode.opened = none ∧ (after = mode ∨ after = { mode with headerAllowed := false }) := by
  unfold Mode.read at read
  split at read
  · cases read
  · rename_i outside
    refine ⟨outside, ?_⟩
    cases shape : line.shape setup.settings.fenced mode.dialect with
    | blank =>
        rw [shape] at read
        cases read
    | comment =>
        simp only [shape, readShaped, readComment] at read
        split at read
        · cases read
        · split at read
          · cases read
            exact Or.inl rfl
          · cases read
    | delimiter delimiter =>
        rw [shape] at read
        cases read
    | row | tags | block _ | step _ | description =>
        simp only [shape, readShaped, Prod.mk.injEq] at read
        exact Or.inr read.2.symm

theorem Step.registered {tokens : List Token} (step : Step setup mode line tokens after)
    (registered : Registered setup mode) : Registered setup after := by
  cases step with
  | header language dialect _ _ _ known => exact known
  | closing | verbatim | blank | comment | opening | content => exact registered

theorem registered_read (registered : Registered setup mode) (line : Line) :
    Registered setup (mode.read setup line).2 := by
  cases read : mode.read setup line with
  | mk result after =>
      cases result with
      | ok tokens => exact (step_of_read read).registered registered
      | error error => rcases (read_eq_error read).2 with rfl | rfl <;> exact registered

theorem Bounded.mono {less more : Nat} (bounded : Bounded less mode) (le : less ≤ more) :
    Bounded more mode where
  closed block member := by
    obtain ⟨known, ordered, before⟩ := bounded.closed block member
    exact ⟨known, ordered, Nat.lt_of_lt_of_le before le⟩
  apart := bounded.apart
  opened opening inside := by
    obtain ⟨before, apart⟩ := bounded.opened opening inside
    exact ⟨Nat.lt_of_lt_of_le before le, apart⟩

theorem bounded_read (setup : Setup) {number : Nat} (bounded : Bounded number mode)
    (here : line.number = number) : Bounded (number + 1) (mode.read setup line).2 := by
  cases read : mode.read setup line with
  | mk result after =>
      cases result with
      | ok tokens => exact bounded.step (step_of_read read) here
      | error error =>
          have later := bounded.mono (Nat.le_succ number)
          rcases (read_eq_error read).2 with rfl | rfl
          · exact later
          · exact ⟨later.closed, later.apart, later.opened⟩

end Mode

/-- What goes together between two calls: the conditions of a reader, the doc string it has open, and
the tokens it has not handed out. -/
inductive Phase : ConditionStack → Option Opening → List Token → Prop where
  | initial {queue : List Token}
      (short : queue = [] ∨ ∃ name, queue = [name] ∧ name.kind = .name) : Phase .bottom none queue
  | tags {tags : List Token} {ending : Token} (plain : ∀ token ∈ tags, token.kind = .tag)
      (ends : ending.kind = .eol) : Phase (.enter .bottom .tags) none (tags ++ [ending])
  | table {cells : List Token} {ending : Token}
      (plain : ∀ token ∈ cells, token.kind = .pipe ∨ token.kind = .cell)
      (ends : ending.kind = .eol) : Phase (.enter .bottom .table) none (cells ++ [ending])
  | docString (opening : Opening) : Phase (.enter .bottom .docString) (some opening) []

namespace Phase

variable {stack : ConditionStack} {opened : Option Opening} {queue : List Token}

theorem reset (phase : Phase stack opened queue) : stack.reset = .bottom := by
  cases phase <;> rfl

/-- With nothing to hand out a reader is at the start of a line. -/
theorem of_nil (phase : Phase stack opened []) :
    stack = .bottom ∧ opened = none ∨
      stack = .enter .bottom .docString ∧ ∃ opening, opened = some opening := by
  generalize empty : ([] : List Token) = queue at phase
  cases phase with
  | initial => exact Or.inl ⟨rfl, rfl⟩
  | tags => simp at empty
  | table => simp at empty
  | docString opening => exact Or.inr ⟨rfl, opening, rfl⟩

theorem handOut {token : Token} (phase : Phase stack opened (token :: queue)) :
    Phase (stack.afterToken token) opened queue := by
  generalize whole : token :: queue = tokens at phase
  -- The condition of a tag line or a table goes with its last token.
  cases phase with
  | initial short =>
      rcases short with rfl | ⟨name, rfl, named⟩
      · cases whole
      · cases whole
        rw [ConditionStack.afterToken, if_neg (by simp [named])]
        exact .initial (Or.inl rfl)
  | @tags tags ending plain ends =>
      cases tags with
      | nil =>
          cases whole
          rw [ConditionStack.afterToken, if_pos ends]
          exact .initial (Or.inl rfl)
      | cons tag more =>
          cases whole
          rw [ConditionStack.afterToken, if_neg (by simp [plain])]
          exact .tags (fun other member => plain other (List.mem_cons_of_mem _ member)) ends
  | @table cells ending plain ends =>
      cases cells with
      | nil =>
          cases whole
          rw [ConditionStack.afterToken, if_pos ends]
          exact .initial (Or.inl rfl)
      | cons cell more =>
          cases whole
          have inner : token.kind ≠ .eol := by
            rcases plain token List.mem_cons_self with pipe | cell
            · simp [pipe]
            · simp [cell]
          rw [ConditionStack.afterToken, if_neg inner]
          exact .table (fun other member => plain other (List.mem_cons_of_mem _ member)) ends
  | docString => cases whole

end Phase

theorem TokenKind.name_of_precedes {kind other : TokenKind} (opens : kind.opensLine = true)
    (notTag : kind ≠ .tag) (notPipe : kind ≠ .pipe) (precedes : kind.precedes other = true) :
    other = .name := by
  cases kind <;> cases other <;> simp_all [TokenKind.precedes, TokenKind.opensLine]

section Following

variable {first : Token} {queue : List Token}

/-- Kinds that leave their line open go on until its end. -/
theorem ends_of_chain (inner : TokenKind → Prop)
    (unfinished : ∀ kind, inner kind → kind.closesLine = false)
    (next : ∀ kind other, inner kind → kind.precedes other = true → inner other ∨ other = .eol)
    (opens : inner first.kind)
    (chain : ((first :: queue).map (·.kind)).IsChain fun left right => left.precedes right = true)
    (last : ∀ kind ∈ ((first :: queue).map (·.kind)).getLast?, kind.closesLine = true) :
    ∃ front ending, queue = front ++ [ending] ∧ (∀ token ∈ front, inner token.kind) ∧
      ending.kind = .eol := by
  induction queue generalizing first with
  | nil =>
      have closes := last first.kind rfl
      rw [unfinished first.kind opens] at closes
      cases closes
  | cons token rest ih =>
      obtain ⟨precedes, chain⟩ := List.isChain_cons_cons.mp chain
      rcases next first.kind token.kind opens precedes with further | ends
      · obtain ⟨front, ending, split, plain, ends⟩ :=
          ih further chain fun kind final => last kind (by simpa using final)
        refine ⟨token :: front, ending, by rw [split]; rfl, ?_, ends⟩
        exact List.forall_mem_cons.mpr ⟨further, plain⟩
      · cases rest with
        | nil => exact ⟨[], token, rfl, by simp, ends⟩
        | cons other more =>
            have after : token.kind.precedes other.kind = true := (List.isChain_cons_cons.mp chain).1
            rw [ends] at after
            cases after

/-- A keyword has at most a name after it, and other tokens that begin a line stand alone. -/
theorem short_of_chain (opens : first.kind.opensLine = true) (notTag : first.kind ≠ .tag)
    (notPipe : first.kind ≠ .pipe)
    (chain : ((first :: queue).map (·.kind)).IsChain fun left right => left.precedes right = true) :
    queue = [] ∨ ∃ name, queue = [name] ∧ name.kind = .name := by
  cases queue with
  | nil => exact Or.inl rfl
  | cons token rest =>
      obtain ⟨precedes, chain⟩ := List.isChain_cons_cons.mp chain
      have named : token.kind = .name := TokenKind.name_of_precedes opens notTag notPipe precedes
      refine Or.inr ⟨token, ?_, named⟩
      cases rest with
      | nil => rfl
      | cons other more =>
          have after : token.kind.precedes other.kind = true := (List.isChain_cons_cons.mp chain).1
          rw [named] at after
          cases after

end Following

/-! A phase is fixed by the kinds of the tokens that are still to be handed out. Each token that goes leads to
the phase of those behind it. -/

namespace Phase

variable {setup : Setup} {mode after : Mode} {line : Line} {stack : ConditionStack}

theorem readSilent (phase : Phase stack mode.opened []) (step : Mode.Step setup mode line [] after) :
    Phase (stack.afterLine mode after []) after.opened [] := by
  unfold ConditionStack.afterLine
  cases step with
  | closing opening inside =>
      rcases phase.of_nil with ⟨_, outside⟩ | ⟨rfl, _⟩
      · rw [inside] at outside
        cases outside
      · simp only [inside]
        exact .initial (Or.inl rfl)
  | blank outside =>
      simp only [outside] at phase ⊢
      exact phase
  | opening delimiter outside =>
      rcases phase.of_nil with ⟨rfl, _⟩ | ⟨_, opening, inside⟩
      · simp only [outside]
        exact .docString _
      · rw [outside] at inside
        cases inside
  | content _ outside =>
      simp only [outside] at phase ⊢
      exact phase

/-- A token that is no tag and no border changes nothing when it opens a line. -/
theorem readShort {token : Token} {queue : List Token} (phase : Phase stack none [])
    (opens : token.kind.opensLine = true) (notTag : token.kind ≠ .tag)
    (notPipe : token.kind ≠ .pipe)
    (chain : ((token :: queue).map (·.kind)).IsChain fun left right => left.precedes right = true)
    (before : mode.opened = none) (outside : after.opened = none) :
    Phase ((stack.afterLine mode after (token :: queue)).afterToken token) after.opened queue := by
  have same : stack.afterLine mode after (token :: queue) = stack := by
    obtain ⟨kind, text, location⟩ := token
    simp only [ConditionStack.afterLine, before, outside]
    split
    · rename_i tag
      cases tag
      exact absurd rfl notTag
    · rename_i pipe
      cases pipe
      exact absurd rfl notPipe
    · rfl
  have notEnd : token.kind ≠ .eol := by
    intro ends
    rw [ends] at opens
    cases opens
  rw [same, ConditionStack.afterToken, if_neg notEnd, outside]
  rcases phase.of_nil with ⟨rfl, _⟩ | ⟨_, _, inside⟩
  · exact .initial (short_of_chain opens notTag notPipe chain)
  · cases inside

theorem readToken {token : Token} {queue : List Token} (phase : Phase stack mode.opened [])
    (step : Mode.Step setup mode line (token :: queue) after) :
    Phase ((stack.afterLine mode after (token :: queue)).afterToken token) after.opened queue := by
  have onLine := step.onLine
  have opens := onLine.head token.kind rfl
  cases step with
  | verbatim opening inside =>
      rcases phase.of_nil with ⟨_, outside⟩ | ⟨rfl, _⟩
      · rw [inside] at outside
        cases outside
      · simp only [ConditionStack.afterLine, inside]
        exact .docString opening
  | comment outside =>
      rw [outside] at phase
      exact phase.readShort opens (by simp [Line.commentToken]) (by simp [Line.commentToken])
        onLine.chain outside outside
  | header _ _ outside =>
      rw [outside] at phase
      exact phase.readShort opens (by simp [Line.commentToken]) (by simp [Line.commentToken])
        onLine.chain outside outside
  | content _ outside filled read =>
      rw [outside] at phase
      -- Tag lines and rows hand out their tokens one by one under a condition of their own, which ends with the
      -- last token. Other content is short enough to leave at once.
      by_cases tag : token.kind = .tag
      · obtain ⟨front, ending, rfl, plain, ends⟩ := ends_of_chain (· = .tag)
          (by rintro kind rfl; rfl)
          (by rintro _ other rfl; cases other <;> simp [TokenKind.precedes]) tag onLine.chain onLine.last
        rcases phase.of_nil with ⟨rfl, _⟩ | ⟨_, _, inside⟩
        · obtain ⟨kind, text, location⟩ := token
          cases tag
          simp only [ConditionStack.afterLine, outside]
          exact .tags plain ends
        · cases inside
      · by_cases pipe : token.kind = .pipe
        · obtain ⟨front, ending, rfl, plain, ends⟩ := ends_of_chain
            (fun kind => kind = .pipe ∨ kind = .cell)
            (by rintro kind (rfl | rfl) <;> rfl)
            (by rintro kind other (rfl | rfl) <;> cases other <;> simp [TokenKind.precedes])
            (Or.inl pipe) onLine.chain onLine.last
          rcases phase.of_nil with ⟨rfl, _⟩ | ⟨_, _, inside⟩
          · obtain ⟨kind, text, location⟩ := token
            cases pipe
            simp only [ConditionStack.afterLine, outside]
            exact .table plain ends
          · cases inside
        · exact phase.readShort opens tag pipe onLine.chain outside outside

end Phase

theorem Line.Consecutive.take {number : Nat} {read unread : List Line}
    (numbered : Consecutive number (read ++ unread)) : Consecutive number read := by
  induction read generalizing number with
  | nil => trivial
  | cons line rest ih => exact ⟨numbered.1, ih numbered.2⟩

theorem Line.Consecutive.drop {number : Nat} {read unread : List Line}
    (numbered : Consecutive number (read ++ unread)) : Consecutive (number + read.length) unread := by
  induction read generalizing number with
  | nil => exact numbered
  | cons line rest ih =>
      have later := ih numbered.2
      rwa [Nat.add_right_comm, Nat.add_assoc] at later

theorem Text.bytes_append (left right : Text) : bytes (left ++ right) = bytes left + bytes right := by
  induction left with
  | nil => simp [bytes]
  | cons c rest ih => simp only [List.cons_append, bytes, ih, Nat.add_assoc]

structure Reader.Passed (reader : Reader) (text : Text) (read : List Line) : Prop where
  split : Line.split text = read ++ reader.unread
  line : reader.line = read.length
  offset : reader.offset = Text.bytes (read.flatMap Line.raw)

/-- The invariant of a reader: its phase, the dialect in force, the doc strings recorded, and the
lines read. -/
structure Reader.Tracks (setup : Setup) (text : Text) (reader : Reader) : Prop where
  fixed : reader.setup = setup
  phase : Phase reader.stack reader.mode.opened reader.queue
  registered : reader.mode.Registered setup
  bounded : reader.mode.Bounded (reader.line + 1)
  passed : ∃ read, reader.Passed text read

namespace Reader

variable {setup : Setup} {text : Text} {reader : Reader} {line : Line} {rest : List Line} {mode : Mode}

theorem tracks_start (setup : Setup) : Tracks setup [] (start setup []) where
  fixed := rfl
  phase := .initial (Or.inl rfl)
  registered := setup.known
  bounded := Mode.bounded_initial setup
  passed := ⟨[], rfl, rfl, rfl⟩

theorem Tracks.reset (tracks : Tracks setup text reader) :
    reader.mode.reset setup = .initial setup := by
  have registered := tracks.registered
  unfold Mode.reset
  split
  · rename_i same
    -- The registry has one dialect for the language, and it is in force.
    have dialect : reader.mode.dialect = setup.dialect := by
      rw [Mode.Registered, same, setup.known] at registered
      exact (Option.some.inj registered).symm
    rw [same, dialect]
    rfl
  · rfl

theorem Tracks.restart_eq (tracks : Tracks setup text reader) (other : Text) :
    reader.restart other = start setup other := by
  rw [restart, tracks.fixed, tracks.reset, tracks.phase.reset, ← tracks.fixed]
  rfl

theorem tracks_restart (tracks : Tracks setup text reader) (other : Text) :
    Tracks setup other (reader.restart other) := by
  rw [tracks.restart_eq]
  constructor
  case fixed => rfl
  case phase => exact .initial (Or.inl rfl)
  case registered => exact setup.known
  case bounded => exact Mode.bounded_initial setup
  case passed => exact ⟨[], rfl, rfl, rfl⟩

theorem Tracks.handOut {token : Token} {queue : List Token} (tracks : Tracks setup text reader)
    (queued : reader.queue = token :: queue) : Tracks setup text (reader.handOut token queue) where
  fixed := tracks.fixed
  phase := by
    have phase := tracks.phase
    rw [queued] at phase
    exact phase.handOut
  registered := tracks.registered
  bounded := tracks.bounded
  passed := by
    obtain ⟨read, passed⟩ := tracks.passed
    exact ⟨read, passed.split, passed.line, passed.offset⟩

theorem Tracks.number_eq (tracks : Tracks setup text reader) (unread : reader.unread = line :: rest) :
    line.number = reader.line + 1 := by
  obtain ⟨read, passed⟩ := tracks.passed
  have numbered := Line.consecutive_splitFrom 1 text
  rw [← Line.split, passed.split, unread] at numbered
  rw [numbered.drop.1, passed.line, Nat.add_comm]

/-- Reading a line keeps all but the phase, whatever the line yields. -/
theorem Tracks.passLine {result : Except LexError (List Token)} (tracks : Tracks setup text reader)
    (unread : reader.unread = line :: rest) (read : reader.mode.read setup line = (result, mode))
    (tokens queue : List Token) (stack : ConditionStack) (phase : Phase stack mode.opened queue) :
    Tracks setup text { reader.passLine line mode tokens rest with stack, queue } := by
  have number := tracks.number_eq unread
  have registered := Mode.registered_read tracks.registered line
  have bounded := Mode.bounded_read setup tracks.bounded number
  rw [read] at registered bounded
  constructor
  case fixed => exact tracks.fixed
  case phase => exact phase
  case registered => exact registered
  case bounded => rwa [← number] at bounded
  case passed =>
      obtain ⟨read, passed⟩ := tracks.passed
      refine ⟨read ++ [line], ?_, ?_, ?_⟩
      · rw [passed.split, unread, List.append_assoc, List.singleton_append]
        rfl
      · rw [List.length_append, List.length_singleton, ← passed.line, ← number]
        rfl
      · simp [Reader.passLine, passed.offset, Text.bytes_append]

theorem tracks_pull (lines : List Line) (tracks : Tracks setup text reader)
    (unread : reader.unread = lines) (empty : reader.queue = []) :
    Tracks setup text (reader.pull lines).2 := by
  induction lines generalizing reader with
  | nil => exact tracks
  | cons line rest ih =>
      have phase := tracks.phase
      rw [empty] at phase
      rw [pull, tracks.fixed]
      cases read : reader.mode.read setup line with
      | mk result mode =>
          have kept := tracks.passLine unread read
          cases result with
          | error error =>
              -- No doc string is open where a line has an error, so there is no condition to keep.
              have outside := (Mode.read_eq_error read).1
              have same : mode.opened = none := by
                rcases (Mode.read_eq_error read).2 with rfl | rfl <;> exact outside
              rw [outside] at phase
              apply kept [] reader.queue
              simp only [ConditionStack.afterLine, outside, same, empty]
              exact phase
          | ok tokens =>
              have step := Mode.step_of_read read
              cases tokens with
              | nil =>
                  refine ih ?_ rfl empty
                  apply kept [] reader.queue
                  rw [empty]
                  exact phase.readSilent step
              | cons token queue =>
                  apply kept (token :: queue) queue
                  exact phase.readToken step

theorem tracks_next (tracks : Tracks setup text reader) : Tracks setup text reader.next.2 := by
  unfold next
  cases queued : reader.queue with
  | nil => exact tracks_pull reader.unread tracks rfl queued
  | cons token queue => exact tracks.handOut queued

theorem Reached.tracks (reached : Reached setup text reader) : Tracks setup text reader := by
  induction reached with
  | start => exact tracks_start setup
  | restart _ text ih => exact tracks_restart ih text
  | next _ ih => exact tracks_next ih

end Reader

namespace Phase

variable {stack : ConditionStack} {opened : Option Opening} {queue : List Token}

theorem conditions (phase : Phase stack opened queue) : stack.conditions = [.initial] ∨
    ∃ condition, condition ≠ .initial ∧ stack.conditions = [.initial, condition] := by
  cases phase with
  | initial => exact Or.inl rfl
  | tags => exact Or.inr ⟨.tags, nofun, rfl⟩
  | table => exact Or.inr ⟨.table, nofun, rfl⟩
  | docString => exact Or.inr ⟨.docString, nofun, rfl⟩

theorem ends (phase : Phase stack opened queue) :
    (∃ token ∈ queue, token.kind = .eol) ↔ stack.top = .tags ∨ stack.top = .table := by
  cases phase with
  | initial short =>
      constructor
      · rintro ⟨token, member, ends⟩
        rcases short with rfl | ⟨name, rfl, named⟩
        · cases member
        · rw [List.mem_singleton.mp member, named] at ends
          cases ends
      · rintro (top | top) <;> cases top
  | tags _ ends =>
      constructor
      · exact fun _ => Or.inl rfl
      · exact fun _ => ⟨_, List.mem_concat_self, ends⟩
  | table _ ends =>
      constructor
      · exact fun _ => Or.inr rfl
      · exact fun _ => ⟨_, List.mem_concat_self, ends⟩
  | docString =>
      constructor
      · rintro ⟨token, member, _⟩
        cases member
      · rintro (top | top) <;> cases top

theorem queue_of_tags (phase : Phase stack opened queue) (top : stack.top = .tags) :
    ∃ front ending, queue = front ++ [ending] ∧ ending.kind = .eol ∧
      ∀ token ∈ front, token.kind = .tag := by
  cases phase with
  | tags plain ends => exact ⟨_, _, rfl, ends, plain⟩
  | initial | table | docString => cases top

theorem queue_of_table (phase : Phase stack opened queue) (top : stack.top = .table) :
    ∃ front ending, queue = front ++ [ending] ∧ ending.kind = .eol ∧
      ∀ token ∈ front, token.kind = .pipe ∨ token.kind = .cell := by
  cases phase with
  | table plain ends => exact ⟨_, _, rfl, ends, plain⟩
  | initial | tags | docString => cases top

theorem top_eq_docString (phase : Phase stack opened queue) :
    stack.top = .docString ↔ opened.isSome = true := by
  cases phase with
  | docString => exact ⟨fun _ => rfl, fun _ => rfl⟩
  | initial | tags | table => exact ⟨nofun, nofun⟩

theorem queue_of_opened {opening : Opening} (phase : Phase stack (some opening) queue) :
    queue = [] := by
  cases phase
  rfl

theorem queue_of_initial (phase : Phase stack opened queue) (alone : stack.conditions = [.initial]) :
    queue = [] ∨ ∃ name, queue = [name] ∧ name.kind = .name := by
  cases phase with
  | initial short => exact short
  | tags | table | docString => cases alone

end Phase

/-- What goes together in a reader that is at a document. -/
structure Reader.Coherent (setup : Setup) (text : Text) (reader : Reader) : Prop where
  /-- At most one condition lies inside the initial one. -/
  conditions : reader.conditions = [.initial] ∨
    ∃ condition, condition ≠ .initial ∧ reader.conditions = [.initial, condition]
  /-- The end of a line is held back exactly on a tag line or a row. -/
  ends : (∃ token ∈ reader.queue, token.kind = .eol) ↔
    reader.stack.top = .tags ∨ reader.stack.top = .table
  tags : reader.stack.top = .tags → ∃ front ending, reader.queue = front ++ [ending] ∧
    ending.kind = .eol ∧ ∀ token ∈ front, token.kind = .tag
  table : reader.stack.top = .table → ∃ front ending, reader.queue = front ++ [ending] ∧
    ending.kind = .eol ∧ ∀ token ∈ front, token.kind = .pipe ∨ token.kind = .cell
  docString : reader.stack.top = .docString ↔ reader.mode.opened.isSome = true
  opened : ∀ opening, reader.mode.opened = some opening →
    reader.queue = [] ∧ reader.blockAt? opening.location.line = some ⟨opening, none⟩
  initial : reader.conditions = [.initial] →
    reader.queue = [] ∨ ∃ name, reader.queue = [name] ∧ name.kind = .name
  /-- A doc string is found under the line that opens it. -/
  keyed : ∀ block ∈ reader.mode.blocks, reader.blockAt? block.location.line = some block
  closed : ∀ block ∈ reader.mode.blocks, reader.mode.opened ≠ some block.toOpening →
    ∃ closing, block.closingLine = some closing ∧ block.location.line < closing
  /-- Each doc string is closed before the next one opens. -/
  apart : reader.mode.blocks.Pairwise fun left right =>
    ∃ closing, left.closingLine = some closing ∧ closing < right.location.line
  passed : ∃ read, reader.Passed text read
  /-- Keywords are looked up in the tables of this dialect. -/
  dialect : setup.registry.find? reader.language = some reader.mode.dialect

namespace Mode

variable {number : Nat} {mode : Mode}

theorem Bounded.blocks_closed (bounded : Bounded number mode) {block : Block}
    (member : block ∈ mode.blocks) (other : mode.opened ≠ some block.toOpening) :
    ∃ closing, block.closingLine = some closing ∧ block.location.line < closing := by
  rcases mem_blocks.mp member with old | ⟨opening, inside, rfl⟩
  · obtain ⟨known, ordered, _⟩ := bounded.closed block old
    exact ⟨block.stop, known, ordered⟩
  · exact absurd inside other

theorem Bounded.blocks_apart (bounded : Bounded number mode) :
    mode.blocks.Pairwise fun left right =>
      ∃ closing, left.closingLine = some closing ∧ closing < right.location.line := by
  refine List.pairwise_append.mpr ⟨?_, ?_, ?_⟩
  · apply bounded.apart.imp_of_mem
    intro left right member _ before
    exact ⟨left.stop, (bounded.closed left member).1, before⟩
  · cases mode.opened <;> simp
  · intro left member right last
    obtain ⟨opening, inside, rfl⟩ := Option.map_eq_some_iff.mp (Option.mem_toList.mp last)
    exact ⟨left.stop, (bounded.closed left member).1, (bounded.opened opening inside).2 left member⟩

theorem Bounded.opens_lt (bounded : Bounded number mode) :
    mode.blocks.Pairwise fun left right => left.location.line < right.location.line := by
  apply bounded.blocks_apart.imp_of_mem
  rintro left right member _ ⟨closing, known, before⟩
  rcases mem_blocks.mp member with old | ⟨opening, _, rfl⟩
  · obtain ⟨stopped, ordered, _⟩ := bounded.closed left old
    rw [known] at stopped
    cases stopped
    exact Nat.lt_trans ordered before
  · cases known

theorem Bounded.find?_blocks (bounded : Bounded number mode) {block : Block}
    (member : block ∈ mode.blocks) :
    (mode.blocks.find? fun other => other.location.line = block.location.line) = some block := by
  have distinct := List.Pairwise.forall_of_forall_of_flip
    (R := fun left right : Block => left.location.line = right.location.line → left = right)
    (fun _ _ _ => rfl) (bounded.opens_lt.imp fun less equal => absurd equal (Nat.ne_of_lt less))
    (bounded.opens_lt.imp fun less equal => absurd equal (Nat.ne_of_gt less))
  cases found : mode.blocks.find? fun other => other.location.line = block.location.line with
  | none => simpa using List.find?_eq_none.mp found block member
  | some other =>
      have line := List.find?_some found
      have same := distinct (List.mem_of_find?_eq_some found) member (by simpa using line)
      rw [same]

end Mode

/-- Whatever has been called before, errors included, a reader is in a coherent state. -/
theorem Reader.coherent_after (setup : Setup) (calls : List Reader.Call) :
    Reader.Coherent setup (Reader.document calls) ((Reader.start setup []).after calls) := by
  have tracks := (Reader.reached_after setup calls).tracks
  generalize (Reader.start setup []).after calls = reader at tracks
  have phase := tracks.phase
  have bounded := tracks.bounded
  constructor
  case keyed => exact fun block member => bounded.find?_blocks member
  case closed => exact fun block member other => bounded.blocks_closed member other
  case apart => exact bounded.blocks_apart
  case passed => exact tracks.passed
  case dialect => exact tracks.registered
  case opened =>
      intro opening inside
      constructor
      · rw [inside] at phase
        exact phase.queue_of_opened
      · exact bounded.find?_blocks (Mode.mem_blocks.mpr (Or.inr ⟨opening, inside, rfl⟩))
  case conditions => exact phase.conditions
  case ends => exact phase.ends
  case tags => exact phase.queue_of_tags
  case table => exact phase.queue_of_table
  case docString => exact phase.top_eq_docString
  case initial => exact phase.queue_of_initial

end Gherkin
