import Gherkin.Proofs.FirstViolation
import Gherkin.Proofs.Reuse
import Gherkin.Proofs.SourceLines

/-!
Streaming.

A reader gets at its lines by a byte offset: it takes what stands between the offset and the next line
feed and goes on behind it. The lines it takes are those the document splits into. Called again and
again, it gives for each line what the line holds in the mode it is read in, which is tokens or one
error, and after the last line the same answer for ever. An error is an answer like any other, and the
line after it is the next one to be read.
-/

namespace Gherkin

/-! A reader counts bytes and its document is made of characters. An offset stands for a place only where a
character begins or the text ends. -/

namespace Text

/-- The text from a byte offset on, if a character begins there or the text ends. -/
def fromByte? : Nat → Text → Option Text
  | 0, text => some text
  | _ + 1, [] => none
  | offset + 1, c :: rest =>
      if c.utf8Size ≤ offset + 1 then fromByte? (offset + 1 - c.utf8Size) rest else none

theorem fromByte?_append (front back : Text) : fromByte? (bytes front) (front ++ back) = some back := by
  induction front with
  | nil => rw [bytes, List.nil_append, fromByte?]
  | cons c rest ih =>
      have size : bytes (c :: rest) = (c.utf8Size - 1 + bytes rest) + 1 := by
        have positive := c.utf8Size_pos
        rw [bytes]
        omega
      have left : c.utf8Size - 1 + bytes rest + 1 - c.utf8Size = bytes rest := by
        have positive := c.utf8Size_pos
        omega
      rw [size, List.cons_append, fromByte?, left, ih, if_pos]
      omega

end Text

namespace Line

def next? (text : Text) (offset number : Nat) : Option (Line × Nat) :=
  match text.fromByte? offset with
  | none | some [] => none
  | some rest =>
      let body := rest.takeWhile (· ≠ '\n')
      if rest.dropWhile (· ≠ '\n') = [] then
        some (⟨number, rest, .none⟩, offset + Text.bytes rest)
      else if body.getLast? = some '\r' then
        some (⟨number, body.dropLast, .crlf⟩, offset + (Text.bytes body + 1))
      else
        some (⟨number, body, .lf⟩, offset + (Text.bytes body + 1))

/-- The lines that are left from a byte offset on, each taken where the one before ends. -/
inductive Taken (text : Text) : Nat → Nat → List Line → Prop where
  | done {offset number : Nat} (none : next? text offset number = none) : Taken text offset number []
  | next {offset after number : Nat} {line : Line} {rest : List Line}
      (first : next? text offset number = some (line, after))
      (later : Taken text after (number + 1) rest) : Taken text offset number (line :: rest)

theorem Taken.unique {text : Text} {offset number : Nat} {lines others : List Line}
    (left : Taken text offset number lines) (right : Taken text offset number others) :
    lines = others := by
  induction left generalizing others with
  | done none =>
      cases right with
      | done => rfl
      | next first => rw [none] at first; cases first
  | next first _ ih =>
      cases right with
      | done none => rw [none] at first; cases first
      | next other later =>
          rw [first] at other
          cases other
          rw [ih later]

section

variable (front : Text) (number : Nat)

theorem next?_nil : next? front (Text.bytes front) number = none := by
  have whole := Text.fromByte?_append front []
  rw [List.append_nil] at whole
  rw [next?, whole]

theorem next?_broken {body : Text} (single : '\n' ∉ body) (rest : Text) :
    next? (front ++ (body ++ '\n' :: rest)) (Text.bytes front) number =
      some (if body.getLast? = some '\r' then ⟨number, body.dropLast, .crlf⟩ else ⟨number, body, .lf⟩,
        Text.bytes (front ++ (body ++ ['\n']))) := by
  have solid : ∀ c ∈ body, decide (c ≠ '\n') = true :=
    fun c inside => decide_eq_true fun same => single (same ▸ inside)
  have taken : (body ++ '\n' :: rest).takeWhile (· ≠ '\n') = body := by
    rw [List.takeWhile_append_of_pos solid]
    simp
  have left : (body ++ '\n' :: rest).dropWhile (· ≠ '\n') = '\n' :: rest := by
    rw [List.dropWhile_append_of_pos solid]
    simp
  have size : Text.bytes (front ++ (body ++ ['\n'])) = Text.bytes front + (Text.bytes body + 1) := by
    rw [Text.bytes_append, Text.bytes_append]
    rfl
  rw [next?, Text.fromByte?_append]
  cases whole : body ++ '\n' :: rest with
  | nil => simp at whole
  | cons c more =>
      rw [whole] at taken left
      dsimp only
      rw [taken, left, size]
      by_cases carriage : body.getLast? = some '\r'
      · simp [carriage]
      · simp [carriage]

theorem next?_last {content : Text} (filled : content ≠ []) (single : '\n' ∉ content) :
    next? (front ++ content) (Text.bytes front) number =
      some (⟨number, content, .none⟩, Text.bytes (front ++ content)) := by
  have solid : ∀ c ∈ content, decide (c ≠ '\n') = true :=
    fun c inside => decide_eq_true fun same => single (same ▸ inside)
  have left : content.dropWhile (· ≠ '\n') = [] := List.dropWhile_eq_nil_iff.mpr solid
  rw [next?, Text.fromByte?_append, Text.bytes_append]
  cases content with
  | nil => exact absurd rfl filled
  | cons c more =>
      dsimp only
      rw [left, if_pos rfl]

end

theorem Laid.drop {number : Nat} {read unread : List Line} (laid : Laid number (read ++ unread)) :
    Laid (number + read.length) unread := by
  induction read generalizing number with
  | nil => exact laid
  | cons line rest ih =>
      rw [List.length_cons, Nat.add_comm rest.length, ← Nat.add_assoc]
      cases rest with
      | nil =>
          cases laid with
          | last => exact .nil _
          | broken _ _ _ _ later => exact ih later
      | cons next more =>
          cases laid with
          | broken _ _ _ _ later => exact ih later

/-- The number of a line and its offset are counted along. -/
theorem Laid.taken {number : Nat} {lines : List Line} (laid : Laid number lines) (front : Text) :
    Taken (front ++ lines.flatMap raw) (Text.bytes front) number lines := by
  induction laid generalizing front with
  | nil number =>
      apply Taken.done
      simpa using next?_nil front number
  | @last number content filled single =>
      have whole : [(⟨number, content, .none⟩ : Line)].flatMap raw = content := by
        simp [raw, LineBreak.text]
      rw [whole]
      exact .next (next?_last front number filled single) (.done (next?_nil _ _))
  | @broken number content ending rest ends single plain _ ih =>
      have later := ih (front ++ (content ++ ending.text))
      rw [List.flatMap_cons, raw, ← List.append_assoc]
      refine .next ?_ later
      rw [List.append_assoc, List.append_assoc]
      cases ending with
      | none => exact absurd rfl ends
      | lf =>
          have first := next?_broken front number single (rest.flatMap raw)
          rwa [if_neg (plain rfl)] at first
      | crlf =>
          have carriage : '\n' ∉ content ++ ['\r'] := by simpa using single
          have first := next?_broken front number carriage (rest.flatMap raw)
          simpa [LineBreak.text] using first

/-- The lines taken from the start of a text are those it splits into. -/
theorem taken_split_iff {text : Text} {lines : List Line} :
    Taken text 0 1 lines ↔ lines = split text := by
  have taken : Taken text 0 1 (split text) := by
    have laid := (laid_split text).taken []
    rwa [List.nil_append, flatMap_raw_split] at laid
  constructor
  · exact fun other => other.unique taken
  · rintro rfl
    exact taken

end Line

namespace Mode

variable {setup : Setup}

def answers (setup : Setup) (mode : Mode) (line : Line) : List (Except LexError Token) :=
  match (mode.read setup line).1 with
  | .ok tokens => tokens.map .ok
  | .error error => [.error error]

/-- What it answers on some lines. Each line is read in the mode that the one before leaves. -/
def answersThrough (setup : Setup) (mode : Mode) : List Line → List (Except LexError Token)
  | [] => []
  | line :: rest => mode.answers setup line ++ (mode.read setup line).2.answersThrough setup rest

section

variable {mode after : Mode} {line : Line}

theorem answers_of_ok {tokens : List Token} (read : mode.read setup line = (.ok tokens, after)) :
    mode.answers setup line = tokens.map .ok := by
  rw [answers, read]

theorem answers_of_error {error : LexError} (read : mode.read setup line = (.error error, after)) :
    mode.answers setup line = [.error error] := by
  rw [answers, read]

end

theorem answers_cases (setup : Setup) (mode : Mode) (line : Line) :
    (∃ tokens : List Token, mode.answers setup line = tokens.map .ok ∧
      ∀ token ∈ tokens, token.location.line = line.number) ∨
    ∃ error, mode.answers setup line = [.error error] ∧ error.line = line.number := by
  cases read : mode.read setup line with
  | mk result after =>
      cases result with
      | ok tokens => exact Or.inl ⟨tokens, answers_of_ok read, (step_of_read read).onLine.line⟩
      | error error => exact Or.inr ⟨error, answers_of_error read, line_of_error (congrArg Prod.fst read)⟩

end Mode

namespace Reader

def later (reader : Reader) (count : Nat) : Reader :=
  reader.after (List.replicate count .next)

def remaining (reader : Reader) : List (Except LexError Token) :=
  reader.queue.map .ok ++ reader.mode.answersThrough reader.setup reader.unread

def lastAnswer (reader : Reader) : Except LexError Token :=
  { reader with mode := reader.mode.through reader.setup reader.unread }.ending

structure Follows (before : Reader) (answer : Except LexError Token) (after : Reader) : Prop where
  answer : answer = before.remaining.head?.getD before.lastAnswer
  remaining : after.remaining = before.remaining.tail
  lastAnswer : after.lastAnswer = before.lastAnswer
  finished : before.remaining = [] → after.queue = [] ∧ after.unread = []

section

variable {reader : Reader} {line : Line} {rest : List Line} {mode : Mode}

theorem remaining_of_read {result : Except LexError (List Token)}
    (unread : reader.unread = line :: rest) (empty : reader.queue = [])
    (read : reader.mode.read reader.setup line = (result, mode)) :
    reader.remaining =
      reader.mode.answers reader.setup line ++ mode.answersThrough reader.setup rest := by
  rw [remaining, empty, unread, Mode.answersThrough, read]
  rfl

theorem remaining_passLine (empty : reader.queue = []) (tokens : List Token) :
    (reader.passLine line mode tokens rest).remaining = mode.answersThrough reader.setup rest := by
  have queue : (reader.passLine line mode tokens rest).queue = [] := empty
  rw [remaining, queue]
  rfl

theorem lastAnswer_passLine {result : Except LexError (List Token)}
    (unread : reader.unread = line :: rest)
    (read : reader.mode.read reader.setup line = (result, mode)) (tokens : List Token) :
    (reader.passLine line mode tokens rest).lastAnswer = reader.lastAnswer := by
  have through : reader.mode.through reader.setup reader.unread = mode.through reader.setup rest := by
    rw [unread, Mode.through, List.foldl_cons, read]
    rfl
  rw [lastAnswer, lastAnswer, through]
  rfl

end

theorem follows_pull {reader : Reader} (lines : List Line) (unread : reader.unread = lines)
    (empty : reader.queue = []) : reader.Follows (reader.pull lines).1 (reader.pull lines).2 := by
  induction lines generalizing reader with
  | nil =>
      have nothing : reader.remaining = [] := by simp [remaining, empty, unread, Mode.answersThrough]
      have last : reader.lastAnswer = reader.ending := by rw [lastAnswer, unread]; rfl
      constructor
      case answer => rw [nothing, last]; rfl
      case remaining => rw [nothing]; exact nothing
      case lastAnswer => rfl
      case finished => exact fun _ => ⟨empty, unread⟩
  | cons line rest ih =>
      rw [pull]
      cases read : reader.mode.read reader.setup line with
      | mk result mode =>
          have left := remaining_of_read unread empty read
          have settled := lastAnswer_passLine unread read
          cases result with
          | error error =>
              rw [Mode.answers_of_error read, List.singleton_append] at left
              constructor
              case answer => rw [left]; rfl
              case remaining => rw [left]; exact remaining_passLine empty []
              case lastAnswer => exact settled []
              case finished => simp [left]
          | ok tokens =>
              rw [Mode.answers_of_ok read] at left
              cases tokens with
              | nil =>
                  -- A silent line: what is left is left for the lines below it.
                  have skipped : (reader.passLine line mode [] rest).unread = rest := rfl
                  have later := ih skipped empty
                  have same : (reader.passLine line mode [] rest).remaining = reader.remaining :=
                    (remaining_passLine empty []).trans left.symm
                  constructor
                  case answer => rw [← same, ← settled []]; exact later.answer
                  case remaining => rw [← same]; exact later.remaining
                  case lastAnswer => exact later.lastAnswer.trans (settled [])
                  case finished => rw [← same]; exact later.finished
              | cons token queue =>
                  constructor
                  case answer => rw [left]; rfl
                  case remaining => rw [left]; rfl
                  case lastAnswer => exact settled (token :: queue)
                  case finished => simp [left]

theorem follows_next (reader : Reader) : reader.Follows reader.next.1 reader.next.2 := by
  unfold next
  cases queued : reader.queue with
  | nil => exact follows_pull reader.unread rfl queued
  | cons token queue =>
      constructor
      case answer => simp [remaining, queued]
      case remaining => simp [remaining, queued, handOut]
      case lastAnswer => rfl
      case finished => simp [remaining, queued]

theorem later_succ (reader : Reader) (count : Nat) :
    reader.later (count + 1) = (reader.later count).next.2 := by
  rw [later, List.replicate_succ', after, List.foldl_append]
  rfl

theorem remaining_later (reader : Reader) (count : Nat) :
    (reader.later count).remaining = reader.remaining.drop count := by
  induction count with
  | zero => rfl
  | succ count ih => rw [later_succ, (follows_next _).remaining, ih, List.tail_drop]

theorem lastAnswer_later (reader : Reader) (count : Nat) :
    (reader.later count).lastAnswer = reader.lastAnswer := by
  induction count with
  | zero => rfl
  | succ count ih => rw [later_succ, (follows_next _).lastAnswer, ih]

theorem answer_later (reader : Reader) (count : Nat) :
    (reader.later count).next.1 = reader.remaining[count]?.getD reader.lastAnswer := by
  rw [(follows_next _).answer, remaining_later, lastAnswer_later, List.head?_drop]

/-- Once nothing is left a call changes nothing. -/
theorem next_eq_self {reader : Reader} (empty : reader.queue = []) (read : reader.unread = []) :
    reader.next.2 = reader := by
  rw [next, empty, read]
  rfl

theorem later_of_length_le (reader : Reader) {count : Nat} (past : reader.remaining.length ≤ count) :
    (reader.later (count + 1)).next.2 = reader.later (count + 1) := by
  have nothing : (reader.later count).remaining = [] := by
    rw [remaining_later, List.drop_eq_nil_of_le past]
  obtain ⟨empty, read⟩ := (follows_next _).finished nothing
  rw [later_succ]
  exact next_eq_self empty read

/-- A reader has passed the lines in front of its offset, and those behind it are left. -/
theorem Reached.taken {setup : Setup} {text : Text} {reader : Reader}
    (reached : Reached setup text reader) :
    Line.Taken text reader.offset (reader.line + 1) reader.unread := by
  obtain ⟨read, passed⟩ := reached.tracks.passed
  have laid : Line.Laid (reader.line + 1) reader.unread := by
    have whole := Line.laid_split text
    rw [passed.split] at whole
    have left := whole.drop
    rwa [passed.line, Nat.add_comm]
  have spell := Line.flatMap_raw_split text
  rw [passed.split, List.flatMap_append] at spell
  have taken := laid.taken (read.flatMap Line.raw)
  rwa [spell, ← passed.offset] at taken

theorem reached_later (setup : Setup) (text : Text) (count : Nat) :
    Reached setup text ((start setup text).later count) := by
  induction count with
  | zero =>
      have fresh : Reached setup text ((start setup []).restart text) := Reached.start.restart text
      rwa [restart_start] at fresh
  | succ count ih =>
      rw [later_succ]
      exact ih.next

end Reader

def finalAnswer (setup : Setup) (text : Text) : Except LexError Token :=
  match ((Mode.initial setup).through setup (Line.split text)).opened with
  | some opening => .error (.unterminatedDocString opening.location.line)
  | none => .ok ⟨.eof, [], text.finish⟩

theorem Reader.lastAnswer_start (setup : Setup) (text : Text) :
    (start setup text).lastAnswer = finalAnswer setup text := by
  rw [finalAnswer, ← Line.finish_split]
  rfl

/-- A reader that is given a document answers as if line after line were read on its own, each in the
mode that the one before leaves: with the tokens of a line, or with the one error that it holds, and
after all lines with the same answer for ever. The lines are those taken one after another by byte
offset. They are numbered from one and spell the document, and at every moment the offset of the reader
is where the next of them begins. Once the last answer has been given, further calls change nothing. -/
theorem streaming (setup : Setup) (text : Text) :
    (∀ calls : List Reader.Call,
      ((Reader.start setup []).after calls).restart text = Reader.start setup text) ∧
    (∀ lines, Line.Taken text 0 1 lines ↔ lines = Line.split text) ∧
    Line.Consecutive 1 (Line.split text) ∧ (Line.split text).flatMap Line.raw = text ∧
    (∀ (mode : Mode) (line : Line),
      (∃ tokens : List Token, mode.answers setup line = tokens.map .ok ∧
        ∀ token ∈ tokens, token.location.line = line.number) ∨
      ∃ error, mode.answers setup line = [.error error] ∧ error.line = line.number) ∧
    (∀ count, ((Reader.start setup text).later count).next.1 =
      ((Mode.initial setup).answersThrough setup (Line.split text))[count]?.getD
        (finalAnswer setup text)) ∧
    (∀ count, ((Mode.initial setup).answersThrough setup (Line.split text)).length ≤ count →
      ((Reader.start setup text).later (count + 1)).next.2 =
        (Reader.start setup text).later (count + 1)) ∧
    ∀ count, Line.Taken text ((Reader.start setup text).later count).offset
      (((Reader.start setup text).later count).line + 1)
      ((Reader.start setup text).later count).unread := by
  refine ⟨?_, fun lines => Line.taken_split_iff, Line.consecutive_split text,
    Line.flatMap_raw_split text, Mode.answers_cases setup, ?_, ?_, ?_⟩
  · intro calls
    rw [(Reader.reached_after setup calls).restart_eq text, Reader.restart_start]
  · intro count
    rw [Reader.answer_later, Reader.lastAnswer_start]
    rfl
  · intro count past
    exact Reader.later_of_length_le _ past
  · intro count
    exact (Reader.reached_later setup text count).taken

def raggedText : Text :=
  "# \u00fc\r\n|a\n\nFeature: f\n\"\"\"\nx".toList

theorem streaming_raggedText :
    ((Reader.start .standard raggedText).later 1).next.1 = .error (.unterminatedTableRow 2) ∧
    ((Reader.start .standard raggedText).later 4).next.1 =
      .ok ⟨.docStringLine, ['x'], ⟨6, 1⟩⟩ ∧
    (∀ count, 5 ≤ count → ((Reader.start .standard raggedText).later count).next.1 =
      .error (.unterminatedDocString 5)) ∧
    (∀ count, 5 ≤ count → ((Reader.start .standard raggedText).later (count + 1)).next.2 =
      (Reader.start .standard raggedText).later (count + 1)) := by
  obtain ⟨_, _, _, _, _, answers, still, _⟩ := streaming .standard raggedText
  have length : ((Mode.initial .standard).answersThrough .standard
      (Line.split raggedText)).length = 5 := by decide +kernel
  refine ⟨?_, ?_, ?_, ?_⟩
  · rw [answers]
    decide +kernel
  · rw [answers]
    decide +kernel
  · intro count past
    rw [answers, List.getElem?_eq_none (by omega), Option.getD_none]
    decide +kernel
  · intro count past
    exact still count (by omega)

end Gherkin
