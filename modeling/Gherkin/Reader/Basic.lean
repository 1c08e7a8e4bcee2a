import Gherkin.Reader.Mode

/-!
The reader.

A reader hands out the tokens of a document one at a time and reads a line only when the tokens
of the line before are gone. An error costs the reader the line that holds it and nothing else:
the next call goes on with the line after. At the end of the document every call gives the same
answer.
-/

namespace Gherkin

structure Reader where
  setup : Setup
  mode : Mode
  stack : ConditionStack
  /-- Tokens of the last line read that have not been handed out. -/
  queue : List Token
  /-- Number of lines read. -/
  line : Nat
  /-- Number of bytes in the lines read. -/
  offset : Nat
  unread : List Line
  /-- The position just past the document. -/
  finish : Location

namespace Reader

def start (setup : Setup) (text : Text) : Reader where
  setup := setup
  mode := .initial setup
  stack := .bottom
  queue := []
  line := 0
  offset := 0
  unread := Line.split text
  finish := Line.finish (Line.split text)

/-- Turns to another document. What the set-up fixes is kept, and everything else is set back. -/
def restart (reader : Reader) (text : Text) : Reader :=
  { reader with
    mode := reader.mode.reset reader.setup
    stack := reader.stack.reset
    queue := []
    line := 0
    offset := 0
    unread := Line.split text
    finish := Line.finish (Line.split text) }

theorem restart_start (setup : Setup) (before text : Text) :
    (start setup before).restart text = start setup text := by
  rw [restart, start, Mode.reset_initial]
  rfl

def ending (reader : Reader) : Except LexError Token :=
  match reader.mode.opened with
  | some opening => .error (.unterminatedDocString opening.location.line)
  | none => .ok ⟨.eof, [], reader.finish⟩

def handOut (reader : Reader) (token : Token) (queue : List Token) : Reader :=
  { reader with queue, stack := reader.stack.afterToken token }

def passLine (reader : Reader) (line : Line) (mode : Mode) (tokens : List Token)
    (unread : List Line) : Reader :=
  { reader with
    mode
    stack := reader.stack.afterLine reader.mode mode tokens
    line := line.number
    offset := reader.offset + Text.bytes line.raw
    unread }

def pull (reader : Reader) : List Line → Except LexError Token × Reader
  | [] => (reader.ending, reader)
  | line :: unread =>
      match reader.mode.read reader.setup line with
      | (.error error, mode) => (.error error, reader.passLine line mode [] unread)
      | (.ok [], mode) => (reader.passLine line mode [] unread).pull unread
      | (.ok (token :: queue), mode) =>
          (.ok token, (reader.passLine line mode (token :: queue) unread).handOut token queue)

def next (reader : Reader) : Except LexError Token × Reader :=
  match reader.queue with
  | token :: queue => (.ok token, reader.handOut token queue)
  | [] => reader.pull reader.unread

/-- No more tokens than this come before the end of the document. -/
def size (reader : Reader) : Nat :=
  reader.queue.length + Line.capacity reader.unread

def drain : Nat → Reader → Except LexError (List Token) × Reader
  | 0, reader => (.ok [], reader)
  | fuel + 1, reader =>
      match reader.next with
      | (.error error, reader) => (.error error, reader)
      | (.ok token, reader) =>
          if token.kind = .eof then (.ok [token], reader)
          else
            let (tokens, reader) := drain fuel reader
            (tokens.map (token :: ·), reader)

def tokenize (reader : Reader) (text : Text) : Except LexError (List Token) × Reader :=
  let reader := reader.restart text
  drain (reader.size + 1) reader

def conditions (reader : Reader) : List Condition :=
  reader.stack.conditions

def language (reader : Reader) : Text :=
  reader.mode.language

/-- The doc string opened on a line, if the reader has reached it. -/
def blockAt? (reader : Reader) (line : Nat) : Option Block :=
  reader.mode.blocks.find? fun block => block.location.line = line

/-- The first doc string opened on a line from `first` on and before `stop`. -/
def blockOpenedIn? (reader : Reader) (first stop : Nat) : Option Block :=
  reader.mode.blocks.find? fun block => first ≤ block.location.line ∧ block.location.line < stop

end Reader

def tokenize (setup : Setup) (text : Text) : Except LexError (List Token) :=
  ((Reader.start setup []).tokenize text).1

end Gherkin
