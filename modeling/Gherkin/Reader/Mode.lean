import Gherkin.Line.Tokens
import Gherkin.Setup

/-!
Reading a line.

`Mode` is everything that earlier lines decide about how the next one is read: the dialect in
force, whether a language header can still come, and the doc strings seen so far. `Mode.read`
takes a line to its tokens, or to the error it holds, and to the mode for the line after it.
-/

namespace Gherkin

structure Mode where
  language : Text
  dialect : Dialect
  /-- So far the document has had blank lines and comments only. -/
  headerAllowed : Bool
  /-- The doc strings that have been closed, in document order. -/
  closed : List Block
  /-- The doc string the next line belongs to. -/
  opened : Option Opening
  deriving DecidableEq

namespace Mode

def initial (setup : Setup) : Mode where
  language := setup.settings.language
  dialect := setup.dialect
  headerAllowed := true
  closed := []
  opened := none

/-- The mode for the first line of another document. A dialect that a header has selected gives way
to the one of the set-up; one of the same language can stay. -/
def reset (setup : Setup) (mode : Mode) : Mode :=
  let cleared := { mode with headerAllowed := true, closed := [], opened := none }
  if mode.language = setup.settings.language then cleared
  else { cleared with language := setup.settings.language, dialect := setup.dialect }

theorem reset_initial (setup : Setup) : (initial setup).reset setup = initial setup :=
  if_pos rfl

def blocks (mode : Mode) : List Block :=
  mode.closed ++ (mode.opened.map fun opening => ⟨opening, none⟩).toList

theorem mem_blocks {mode : Mode} {block : Block} : block ∈ mode.blocks ↔
    block ∈ mode.closed ∨ ∃ opening, mode.opened = some opening ∧ block = ⟨opening, none⟩ := by
  cases opened : mode.opened <;> simp [blocks, opened]

/-- Reads a line inside a doc string. The delimiter that opened it closes it, and any other line
is taken as it stands. -/
def readVerbatim (mode : Mode) (opening : Opening) (line : Line) : List Token × Mode :=
  if opening.delimiter.fills line.body then
    ([], { mode with
      closed := mode.closed ++ [⟨opening, some line.number⟩]
      opened := none })
  else
    ([⟨.docStringLine, line.raw, ⟨line.number, opening.location.column⟩⟩], mode)

def header? (mode : Mode) (line : Line) : Option Text :=
  if mode.headerAllowed then Line.headerLanguage? line.content.trim else none

/-- Reads a comment line. A header for a language without a dialect is an error and changes
nothing. -/
def readComment (mode : Mode) (registry : Registry) (line : Line) :
    Except LexError (List Token) × Mode :=
  match mode.header? line with
  | none => (.ok [line.commentToken], mode)
  | some language =>
      match registry.find? language with
      | none => (.error (.unknownLanguage line.number language), mode)
      | some dialect => (.ok [line.commentToken], { mode with language, dialect })

/-- Reads a line outside doc strings. The first line with content ends the headers, even if it
holds an error. -/
def readShaped (mode : Mode) (registry : Registry) (line : Line) :
    Shape → Except LexError (List Token) × Mode
  | .blank => (.ok [], mode)
  | .comment => mode.readComment registry line
  | .delimiter delimiter =>
      (.ok [], { mode with headerAllowed := false, opened := some ⟨delimiter, line.start⟩ })
  | shape => (line.tokens shape, { mode with headerAllowed := false })

def read (setup : Setup) (mode : Mode) (line : Line) : Except LexError (List Token) × Mode :=
  match mode.opened with
  | some opening =>
      let (tokens, mode) := mode.readVerbatim opening line
      (.ok tokens, mode)
  | none =>
      mode.readShaped setup.registry line (line.shape setup.settings.fenced mode.dialect)

end Mode

/-! A condition is what a reader is in the middle of. Conditions lie inside one another with the
initial one outermost, so they form a stack. Reading a line can enter a condition, and so a tag
line or a row is entered when it is read and left only when its end is handed out. -/

inductive Condition where
  | initial
  | tags
  | docString
  | table
  deriving DecidableEq

namespace Condition

def all : List Condition :=
  [initial, tags, docString, table]

def label : Condition → String
  | initial => "INITIAL"
  | tags => "TAGS"
  | docString => "DOC_STRING"
  | table => "TABLE"

end Condition

structure ConditionStack where
  conditions : List Condition
  deriving DecidableEq

namespace ConditionStack

def bottom : ConditionStack :=
  ⟨[.initial]⟩

def reset (stack : ConditionStack) : ConditionStack :=
  ⟨stack.conditions.take 1⟩

def enter (stack : ConditionStack) (condition : Condition) : ConditionStack :=
  ⟨stack.conditions ++ [condition]⟩

def top (stack : ConditionStack) : Condition :=
  stack.conditions.getLast?.getD .initial

/-- Leaves the innermost condition if it is the given one. The initial one is never left. -/
def leave (stack : ConditionStack) (condition : Condition) : ConditionStack :=
  if condition ≠ .initial ∧ stack.top = condition then ⟨stack.conditions.dropLast⟩ else stack

/-- The stack when a line has been read that led from one mode to another, and none of its tokens
has been handed out. -/
def afterLine (stack : ConditionStack) (before after : Mode) (tokens : List Token) :
    ConditionStack :=
  match before.opened, after.opened with
  | none, some _ => stack.enter .docString
  | some _, none => stack.leave .docString
  | _, _ =>
      match tokens with
      | ⟨.tag, _, _⟩ :: _ => stack.enter .tags
      | ⟨.pipe, _, _⟩ :: _ => stack.enter .table
      | _ => stack

def afterToken (stack : ConditionStack) (token : Token) : ConditionStack :=
  if token.kind = .eol then
    if stack.top = .tags then stack.leave .tags else stack.leave .table
  else stack

end ConditionStack

end Gherkin
