import Gherkin.Dialect.Table
import Gherkin.Error
import Gherkin.Line.Basic

/-!
The tokens of a line.

Outside doc strings the first characters of a line decide what it is; only keywords depend on the
dialect. A line that is nothing else is a line of description.

A row falls into borders and cells. The opening border is a bare pipe; every later one also owns
the run of spaces and tabs after it, so padding in front of a cell belongs to the border and
padding behind it to the cell. In a cell a backslash takes the next character out of the reckoning,
so an escaped pipe is no border. A row whose last part is a cell was never closed.
-/

namespace Gherkin

namespace Row

structure Part where
  kind : TokenKind
  text : Text
  deriving DecidableEq

inductive State where
  | opening
  | border
  | cell (escaped : Bool)

namespace State

/-- Whether the current part goes on with this character. -/
def takes : State → Char → Bool
  | opening, _ => false
  | border, c => Text.isBlank c
  | cell escaped, c => escaped || c ≠ '|'

def next : State → Char → State
  | cell escaped, c => cell (!escaped && c = '\\')
  | state, _ => state

def enter (c : Char) : State :=
  if c = '|' then border else cell (c = '\\')

end State

def kindOf (c : Char) : TokenKind :=
  if c = '|' then .pipe else .cell

/-- Splits what follows into the rest of the current part and the parts after it. -/
def scan (state : State) : Text → Text × List Part
  | [] => ([], [])
  | c :: rest =>
      if state.takes c then
        let (text, parts) := scan (state.next c) rest
        (c :: text, parts)
      else
        let (text, parts) := scan (State.enter c) rest
        ([], ⟨kindOf c, c :: text⟩ :: parts)

def parts (row : Text) : List Part :=
  (scan .opening row).2

theorem text_scan (state : State) (text : Text) :
    (scan state text).1 ++ (scan state text).2.flatMap (·.text) = text := by
  induction text generalizing state with
  | nil => rfl
  | cons c rest ih =>
      rw [scan]
      split
      · simpa using ih (state.next c)
      · simpa using ih (State.enter c)

/-- The parts of a row put together are the row. -/
theorem flatMap_text_parts (row : Text) : (parts row).flatMap (·.text) = row := by
  have whole := text_scan .opening row
  cases row with
  | nil => rfl
  | cons c rest => simpa [parts, scan, State.takes] using whole

def layout (location : Location) : List Part → List Token
  | [] => []
  | part :: rest =>
      ⟨part.kind, part.text, location⟩ :: layout (location.shift part.text.length) rest

/-- The tokens of a row whose opening border stands at `start`. Its end is a token too, and
holds the text that ends the line. -/
def tokens (start : Location) (ending : Text) : Text → Except LexError (List Token)
  | '|' :: rest =>
      match (parts rest).getLast? with
      | some ⟨.cell, _⟩ => .error (.unterminatedTableRow start.line)
      | _ => .ok (layout start (⟨.pipe, ['|']⟩ :: parts rest ++ [⟨.eol, ending⟩]))
  | _ => .error (.unterminatedTableRow start.line)

end Row

/-! A tag line splits into words at white space. A word that begins with `#` starts a comment, which
runs to the end of the line. Every word before it must be a tag. -/

namespace Line

def isTag : Text → Bool
  | '@' :: name => !name.isEmpty && !name.contains '@'
  | _ => false

def startsComment (word : Text.Word) : Bool :=
  word.text.head? = some '#'

/-- The words of a line up to a comment. Their offsets are columns. -/
def tagWords (line : Line) : List Text.Word :=
  (Text.wordsFrom 1 line.content).takeWhile fun word => !startsComment word

def columnAfter (line : Line) (words : List Text.Word) : Nat :=
  match words.getLast? with
  | none => line.start.column
  | some word => word.offset + word.text.length

/-- One token per tag and one for the end of the line, which holds the line break and stands
right after the last tag. The first word that is no tag is an error. -/
def tagTokens (line : Line) : Except LexError (List Token) :=
  match line.tagWords.find? fun word => !isTag word.text with
  | some word => .error (.illegalTag ⟨line.number, word.offset⟩ word.text)
  | none =>
      let tags := line.tagWords.map fun word => ⟨.tag, word.text, ⟨line.number, word.offset⟩⟩
      .ok (tags ++ [⟨.eol, line.ending.text, ⟨line.number, line.columnAfter line.tagWords⟩⟩])

end Line

inductive Shape where
  | blank
  | comment
  | delimiter (delimiter : Delimiter)
  | row
  | tags
  | block (surface : BlockSurface)
  | step (surface : StepSurface)
  | description
  deriving DecidableEq

namespace Line

def keywordShape (dialect : Dialect) (body : Text) : Shape :=
  match dialect.block? body with
  | some surface => .block surface
  | none =>
      match dialect.step? body with
      | some surface => .step surface
      | none => .description

def shape (fenced : Bool) (dialect : Dialect) (line : Line) : Shape :=
  match line.body with
  | [] => .blank
  | c :: rest =>
      if c = '#' then .comment
      else
        match Delimiter.opening? fenced (c :: rest) with
        | some delimiter => .delimiter delimiter
        | none =>
            if c = '|' then .row
            else if c = '@' then .tags
            else keywordShape dialect (c :: rest)

/-- The name after a keyword, without the white space around it. A keyword may stand alone. -/
def nameTokens (location : Location) (rest : Text) : List Token :=
  if rest.trim = [] then []
  else [⟨.name, rest.trim, location.shift rest.indentation⟩]

def keywordTokens (line : Line) (kind : TokenKind) (width : Nat) : List Token :=
  ⟨kind, line.body.take width, line.start⟩ ::
    nameTokens (line.start.shift width) (line.body.drop width)

def commentToken (line : Line) : Token :=
  ⟨.comment, line.content.trim, line.start⟩

def tokens (line : Line) : Shape → Except LexError (List Token)
  | .blank => .ok []
  | .comment => .ok [line.commentToken]
  | .delimiter _ => .ok []
  | .row => Row.tokens line.start line.ending.text line.body
  | .tags => line.tagTokens
  | .block surface => .ok (line.keywordTokens (.block surface.keyword) surface.width)
  | .step surface => .ok (line.keywordTokens .step surface.width)
  | .description => .ok [⟨.descriptionLine, line.body, line.start⟩]

end Line

end Gherkin
