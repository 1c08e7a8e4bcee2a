import Gherkin.Feature.Basic
import Gherkin.Grammar.Cursor

/-!
Step arguments.

Tables are made of border and cell tokens. A doc string that holds no line leaves no token, so
the grammar asks the reader which blocks it has met between a step and the token after it.
-/

namespace Gherkin

namespace TableCell

/-- Resolves the escapes of a cell. A backslash before any other character stays. -/
def unescape : Text → Text
  | '\\' :: '|' :: rest => '|' :: unescape rest
  | '\\' :: '\\' :: rest => '\\' :: unescape rest
  | '\\' :: 'n' :: rest => '\n' :: unescape rest
  | '\\' :: c :: rest => '\\' :: c :: unescape rest
  | c :: rest => c :: unescape rest
  | [] => []

/-- The cell that a raw text spells. Only spaces and tabs are padding. -/
def ofToken (token : Token) : TableCell where
  value := unescape (Text.dropTrailing Text.isBlank (token.text.dropWhile Text.isBlank))
  location := token.location.shift (token.text.takeWhile Text.isBlank).length

end TableCell

def DocString.unindent : Nat → Text → Text
  | 0, text => text
  | _ + 1, [] => []
  | count + 1, c :: rest => if Text.isBlank c then unindent count rest else c :: rest

namespace Parse

/-- One cell and the border behind it. The border in front of the cell stands at `border`. -/
def cell (border : Location) : Parse (Option (TableCell × Location)) := do
  let raw ← takeIf .cell
  let token ← advance
  match token.kind with
  | .pipe => return some ((raw.map TableCell.ofToken).getD ⟨[], border⟩, token.location)
  | .eol => return none
  | _ => unexpected token "a table cell or `|`"

def row (width : Option Nat) : Parse (Option (TableRow × Option Nat)) := do
  match ← takeIf .pipe with
  | none => return none
  | some border =>
      let cells ← collect cell border.location
      if width.getD cells.length = cells.length then
        return some (⟨cells, border.location⟩, some cells.length)
      else
        throw (.grammar ⟨border.location,
          "a row of " ++ toString (width.getD cells.length) ++ " cells",
          toString cells.length ++ " cells"⟩)

def table : Parse DataTable := do
  let rows ← collect row none
  return ⟨rows, (rows.head?.map (·.location)).getD ⟨0, 0⟩⟩

/-- One more line of a doc string. A line past the closing delimiter belongs to another one. -/
def docStringLine (block : Block) (indent : Nat) : Parse (Option Text) := do
  let token ← peek
  let closing := ((← reader).blockAt? block.location.line).bind (·.closingLine)
  if token.kind = .docStringLine ∧ ∀ line ∈ closing, token.location.line ≤ line then
    return some (DocString.unindent indent (← advance).text)
  else
    return none

def docString (block : Block) : Parse DocString := do
  let indent := block.location.column - 1
  let lines ← many (docStringLine block indent)
  return ⟨lines, block.delimiter.text, indent, block.location⟩

def argument (line : Nat) : Parse (Option StepArgument) := do
  let token ← peek
  match (← reader).blockOpenedIn? (line + 1) token.location.line with
  | some block => return some (.docString (← docString block))
  | none =>
      if token.kind = .pipe then
        return some (.dataTable (← table))
      else
        return none

end Parse

end Gherkin
