import Gherkin.Keyword

/-!
Tokens and where they stand.

A position is a line and a column, both counted from one. A token is a stretch of a document, but the
lines of a doc string all bear the column of the delimiter that opened it.
-/

namespace Gherkin

/-- Line zero marks what no document holds. -/
structure Location where
  line : Nat
  column : Nat
  deriving DecidableEq

namespace Location

def shift (location : Location) (count : Nat) : Location :=
  { location with column := location.column + count }

def label (location : Location) : String :=
  "line " ++ toString location.line ++ ", column " ++ toString location.column

end Location

inductive TokenKind where
  /-- A block keyword with its colon. -/
  | block (keyword : BlockKeyword)
  /-- A step keyword with the white space character that sets it off, if its spelling needs one. -/
  | step
  /-- What follows a keyword on its line. -/
  | name
  /-- A line of free text. -/
  | descriptionLine
  /-- A whole line of a doc string, with its line break. -/
  | docStringLine
  /-- A tag with its `@`. -/
  | tag
  /-- A cell border. All but the first of a row own the padding after them. -/
  | pipe
  /-- What stands between two cell borders, escapes included. -/
  | cell
  /-- The end of a tag line or table row. -/
  | eol
  /-- A comment line. -/
  | comment
  /-- The end of the document. -/
  | eof
  deriving DecidableEq

namespace TokenKind

def all : List TokenKind :=
  BlockKeyword.all.map block ++
    [step, name, descriptionLine, docStringLine, tag, pipe, cell, eol, comment, eof]

def label : TokenKind → String
  | block .scenarioOutline => "ScenarioOutline"
  | block keyword => keyword.title
  | step => "Step"
  | name => "Name"
  | descriptionLine => "DescriptionLine"
  | docStringLine => "DocStringLine"
  | tag => "Tag"
  | pipe => "Pipe"
  | cell => "Cell"
  | eol => "Eol"
  | comment => "Comment"
  | eof => "Eof"

def describe : TokenKind → String
  | block keyword => "`" ++ keyword.title ++ ":`"
  | step => "a step"
  | name => "a name"
  | descriptionLine => "a description line"
  | docStringLine => "a doc string"
  | tag => "a tag"
  | pipe => "`|`"
  | cell => "a table cell"
  | eol => "end of line"
  | comment => "a comment"
  | eof => "end of input"

end TokenKind

structure Token where
  kind : TokenKind
  text : Text
  location : Location
  deriving DecidableEq

namespace Token

/-- The token as error messages speak of it: its text where the text helps, else its kind. -/
def describe (token : Token) : String :=
  match token.kind with
  | .eof | .eol | .docStringLine => token.kind.describe
  | .name | .descriptionLine | .cell | .tag | .comment =>
      token.kind.describe ++ " `" ++ String.ofList token.text ++ "`"
  | .block _ | .step | .pipe => "`" ++ String.ofList token.text.trimEnd ++ "`"

end Token

end Gherkin
