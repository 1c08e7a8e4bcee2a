import Gherkin.Token

/-!
What can go wrong with a document.

Every stage stops at its first error. An error is a value that holds the position and the cause;
`message` puts it into words.
-/

namespace Gherkin

inductive LexError where
  /-- The document ends inside a doc string that was opened on this line. -/
  | unterminatedDocString (line : Nat)
  /-- A table row does not end with a cell border. -/
  | unterminatedTableRow (line : Nat)
  /-- A word on a tag line is no tag. -/
  | illegalTag (location : Location) (found : Text)
  /-- A language without a dialect, named on this line, or by the settings if the line is zero. -/
  | unknownLanguage (line : Nat) (language : Text)
  deriving DecidableEq

namespace LexError

def line : LexError → Nat
  | unterminatedDocString line => line
  | unterminatedTableRow line => line
  | illegalTag location _ => location.line
  | unknownLanguage line _ => line

def column? : LexError → Option Nat
  | illegalTag location _ => some location.column
  | _ => none

def message : LexError → String
  | unterminatedDocString line =>
      "line " ++ toString line ++ ": doc string opened here is never closed"
  | unterminatedTableRow line =>
      "line " ++ toString line ++ ": table row is missing its closing `|`"
  | illegalTag location found =>
      location.label ++ ": expected a tag, found `" ++ String.ofList found ++ "`"
  | unknownLanguage line language =>
      "line " ++ toString line ++ ": unknown language `" ++ String.ofList language ++ "`"

end LexError

structure SyntaxError where
  location : Location
  expected : String
  found : String
  deriving DecidableEq

def SyntaxError.message (error : SyntaxError) : String :=
  error.location.label ++ ": expected " ++ error.expected ++ ", found " ++ error.found

inductive ParseError where
  | lex (error : LexError)
  | grammar (error : SyntaxError)
  deriving DecidableEq

namespace ParseError

def line : ParseError → Nat
  | lex error => error.line
  | grammar error => error.location.line

def message : ParseError → String
  | lex error => error.message
  | grammar error => error.message

end ParseError

/-- A placeholder that its examples table has no column for. -/
structure CompileError where
  placeholder : Text
  location : Location
  /-- The columns the table has. -/
  columns : List Text
  deriving DecidableEq

def CompileError.message (error : CompileError) : String :=
  error.location.label ++ ": placeholder '<" ++ String.ofList error.placeholder ++
    ">' not found in Examples table. Available columns: [" ++
    String.ofList (Text.join ", ".toList error.columns) ++ "]"

inductive Error where
  | parse (error : ParseError)
  | compile (error : CompileError)
  deriving DecidableEq

namespace Error

def line : Error → Nat
  | parse error => error.line
  | compile error => error.location.line

def message : Error → String
  | parse error => error.message
  | compile error => error.message

end Error

end Gherkin
