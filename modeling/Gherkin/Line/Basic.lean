import Gherkin.Token

/-!
Lines.

A document splits into lines after each line feed. A carriage return right before the line feed
belongs to the line break; anywhere else it is a character like any other. Two kinds of lines
matter for those that come after them: the delimiters of doc strings, and comments of the form
`# language: code`, with any white space around the parts.
-/

namespace Gherkin

inductive LineBreak where
  | none
  | lf
  | crlf
  deriving DecidableEq

def LineBreak.text : LineBreak → Text
  | none => []
  | lf => ['\n']
  | crlf => ['\r', '\n']

structure Line where
  number : Nat
  /-- The line without its break. -/
  content : Text
  /-- Only the last line of a document can lack a break. -/
  ending : LineBreak
  deriving DecidableEq

namespace Line

def raw (line : Line) : Text :=
  line.content ++ line.ending.text

def body (line : Line) : Text :=
  line.content.trimStart

def start (line : Line) : Location :=
  ⟨line.number, line.content.indentation + 1⟩

/-- Splits a text whose first line has the given number. A character that ends no line joins the
line that the text after it begins with. -/
def splitFrom (number : Nat) : Text → List Line
  | [] => []
  | '\r' :: '\n' :: rest => ⟨number, [], .crlf⟩ :: splitFrom (number + 1) rest
  | '\n' :: rest => ⟨number, [], .lf⟩ :: splitFrom (number + 1) rest
  | c :: rest =>
      match splitFrom number rest with
      | [] => [⟨number, [c], .none⟩]
      | line :: more => { line with content := c :: line.content } :: more

def split (text : Text) : List Line :=
  splitFrom 1 text

theorem flatMap_raw_splitFrom (number : Nat) (text : Text) :
    (splitFrom number text).flatMap raw = text := by
  fun_induction splitFrom number text with
  | case1 => rfl
  | case2 number rest ih => simp [raw, LineBreak.text, ih]
  | case3 number rest ih => simp [raw, LineBreak.text, ih]
  | case4 number c rest _ _ empty ih =>
      rw [empty] at ih
      simp [raw, LineBreak.text, ← ih]
  | case5 number c rest _ _ line more found ih =>
      rw [found] at ih
      simp [raw, ← ih]

/-- The lines of a text put together are the text. -/
theorem flatMap_raw_split (text : Text) : (split text).flatMap raw = text :=
  flatMap_raw_splitFrom 1 text

/-- No more tokens than this stand on some lines: a line has at most one for each of its
characters and one for its end. -/
def capacity : List Line → Nat
  | [] => 0
  | line :: rest => line.content.length + 1 + capacity rest

def finish (lines : List Line) : Location :=
  match lines.getLast? with
  | none => ⟨1, 1⟩
  | some line =>
      match line.ending with
      | .none => ⟨line.number, line.content.length + 1⟩
      | _ => ⟨line.number + 1, 1⟩

end Line

inductive Delimiter where
  | quotes
  | fence
  deriving DecidableEq

namespace Delimiter

def text : Delimiter → Text
  | quotes => ['"', '"', '"']
  | fence => ['\x60', '\x60', '\x60']

def fills (delimiter : Delimiter) (body : Text) : Bool :=
  match delimiter.text.isPrefixOf? body with
  | some rest => rest.all Text.isSpace
  | none => false

/-- The delimiter that opens a doc string on a line. Fences count only where they are enabled. -/
def opening? (fenced : Bool) (body : Text) : Option Delimiter :=
  if quotes.fills body then some quotes
  else if fenced && fence.fills body then some fence
  else none

end Delimiter

structure Opening where
  delimiter : Delimiter
  location : Location
  deriving DecidableEq

/-- A doc string as far as it has been read. -/
structure Block extends Opening where
  /-- Line of the closing delimiter, once it has been read. -/
  closingLine : Option Nat
  deriving DecidableEq

namespace Line

def isCodeCharacter (c : Char) : Bool :=
  c.isAlphanum || c = '-' || c = '_'

/-- What follows a word that a text starts with, less the white space after the word. -/
def skip? (word : String) (text : Text) : Option Text :=
  (word.toList.isPrefixOf? text).map Text.trimStart

def headerLanguage? (comment : Text) : Option Text := do
  let rest ← skip? "#" comment
  let rest ← skip? "language" rest
  let rest ← skip? ":" rest
  let code := rest.takeWhile isCodeCharacter
  let rest := rest.dropWhile isCodeCharacter
  if code ≠ [] ∧ rest.all Text.isSpace then some code else none

end Line

end Gherkin
