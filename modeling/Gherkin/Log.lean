import Gherkin.Grammar.Document
import Gherkin.TestCase

/-!
Log records.

Logging is kept apart from the work. `Reader.journal` is all that a reader would still log if it
were run to the end of its document through all errors, so what a run has logged is the journal
at its start less the journal at its end.
-/

namespace Gherkin

inductive Level where
  | debug
  | trace
  deriving DecidableEq

def Level.label : Level → String
  | .debug => "DEBUG"
  | .trace => "TRACE"

structure Record where
  level : Level
  message : String
  deriving DecidableEq

namespace Record

def ofToken (token : Token) : Record where
  level := .trace
  message := "token " ++ token.kind.label ++ " " ++ String.ofList token.text.quoted ++ " at " ++
    toString token.location.line ++ ":" ++ toString token.location.column

def ofHeader (line : Line) (language : Text) : Record where
  level := .debug
  message := "line " ++ toString line.number ++ ": switching to dialect `" ++
    String.ofList language ++ "`"

def ofFeature (feature : Feature) : Record where
  level := .debug
  message := "parsed feature `" ++ String.ofList feature.name ++ "`: " ++
    toString feature.children.length ++ " definitions, " ++
    toString feature.rules.length ++ " rules"

def ofTestCases (feature : Feature) (cases : List TestCase) : Record where
  level := .debug
  message := "compiled feature `" ++ String.ofList feature.name ++ "` into " ++
    toString cases.length ++ " units"

end Record

namespace Mode

/-- The language that reading a line selects, also when it is the one in force. -/
def selects? (setup : Setup) (mode : Mode) (line : Line) : Option Text :=
  if mode.opened.isSome then none
  else (mode.header? line).filter fun language => (setup.registry.find? language).isSome

def journal (setup : Setup) (mode : Mode) : List Line → List Record
  | [] => []
  | line :: rest =>
      let (result, after) := mode.read setup line
      let header := ((mode.selects? setup line).map (Record.ofHeader line)).toList
      let tokens := (result.toOption.getD []).map Record.ofToken
      header ++ tokens ++ after.journal setup rest

end Mode

namespace Reader

/-- All that is still to be logged. The end of a document is not. -/
def journal (reader : Reader) : List Record :=
  reader.queue.map Record.ofToken ++ reader.mode.journal reader.setup reader.unread

def logged (before after : Reader) : List Record :=
  before.journal.take (before.journal.length - after.journal.length)

def tokenizeLog (reader : Reader) (text : Text) : List Record :=
  logged (reader.restart text) (reader.tokenize text).2

def parseLog (reader : Reader) (text : Text) : List Record :=
  let (result, after) := reader.parse text
  logged (reader.restart text) after ++ (result.toOption.map Record.ofFeature).toList

end Reader

def Feature.compileLog (feature : Feature) : List Record :=
  (feature.compile.toOption.map (Record.ofTestCases feature)).toList

end Gherkin
