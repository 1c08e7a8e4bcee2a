import Gherkin.Dialect.Builtin
import Gherkin.Error

/-!
What a reader is set up with: a registry, settings, and the dialect that the settings select.

Settings come from named variables or from the caller. A variable that holds nothing usable is an
error, and one that is absent leaves the default.
-/

namespace Gherkin

structure Settings where
  /-- Language of documents that name none. -/
  language : Text := defaultLanguage
  /-- Whether three backticks delimit doc strings as three quotes do. -/
  fenced : Bool := true
  deriving DecidableEq

inductive SettingsError where
  | emptyLanguage
  | illegalFlag (value : Text)
  deriving DecidableEq

namespace Settings

def languageVariable : String := "PICKLES_LANGUAGE"

def fencedVariable : String := "PICKLES_FENCED_DOC_STRINGS"

def trueWords : List String :=
  ["1", "true", "TRUE", "True", "yes", "YES", "Yes", "on", "ON", "On"]

def falseWords : List String :=
  ["0", "false", "FALSE", "False", "no", "NO", "No", "off", "OFF", "Off"]

def flag? (value : Text) : Option Bool :=
  if (trueWords.map String.toList).contains value.trim then some true
  else if (falseWords.map String.toList).contains value.trim then some false
  else none

/-- The language a variable sets. It may not be blank. -/
def readLanguage : Option Text → Except SettingsError Text
  | none => .ok defaultLanguage
  | some value => if value.trim = [] then .error .emptyLanguage else .ok value.trim

def readFenced : Option Text → Except SettingsError Bool
  | none => .ok true
  | some value =>
      match flag? value with
      | some flag => .ok flag
      | none => .error (.illegalFlag value)

def ofVariables (lookup : String → Option Text) : Except SettingsError Settings := do
  let language ← readLanguage (lookup languageVariable)
  let fenced ← readFenced (lookup fencedVariable)
  return { language, fenced }

def override (settings : Settings) (language : Option Text) (fenced : Option Bool) : Settings where
  language := language.getD settings.language
  fenced := fenced.getD settings.fenced

end Settings

namespace SettingsError

def reason : SettingsError → String
  | emptyLanguage => Settings.languageVariable ++ " must not be empty"
  | illegalFlag value =>
      "invalid " ++ Settings.fencedVariable ++ " value '" ++ String.ofList value ++
        "', expected true or false"

def message (error : SettingsError) : String :=
  "invalid configuration: " ++ error.reason

end SettingsError

structure Setup where
  registry : Registry
  settings : Settings
  /-- Dialect of documents that name no language. -/
  dialect : Dialect
  known : registry.find? settings.language = some dialect

namespace Setup

def make (registry : Registry) (settings : Settings) : Except LexError Setup :=
  match known : registry.find? settings.language with
  | some dialect => .ok { registry, settings, dialect, known }
  | none => .error (.unknownLanguage 0 settings.language)

def standard : Setup where
  registry := .builtin
  settings := {}
  dialect := .english
  known := Registry.find?_builtin_default

end Setup

end Gherkin
