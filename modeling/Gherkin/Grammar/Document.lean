import Gherkin.Grammar.Argument

/-!
The grammar of documents.

A document is a feature: tags, a heading, perhaps a background, definitions, and then rules, which
hold the same again. What comes next is decided by the first keyword after any tag lines. The first
token that does not fit ends the parse.
-/

namespace Gherkin

namespace TableRow

def repeatedAfter? (seen : List Text) : List TableCell → Option TableCell
  | [] => none
  | cell :: rest =>
      if seen.contains cell.value then some cell else repeatedAfter? (cell.value :: seen) rest

def repeated? (row : TableRow) : Option TableCell :=
  repeatedAfter? [] row.cells

end TableRow

namespace Token

def keywordText (token : Token) : Text :=
  if token.text.getLast? = some ':' then token.text.dropLast else token.text

end Token

namespace Parse

/-- A tag and, if it is the last of its line, the end of the line. -/
def tag : Parse (Option Tag) := do
  match ← takeIf .tag with
  | none => return none
  | some token =>
      let _ ← takeIf .eol
      return some ⟨token.text, token.location⟩

def tags : Parse (List Tag) :=
  many tag

def descriptionLine : Parse (Option Text) := do
  return (← takeIf .descriptionLine).map (·.text)

def optionalName : Parse Text := do
  return ((← takeIf .name).map (·.text)).getD []

def heading (keyword : BlockKeyword) (name : Parse Text) : Parse Heading := do
  let token ← expect (.block keyword) (TokenKind.block keyword).describe
  let name ← name
  let description ← many descriptionLine
  return ⟨token.keywordText, name, description, token.location⟩

/-- A step after one of the given role, and the role the next step sees. -/
def step (previous : Option StepKeyword) : Parse (Option (Step × Option StepKeyword)) := do
  match ← takeIf .step with
  | none => return none
  | some token =>
      let keyword := (← reader).mode.dialect.stepKeyword? token.text
      match keyword.bind (·.resolve previous) with
      | none => unexpected token "a preceding Given, When or Then step"
      | some role =>
          let name ← expect .name "a step name"
          let argument ← argument token.location.line
          return some (⟨token.text, role, name.text, argument, token.location⟩, some role)

def steps : Parse (List Step) :=
  collect step none

/-- A background, which takes no tags. -/
def background : Parse (Option Background) := do
  if (← kindAfterTags) = .block .background then
    let token ← peek
    if token.kind = .tag then
      unexpected token "`Background:` without tags"
    else
      let heading ← heading .background optionalName
      return some { toHeading := heading, steps := ← steps }
  else
    return none

def scenario (keyword : BlockKeyword) : Parse Scenario := do
  let tags ← tags
  let heading ← heading keyword optionalName
  return { toHeading := heading, tags, steps := ← steps }

def examplesTable : Parse DataTable := do
  let token ← peek
  if token.kind = .pipe then
    let table ← table
    match table.rows.head?.bind (·.repeated?) with
    | none => return table
    | some cell =>
        throw (.grammar ⟨cell.location, "unique column names",
          "duplicate column `" ++ String.ofList cell.value ++ "`"⟩)
  else
    unexpected token "an examples table"

def examples : Parse (Option Examples) := do
  if (← kindAfterTags) = .block .examples then
    let tags ← tags
    let heading ← heading .examples optionalName
    return some { toHeading := heading, tags, table := ← examplesTable }
  else
    return none

def definition : Parse (Option Definition) := do
  match ← kindAfterTags with
  | .block .scenario => return some (.scenario (← scenario .scenario))
  | .block .scenarioOutline =>
      let scenario ← scenario .scenarioOutline
      return some (.outline { toScenario := scenario, examples := ← many examples })
  | _ => return none

def rule : Parse (Option Rule) := do
  if (← kindAfterTags) = .block .rule then
    let tags ← tags
    let heading ← heading .rule optionalName
    let background ← background
    return some { toHeading := heading, tags, background, children := ← many definition }
  else
    return none

def featureName : Parse Text := do
  return (← expect .name "a feature name").text

def feature : Parse Feature := do
  let tags ← tags
  let heading ← heading .feature featureName
  let background ← background
  let children ← many definition
  let rules ← many rule
  let _ ← expect .eof "`Scenario:`, `Scenario Outline:`, `Rule:` or end of input"
  return { toHeading := heading, tags, background, children, rules,
           language := (← reader).language }

end Parse

def Reader.parse (reader : Reader) (text : Text) : Except ParseError Feature × Reader :=
  let (result, cursor) := Parse.feature.run.run (.ofReader (reader.restart text))
  (result, cursor.reader)

def parse (setup : Setup) (text : Text) : Except ParseError Feature :=
  ((Reader.start setup []).parse text).1

end Gherkin
