import Gherkin.Grammar.Document
import Mathlib.Data.PFun

/-!
The grammar under watch.

The parsers of the grammar have fuel for their loops and an answer for everything that could come. The
watched ones go without. A loop goes on until a turn of it comes to a value, and comes to nothing if none
does. Lines are read one by one, tokens are looked up in the buffer by their place, and the cells of a row
are gathered with the last one waiting for its border. Whatever the grammar takes for granted about its
tokens is looked at, and where it does not hold the parser stops with an alarm.
-/

namespace Gherkin

/-- What the grammar takes for granted, found not to hold. -/
inductive Alarm where
  /-- The doc string that a line belongs to is not found under the line that opened it. -/
  | lostBlock
  /-- There is no token at a place that the buffer has been filled up to. -/
  | shortBuffer
  /-- There is no token to consume behind a look at the next one. -/
  | emptyBuffer
  /-- The end of a line is met elsewhere than behind a tag or border of its line. -/
  | strayEnd
  /-- A name is met elsewhere than behind a keyword of its line. -/
  | strayName
  /-- A look past tags passes the end of a line that is no tag line. -/
  | rowSkipped
  /-- A row goes on with something that is no cell, no border and no end of a line. -/
  | strayInRow
  /-- A cell comes while another waits for its border. -/
  | cellOverwritten
  deriving DecidableEq

inductive Halt where
  | fault (error : ParseError)
  | alarm (alarm : Alarm)

structure Stand where
  reader : Reader
  /-- Tokens that have been looked at and not consumed. -/
  ahead : List Token
  /-- The token that was consumed last. -/
  last : Option Token

def Stand.before (stand : Stand) (place : Nat) : Option Token :=
  (stand.last.toList ++ stand.ahead.take place).getLast?

/-- What a line yields. A line inside a doc string is read by the block that is found under the line
which opened it. -/
def Reader.readLine? (reader : Reader) (line : Line) : Option (Except LexError (List Token) × Mode) :=
  match reader.mode.opened with
  | none => some (reader.mode.read reader.setup line)
  | some opening =>
      (reader.blockAt? opening.location.line).map fun block =>
        let (tokens, mode) := reader.mode.readVerbatim block.toOpening line
        (.ok tokens, mode)

def Reader.enqueue (reader : Reader) (tokens : List Token) : Reader :=
  { reader with queue := tokens }

/-- A watched computation. It has no result if it goes on for ever. -/
abbrev Watch := ExceptT Halt (StateT Stand Option)

namespace Watch

variable {α β : Type}

def raise (alarm : Alarm) : Watch α :=
  throw (.alarm alarm)

def fail (error : ParseError) : Watch α :=
  throw (.fault error)

def afterTurn : Except Halt (β ⊕ α) × Stand → (Except Halt α × Stand) ⊕ (β × Stand)
  | (.error halt, stand) => .inl (.error halt, stand)
  | (.ok (.inr value), stand) => .inl (.ok value, stand)
  | (.ok (.inl next), stand) => .inr (next, stand)

def turns (turn : β → Watch (β ⊕ α)) : β × Stand →. (Except Halt α × Stand) ⊕ (β × Stand) :=
  fun start => Part.ofOption ((turn start.1 start.2).map afterTurn)

noncomputable section

open Classical in
/-- Takes turn after turn until one comes to a value. There is no bound on them, and if they go on for
ever there is no result. -/
def loop (turn : β → Watch (β ⊕ α)) (state : β) : Watch α := fun stand =>
  ((turns turn).fix (state, stand)).toOption

/-! The parsers below are those of the grammar under the same names. They differ where a loop or a look at a
token is concerned. -/

def seek (_ : Unit) : Watch (Unit ⊕ Token) := fun stand =>
  match stand.reader.queue, stand.reader.unread with
  | token :: queue, _ =>
      some (.ok (.inr token), { stand with reader := stand.reader.handOut token queue })
  | [], [] =>
      match stand.reader.ending with
      | .ok token => some (.ok (.inr token), stand)
      | .error error => some (.error (.fault (.lex error)), stand)
  | [], line :: unread =>
      match stand.reader.readLine? line with
      | none => some (.error (.alarm .lostBlock), stand)
      | some (.error error, mode) =>
          some (.error (.fault (.lex error)),
            { stand with reader := stand.reader.passLine line mode [] unread })
      | some (.ok tokens, mode) =>
          some (.ok (.inl ()),
            { stand with reader := (stand.reader.passLine line mode tokens unread).enqueue tokens })

def next : Watch Token :=
  loop seek ()

def fill (place : Nat) (_ : Unit) : Watch (Unit ⊕ Unit) := do
  if (← get).ahead.length ≤ place then
    let token ← next
    if token.kind ≠ .comment then
      modify fun stand => { stand with ahead := stand.ahead ++ [token] }
    return .inl ()
  else
    return .inr ()

def follows (kinds : TokenKind → Bool) (before : Option Token) (token : Token) : Bool :=
  before.any fun other => kinds other.kind && other.location.line == token.location.line

def endsLine : TokenKind → Bool
  | .tag | .pipe => true
  | _ => false

def isKeyword : TokenKind → Bool
  | .block _ | .step => true
  | _ => false

/-- Looks whether a token is met where it belongs. -/
def inspect (before : Option Token) (token : Token) : Watch Unit :=
  if token.kind = .eol ∧ ¬ follows endsLine before token then raise .strayEnd
  else if token.kind = .name ∧ ¬ follows isKeyword before token then raise .strayName
  else return ()

def peekNth (place : Nat) : Watch Token := do
  loop (fill place) ()
  let stand ← get
  match stand.ahead[place]? with
  | none => raise .shortBuffer
  | some token =>
      inspect (stand.before place) token
      return token

def peek : Watch Token :=
  peekNth 0

def passTag (place : Nat) : Watch (Nat ⊕ TokenKind) := do
  let token ← peekNth place
  if token.kind = .tag then
    return .inl (place + 1)
  else if token.kind = .eol then
    if follows (· = .tag) ((← get).before place) token then
      return .inl (place + 1)
    else
      raise .rowSkipped
  else
    return .inr token.kind

def kindAfterTags : Watch TokenKind :=
  loop passTag 0

def advance : Watch Token := do
  let _ ← peek
  let stand ← get
  match stand.ahead with
  | [] => raise .emptyBuffer
  | token :: rest =>
      set { stand with ahead := rest, last := some token }
      return token

def takeIf (kind : TokenKind) : Watch (Option Token) := do
  let token ← peek
  if token.kind = kind then
    return some (← advance)
  else
    return none

def reader : Watch Reader := do
  return (← get).reader

def unexpected (token : Token) (expected : String) : Watch α :=
  fail (.grammar ⟨token.location, expected, token.describe⟩)

def expect (kind : TokenKind) (expected : String) : Watch Token := do
  let token ← advance
  if token.kind = kind then
    return token
  else
    unexpected token expected

def pick (item : β → Watch (Option (α × β))) (found : List α × β) :
    Watch (List α × β ⊕ List α) := do
  match ← item found.2 with
  | none => return .inr found.1
  | some (value, next) => return .inl (found.1 ++ [value], next)

def gather (item : β → Watch (Option (α × β))) (state : β) : Watch (List α) :=
  loop (pick item) ([], state)

def many (item : Watch (Option α)) : Watch (List α) :=
  gather (stateless item) ()

structure OpenRow where
  cells : List TableCell
  /-- The cell that waits for its border. -/
  pending : Option Token
  /-- Where the last border stands. -/
  border : Location

def growRow (row : OpenRow) : Watch (OpenRow ⊕ List TableCell) := do
  let token ← advance
  match token.kind with
  | .cell =>
      if row.pending.isSome then
        raise .cellOverwritten
      else
        return .inl { row with pending := some token }
  | .pipe =>
      let cell := (row.pending.map TableCell.ofToken).getD ⟨[], row.border⟩
      return .inl ⟨row.cells ++ [cell], none, token.location⟩
  | .eol => return .inr row.cells
  | _ => raise .strayInRow

def row (width : Option Nat) : Watch (Option (TableRow × Option Nat)) := do
  match ← takeIf .pipe with
  | none => return none
  | some border =>
      let cells ← loop growRow ⟨[], none, border.location⟩
      if width.getD cells.length = cells.length then
        return some (⟨cells, border.location⟩, some cells.length)
      else
        fail (.grammar ⟨border.location,
          "a row of " ++ toString (width.getD cells.length) ++ " cells",
          toString cells.length ++ " cells"⟩)

def table : Watch DataTable := do
  let rows ← gather row none
  return ⟨rows, (rows.head?.map (·.location)).getD ⟨0, 0⟩⟩

def docStringLine (block : Block) (indent : Nat) : Watch (Option Text) := do
  let token ← peek
  let closing := ((← reader).blockAt? block.location.line).bind (·.closingLine)
  if token.kind = .docStringLine ∧ ∀ line ∈ closing, token.location.line ≤ line then
    return some (DocString.unindent indent (← advance).text)
  else
    return none

def docString (block : Block) : Watch DocString := do
  let indent := block.location.column - 1
  let lines ← many (docStringLine block indent)
  return ⟨lines, block.delimiter.text, indent, block.location⟩

def argument (line : Nat) : Watch (Option StepArgument) := do
  let token ← peek
  match (← reader).blockOpenedIn? (line + 1) token.location.line with
  | some block => return some (.docString (← docString block))
  | none =>
      if token.kind = .pipe then
        return some (.dataTable (← table))
      else
        return none

def tag : Watch (Option Tag) := do
  match ← takeIf .tag with
  | none => return none
  | some token =>
      let _ ← takeIf .eol
      return some ⟨token.text, token.location⟩

def tags : Watch (List Tag) :=
  many tag

def descriptionLine : Watch (Option Text) := do
  return (← takeIf .descriptionLine).map (·.text)

def optionalName : Watch Text := do
  return ((← takeIf .name).map (·.text)).getD []

def featureName : Watch Text := do
  return (← expect .name "a feature name").text

def heading (keyword : BlockKeyword) (name : Watch Text) : Watch Heading := do
  let token ← expect (.block keyword) (TokenKind.block keyword).describe
  let name ← name
  let description ← many descriptionLine
  return ⟨token.keywordText, name, description, token.location⟩

def step (previous : Option StepKeyword) : Watch (Option (Step × Option StepKeyword)) := do
  match ← takeIf .step with
  | none => return none
  | some token =>
      let keyword := (← reader).mode.dialect.stepKeyword? token.text
      match keyword.bind (·.resolve previous) with
      | none => unexpected token "a preceding Given, When or Then step"
      | some role =>
          let name ← expect .name "a step name"
          let argument ← argument token.location.line
          return some (⟨token.text, role, name.text, argument, token.location⟩, some role)

def steps : Watch (List Step) :=
  gather step none

def background : Watch (Option Background) := do
  if (← kindAfterTags) = .block .background then
    let token ← peek
    if token.kind = .tag then
      unexpected token "`Background:` without tags"
    else
      let heading ← heading .background optionalName
      return some { toHeading := heading, steps := ← steps }
  else
    return none

def scenario (keyword : BlockKeyword) : Watch Scenario := do
  let tags ← tags
  let heading ← heading keyword optionalName
  return { toHeading := heading, tags, steps := ← steps }

def examplesTable : Watch DataTable := do
  let token ← peek
  if token.kind = .pipe then
    let table ← table
    match table.rows.head?.bind (·.repeated?) with
    | none => return table
    | some cell =>
        fail (.grammar ⟨cell.location, "unique column names",
          "duplicate column `" ++ String.ofList cell.value ++ "`"⟩)
  else
    unexpected token "an examples table"

def examples : Watch (Option Examples) := do
  if (← kindAfterTags) = .block .examples then
    let tags ← tags
    let heading ← heading .examples optionalName
    return some { toHeading := heading, tags, table := ← examplesTable }
  else
    return none

def definition : Watch (Option Definition) := do
  match ← kindAfterTags with
  | .block .scenario => return some (.scenario (← scenario .scenario))
  | .block .scenarioOutline =>
      let scenario ← scenario .scenarioOutline
      return some (.outline { toScenario := scenario, examples := ← many examples })
  | _ => return none

def rule : Watch (Option Rule) := do
  if (← kindAfterTags) = .block .rule then
    let tags ← tags
    let heading ← heading .rule optionalName
    let background ← background
    return some { toHeading := heading, tags, background, children := ← many definition }
  else
    return none

def feature : Watch Feature := do
  let tags ← tags
  let heading ← heading .feature featureName
  let background ← background
  let children ← many definition
  let rules ← many rule
  let _ ← expect .eof "`Scenario:`, `Scenario Outline:`, `Rule:` or end of input"
  return { toHeading := heading, tags, background, children, rules,
           language := (← reader).language }

def parse (reader : Reader) (text : Text) : Option (Except Halt Feature) :=
  (feature ⟨reader.restart text, [], none⟩).map (·.1)

end

end Watch

end Gherkin
