import Gherkin.Reader.Basic

/-!
Looking ahead.

The grammar sees a document through a cursor, which asks the reader for a token only when it has
to and drops comments. A parser is a computation on the cursor that keeps it also when it fails.
-/

namespace Gherkin

/-- The next token that is no comment. Each comment uses up fuel. -/
def Reader.nextUncommented : Nat → Reader → Except LexError Token × Reader
  | 0, reader => reader.next
  | fuel + 1, reader =>
      match reader.next with
      | (.ok token, reader) =>
          if token.kind = .comment then nextUncommented fuel reader else (.ok token, reader)
      | (.error error, reader) => (.error error, reader)

structure Cursor where
  reader : Reader
  /-- Tokens that have been looked at and not consumed. -/
  ahead : List Token
  /-- The document has no more tokens than this before its end. Every loop takes its fuel from
  here. -/
  limit : Nat

def Cursor.ofReader (reader : Reader) : Cursor where
  reader := reader
  ahead := []
  limit := reader.size

def stateless {M : Type → Type} [Monad M] {α : Type} (item : M (Option α)) (_ : Unit) :
    M (Option (α × Unit)) := do
  return (← item).map (·, ())

abbrev Parse := ExceptT ParseError (StateM Cursor)

namespace Parse

section Running

variable {α β : Type}

theorem pure_apply (value : α) (cursor : Cursor) :
    (pure value : Parse α) cursor = (.ok value, cursor) := rfl

/-- A failure ends the whole computation and keeps the cursor where it was left. -/
theorem bind_apply (first : Parse α) (next : α → Parse β) (cursor : Cursor) :
    (first >>= next) cursor =
      match first cursor with
      | (.ok value, after) => next value after
      | (.error error, after) => (.error error, after) := by
  simp only [bind, ExceptT.bind, ExceptT.mk, StateT.bind]
  rcases first cursor with ⟨_ | _, _⟩ <;> rfl

end Running

def fetch : Parse Token := fun cursor =>
  match cursor.reader.nextUncommented cursor.limit with
  | (.ok token, reader) => (.ok token, { cursor with reader, ahead := cursor.ahead ++ [token] })
  | (.error error, reader) => (.error (.lex error), { cursor with reader })

def peek : Parse Token := do
  match (← get).ahead with
  | token :: _ => return token
  | [] => fetch

def advance : Parse Token := do
  let token ← peek
  modify fun cursor => { cursor with ahead := cursor.ahead.tail }
  return token

def takeIf (kind : TokenKind) : Parse (Option Token) := do
  let token ← peek
  if token.kind = kind then
    return some (← advance)
  else
    return none

def reader : Parse Reader := do
  return (← get).reader

def inTags (token : Token) : Bool :=
  token.kind = .tag || token.kind = .eol

def fetchPastTags : Nat → Parse TokenKind
  | 0 => return .eof
  | fuel + 1 => do
      let token ← fetch
      if inTags token then fetchPastTags fuel else return token.kind

/-- The kind of the first token after any tag lines. Nothing is consumed. -/
def kindAfterTags : Parse TokenKind := do
  let cursor ← get
  match cursor.ahead.find? fun token => !inTags token with
  | some token => return token.kind
  | none => fetchPastTags (cursor.limit + 1)

def unexpected {α : Type} (token : Token) (expected : String) : Parse α :=
  throw (.grammar ⟨token.location, expected, token.describe⟩)

def expect (kind : TokenKind) (expected : String) : Parse Token := do
  let token ← advance
  if token.kind = kind then
    return token
  else
    unexpected token expected

section Repetition

variable {α β : Type}

def collectFrom (item : β → Parse (Option (α × β))) : Nat → β → Parse (List α)
  | 0, _ => return []
  | fuel + 1, state => do
      match ← item state with
      | none => return []
      | some (element, state) => return element :: (← collectFrom item fuel state)

/-- Repeats an item until it declines. Each item sees the state that the one before it left. An
item consumes a token, so there are no more items than tokens. -/
def collect (item : β → Parse (Option (α × β))) (state : β) : Parse (List α) := do
  collectFrom item ((← get).limit + 1) state

def many (item : Parse (Option α)) : Parse (List α) :=
  collect (stateless item) ()

end Repetition

end Parse

end Gherkin
