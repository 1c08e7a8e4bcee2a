import Gherkin.Proofs.Completeness
import Gherkin.Proofs.DocStrings
import Gherkin.Proofs.Edits

/-!
A row among the tokens.

A step that takes nothing can be given a row: the tokens of the row go behind its name, and the step gets
a table of just that row. `carries_withRow` says that this edit of the tokens carries derivations over. The
parser accepts what is derived so, since `decides_placing` allows for empty doc strings, which a derivation
by lines alone cannot tell apart.
-/

namespace Gherkin

open Transcript (TakesArgument openedAfter openedAfter_eq_some)

def Step.bare (step : Step) : Bool :=
  match step.argument with
  | none => true
  | some (.docString doc) => doc.lines.isEmpty
  | some (.dataTable _) => false

def Step.given (place : Location) (table : DataTable) (step : Step) : Step :=
  if step.location = place ∧ step.bare then { step with argument := some (.dataTable table) } else step

def free (blocks : List Block) (name : Token) (tokens : List Token) : Bool :=
  match openedAfter blocks name tokens with
  | some block => !decide block.Filled
  | none => tokens.head?.all fun token => token.kind ≠ .pipe

section Taking

variable {blocks : List Block} {name : Token} {tokens rest : List Token}
  {argument : Option StepArgument}

theorem Transcript.TakesArgument.suffix (takes : TakesArgument blocks name tokens argument rest) :
    rest <:+ tokens := by
  cases takes with
  | absent => exact List.suffix_refl _
  | table _ here => exact here.passes.suffix
  | docString _ here =>
      obtain ⟨lines, rfl, _⟩ := here.lines
      exact List.suffix_append _ _

/-- A block without lines leaves nothing behind. -/
theorem DerivesDocString.filled_iff {block : Block} {doc : DocString}
    (derived : DerivesDocString block tokens doc rest) : block.Filled ↔ doc.lines ≠ [] := by
  obtain ⟨lines, _, _, whole, rfl⟩ := derived.lines
  have count := congrArg List.length whole
  rw [List.length_map, List.length_range'] at count
  rw [← List.length_pos_iff, List.length_map, count, Block.Filled]
  omega

theorem Transcript.TakesArgument.free_eq (takes : TakesArgument blocks name tokens argument rest)
    (step : Step) (same : step.argument = argument) : free blocks name tokens = step.bare := by
  rw [free, Step.bare, same]
  cases takes with
  | absent none other =>
      rw [none]
      cases tokens with
      | nil => rfl
      | cons token more => simpa using other token rfl
  | table none here =>
      obtain ⟨pipe, more, rfl, opens⟩ := here.starts
      simp [none, opens]
  | @docString _ _ block doc first here =>
      by_cases empty : doc.lines = []
      · simp [first, here.filled_iff, empty]
      · simp [first, here.filled_iff, empty]

theorem Transcript.TakesArgument.eq_of_bare (takes : TakesArgument blocks name tokens argument rest)
    (step : Step) (same : step.argument = argument) (bare : step.bare = true) : rest = tokens := by
  rw [Step.bare, same] at bare
  cases takes with
  | absent => rfl
  | table => cases bare
  | docString _ here =>
      obtain ⟨lines, rfl, _, _, rfl⟩ := here.lines
      have none : lines = [] := by simpa using bare
      rw [none, List.nil_append]

end Taking

section Rows

variable (blocks : List Block) (place : Location) (row : List Token) (column : Nat)

def Token.moveEnd (token : Token) : Token :=
  if token.kind = .eof then { token with location := ⟨token.location.line, column⟩ } else token

/-- The tokens with a row behind the name of the step at the given place, if it can take one. -/
def withRow : List Token → List Token
  | [] => []
  | [token] => [token.moveEnd column]
  | token :: name :: rest =>
      if token.kind = .step ∧ token.location = place ∧ free blocks name rest then
        token :: name :: (row ++ withRow rest)
      else token.moveEnd column :: withRow (name :: rest)

variable {blocks place row column} {token name : Token} {tokens : List Token}

theorem Token.moveEnd_eq (inner : token.kind ≠ .eof) : token.moveEnd column = token :=
  if_neg inner

theorem withRow_cons (away : ¬ (token.kind = .step ∧ token.location = place)) :
    withRow blocks place row column (token :: tokens) =
      token.moveEnd column :: withRow blocks place row column tokens := by
  cases tokens with
  | nil => rfl
  | cons name rest =>
      rw [withRow, if_neg]
      exact fun ⟨opens, here, _⟩ => away ⟨opens, here⟩

theorem withRow_stays (tokens : List Token) (stays : token.kind.stays = true) :
    withRow blocks place row column (token :: tokens) =
      token :: withRow blocks place row column tokens := by
  have inner : token.kind ≠ .eof := fun ends => by simp [ends, TokenKind.stays] at stays
  have other : token.kind ≠ .step := fun opens => by simp [opens, TokenKind.stays] at stays
  rw [withRow_cons fun both => other both.1, Token.moveEnd_eq inner]

theorem withRow_append {front : List Token}
    (away : ∀ token ∈ front, token.kind ≠ .eof ∧ token.location ≠ place) :
    withRow blocks place row column (front ++ tokens) =
      front ++ withRow blocks place row column tokens := by
  induction front with
  | nil => rfl
  | cons token more ih =>
      obtain ⟨⟨inner, other⟩, later⟩ := List.forall_mem_cons.mp away
      rw [List.cons_append, withRow_cons fun both => other both.2, Token.moveEnd_eq inner, ih later]
      rfl

/-- The row is never the first thing. -/
theorem head?_withRow (tokens : List Token) :
    (withRow blocks place row column tokens).head? = tokens.head?.map (·.moveEnd column) := by
  match tokens with
  | [] => rfl
  | [token] => rfl
  | token :: name :: rest =>
      rw [withRow]
      split
      · rename_i step
        rw [List.head?_cons, List.head?_cons, Option.map_some, Token.moveEnd_eq (by simp [step.1])]
      · rfl

theorem Token.line_moveEnd (token : Token) :
    (token.moveEnd column).location.line = token.location.line := by
  unfold moveEnd
  split <;> rfl

theorem Token.kind_moveEnd (token : Token) : (token.moveEnd column).kind = token.kind := by
  unfold moveEnd
  split <;> rfl

theorem openedAfter_withRow (name : Token) (tokens : List Token) :
    openedAfter blocks name (withRow blocks place row column tokens) =
      openedAfter blocks name tokens := by
  rw [openedAfter, openedAfter, head?_withRow]
  cases tokens.head? with
  | none => rfl
  | some token => simp [Token.line_moveEnd]

theorem Transcript.TakesArgument.withRow {argument : Option StepArgument} {rest : List Token}
    (takes : TakesArgument blocks name tokens argument rest) :
    TakesArgument blocks name (withRow blocks place row column tokens) argument
      (withRow blocks place row column rest) := by
  cases takes with
  | absent none other =>
      refine .absent (by rw [openedAfter_withRow, none]) ?_
      intro token first
      rw [head?_withRow] at first
      obtain ⟨before, here, rfl⟩ := Option.map_eq_some_iff.mp first
      rw [Token.kind_moveEnd]
      exact other before here
  | table none here =>
      exact .table (by rw [openedAfter_withRow, none]) (here.edited withRow_stays)
  | docString first here =>
      exact .docString (by rw [openedAfter_withRow, first]) (here.edited withRow_stays)

end Rows

/-- The grammar in which what a step takes need be derived only where its name stands in the given
tokens. -/
def Grammar.within (grammar : Grammar) (tokens : List Token) : Grammar where
  dialect := grammar.dialect
  language := grammar.language
  argument name start argument rest :=
    rest <:+ start ∧ (name :: start <:+ tokens → grammar.argument name start argument rest)

theorem decides_placing (script : Transcript) :
    script.Decides ((Grammar.placing script.reader).within script.tokens) where
  dialect := rfl
  language := rfl
  suffix takes := takes.1
  argument remains named takes follows :=
    Transcript.argument_of_takes remains named (takes.2 remains.suffix) follows

/-- A document with a derivation in which every step takes what opens behind it is accepted. -/
theorem parse_of_placing {setup : Setup} {text : Text} {tokens : List Token} {feature : Feature}
    (lexed : tokenize setup text = .ok tokens)
    (derived : ((Grammar.placing (.afterDocument setup text)).within (uncommented tokens)).DerivesDocument
      (uncommented tokens) feature) : parse setup text = .ok feature := by
  have accepted : Parse.feature ((Transcript.ofTokens lexed).cursor (uncommented tokens)) =
      (.ok feature, (Transcript.ofTokens lexed).cursor []) :=
    Transcript.feature_of_decided (decides_placing (Transcript.ofTokens lexed)) derived
  exact (parse_eq_complete lexed).trans (congrArg Prod.fst accepted)

/-- The row is derived where the name in front of it is the one it was put behind. -/
theorem carries_withRow {source target : Reader} {whole row : List Token} {entry : TableRow}
    (place : Location) (column : Nat) (same : target.mode = source.mode)
    (derived : ∀ rest, DerivesRow (row ++ rest) entry rest)
    (unopened : ∀ name rest, name :: (row ++ rest) <:+ whole →
      openedAfter source.mode.blocks name (row ++ rest) = none) :
    (Grammar.placing source).Carries ((Grammar.placing target).within whole)
      (withRow source.mode.blocks place row column)
      (Step.given place ⟨[entry], entry.location⟩) where
  dialect := by
    rw [Grammar.within, Grammar.placing, Grammar.placing, same]
  language := by
    rw [Grammar.within, Grammar.placing, Grammar.placing, Reader.language, Reader.language, same]
  stays := withRow_stays
  ending ends := ⟨_, rfl, (Token.kind_moveEnd _).trans ends⟩
  step := by
    intro token name tokens rest argument role opens named takes
    have able := takes.free_eq ⟨token.text, role, name.text, argument, token.location⟩ rfl
    have blocks : (Grammar.placing target).argument = TakesArgument source.mode.blocks := by
      rw [Grammar.placing, same]
    by_cases here : token.location = place ∧ free source.mode.blocks name tokens = true
    · obtain ⟨at_place, none⟩ := here
      rw [none] at able
      -- Nothing was taken, so the row comes first in what is left.
      obtain rfl := takes.eq_of_bare _ rfl able.symm
      have table : DerivesTable (row ++ withRow source.mode.blocks place row column rest)
          ⟨[entry], entry.location⟩ (withRow source.mode.blocks place row column rest) :=
        .intro (.cons (derived _) .nil) (by simp)
      refine ⟨_, some (.dataTable ⟨[entry], entry.location⟩), ?_, ⟨table.passes.suffix, ?_⟩, ?_⟩
      · rw [withRow, if_pos ⟨opens, at_place, none⟩]
      · intro within
        rw [blocks]
        exact .table (unopened name _ within) table
      · rw [Step.given, if_pos ⟨at_place, able.symm⟩]
    · have kept : TakesArgument source.mode.blocks name
          (withRow source.mode.blocks place row column tokens) argument
          (withRow source.mode.blocks place row column rest) := takes.withRow
      refine ⟨_, argument, ?_, ⟨kept.suffix, ?_⟩, ?_⟩
      · rw [withRow, if_neg fun both => here both.2, Token.moveEnd_eq (by simp [opens]),
          withRow_stays _ (by rw [named]; rfl)]
      · intro _
        rw [blocks]
        exact kept
      · rw [Step.given, if_neg]
        rw [able] at here
        exact here

end Gherkin
