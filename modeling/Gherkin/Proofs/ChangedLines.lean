import Gherkin.Proofs.Change
import Gherkin.Proofs.LineTokens
import Mathlib.Data.List.Forall2

/-!
Reading a line and a changed one.

Two lines hold the same if they differ in their numbers, their breaks and a margin of white space
only. Reading them in modes that differ by the same change yields tokens that tell the same, or
errors that differ by the change, and leads to such modes again.
-/

namespace Gherkin

namespace Text

variable {margin : Text} (white : ∀ c ∈ margin, isSpace c = true) (text : Text)

include white

theorem trimStart_margin : trimStart (margin ++ text) = trimStart text :=
  List.dropWhile_append_of_pos white

theorem indentation_margin : indentation (margin ++ text) = indentation text + margin.length := by
  rw [indentation, List.takeWhile_append_of_pos white, List.length_append, Nat.add_comm]
  rfl

theorem wordsFrom_margin (offset : Nat) :
    wordsFrom offset (margin ++ text) = wordsFrom (offset + margin.length) text := by
  induction margin generalizing offset with
  | nil => rfl
  | cons c rest ih =>
      obtain ⟨space, others⟩ := List.forall_mem_cons.mp white
      rw [List.cons_append, wordsFrom, if_pos space, ih others, List.length_cons]
      congr 1
      omega

end Text

namespace Text

def Word.shift (count : Nat) (word : Word) : Word :=
  { word with offset := word.offset + count }

theorem wordsFrom_add (offset count : Nat) (text : Text) :
    wordsFrom (offset + count) text = (wordsFrom offset text).map (Word.shift count) := by
  induction text generalizing offset with
  | nil => rfl
  | cons c rest ih =>
      have later := ih (offset + 1)
      rw [Nat.add_right_comm] at later
      rw [wordsFrom, wordsFrom, later]
      by_cases space : isSpace c = true
      · rw [if_pos space, if_pos space]
      · rw [if_neg space, if_neg space]
        cases wordsFrom (offset + 1) rest with
        | nil => rfl
        | cons word others =>
            by_cases joins : word.offset = offset + 1
            · simp [Word.shift, joins, Nat.add_right_comm]
            · have apart : word.offset + count ≠ offset + count + 1 := by omega
              simp [Word.shift, joins, apart]

end Text

namespace Change

variable {change : Change} {fails : ParseError → ParseError → Prop}

theorem Reports.tells (reports : change.Reports fails) {kind : TokenKind} (text : Text)
    (place : Location) (plain : kind ≠ .docStringLine) :
    change.Tells fails ⟨kind, text, place⟩ ⟨kind, text, change.location place⟩ where
  kind := rfl
  line := rfl
  location _ := rfl
  text _ _ := rfl
  verbatim verbatim := absurd verbatim plain
  unexpected := reports.grammar place

theorem Reports.tells_eol (reports : change.Reports fails) (text other : Text) (place : Location) :
    change.Tells fails ⟨.eol, text, place⟩ ⟨.eol, other, change.location place⟩ where
  kind := rfl
  line := rfl
  location _ := rfl
  text inner := absurd rfl inner
  verbatim := nofun
  unexpected := reports.grammar place

def Yields (change : Change) (fails : ParseError → ParseError → Prop) :
    Except LexError (List Token) → Except LexError (List Token) → Prop
  | .ok left, .ok right => List.Forall₂ (change.Tells fails) left right
  | .error left, .error right => right = change.lexError left
  | _, _ => False

structure TellsLine (change : Change) (left right : Line) : Prop where
  number : right.number = change.line left.number
  content : ∃ margin, right.content = margin ++ left.content ∧ margin.length = change.indent ∧
    ∀ c ∈ margin, Text.isSpace c = true
  verbatim : ∀ count, DocString.unindent (count + change.indent) right.raw =
    change.verbatim (DocString.unindent count left.raw)

namespace TellsLine

variable {left right : Line} (tells : change.TellsLine left right)

include tells

theorem body : right.body = left.body := by
  obtain ⟨margin, content, _, white⟩ := tells.content
  rw [Line.body, content, Text.trimStart_margin white]
  rfl

theorem trim : right.content.trim = left.content.trim := by
  obtain ⟨margin, content, _, white⟩ := tells.content
  rw [Text.trim, content, Text.trimStart_margin white]
  rfl

theorem start : right.start = change.location left.start := by
  obtain ⟨margin, content, width, white⟩ := tells.content
  rw [Line.start, content, Text.indentation_margin white, width, tells.number, Nat.add_right_comm]
  rfl

theorem shape (fenced : Bool) (dialect : Dialect) :
    right.shape fenced dialect = left.shape fenced dialect := by
  rw [Line.shape, tells.body]
  rfl

theorem tagWords : right.tagWords = left.tagWords.map (Text.Word.shift change.indent) := by
  obtain ⟨margin, content, width, white⟩ := tells.content
  rw [Line.tagWords, content, Text.wordsFrom_margin white, width, Text.wordsFrom_add,
    List.takeWhile_map]
  rfl

theorem columnAfter : right.columnAfter right.tagWords =
    left.columnAfter left.tagWords + change.indent := by
  rw [Line.columnAfter, Line.columnAfter, tells.tagWords, List.getLast?_map, tells.start]
  cases left.tagWords.getLast? with
  | none => rfl
  | some word => exact Nat.add_right_comm ..

variable (reports : change.Reports fails)

include reports

theorem commentToken : change.Tells fails left.commentToken right.commentToken := by
  rw [Line.commentToken, Line.commentToken, tells.trim, tells.start]
  exact reports.tells _ _ nofun

omit tells in
theorem layout (place : Location) (text other : Text) (parts : List Row.Part)
    (plain : ∀ part ∈ parts, part.kind = .pipe ∨ part.kind = .cell) :
    List.Forall₂ (change.Tells fails) (Row.layout place (parts ++ [⟨.eol, text⟩]))
      (Row.layout (change.location place) (parts ++ [⟨.eol, other⟩])) := by
  induction parts generalizing place with
  | nil => exact .cons (reports.tells_eol _ _ _) .nil
  | cons part rest ih =>
      obtain ⟨first, others⟩ := List.forall_mem_cons.mp plain
      have proper : part.kind ≠ .docStringLine := by
        rcases first with pipe | cell
        · simp [pipe]
        · simp [cell]
      have later := ih (place.shift part.text.length) others
      rw [change.location_shift] at later
      exact .cons (reports.tells _ _ proper) later

theorem rowTokens : change.Yields fails (Row.tokens left.start left.ending.text left.body)
    (Row.tokens right.start right.ending.text right.body) := by
  rw [tells.body, tells.start]
  unfold Row.tokens
  split
  · rename_i rest _
    split
    · exact rfl
    · apply layout reports left.start _ _ (⟨.pipe, ['|']⟩ :: Row.parts rest)
      refine List.forall_mem_cons.mpr ⟨Or.inl rfl, ?_⟩
      exact fun part member => Row.kind_of_mem_scan .opening rest part member
  · exact rfl

theorem tagTokens : change.Yields fails left.tagTokens right.tagTokens := by
  have columns := tells.columnAfter
  rw [Line.tagTokens, Line.tagTokens, tells.tagWords, List.find?_map, tells.number]
  rw [tells.tagWords] at columns
  have same : ((fun word : Text.Word => !Line.isTag word.text) ∘ Text.Word.shift change.indent) =
      fun word => !Line.isTag word.text := rfl
  rw [same]
  cases left.tagWords.find? fun word => !Line.isTag word.text with
  | some word => exact rfl
  | none =>
      rw [columns]
      apply List.rel_append
      · rw [List.map_map]
        apply List.forall₂_map_left_iff.mpr
        apply List.forall₂_map_right_iff.mpr
        exact List.forall₂_same.mpr fun word _ => reports.tells word.text ⟨left.number, word.offset⟩ nofun
      · exact .cons (reports.tells_eol _ _ ⟨left.number, _⟩) .nil

theorem keywordTokens {kind : TokenKind} (plain : kind ≠ .docStringLine) (width : Nat) :
    List.Forall₂ (change.Tells fails) (left.keywordTokens kind width)
      (right.keywordTokens kind width) := by
  rw [Line.keywordTokens, Line.keywordTokens, tells.body, tells.start]
  apply List.Forall₂.cons (reports.tells _ _ plain)
  rw [Line.nameTokens, Line.nameTokens, ← change.location_shift]
  split
  · exact .nil
  · rw [← change.location_shift]
    exact .cons (reports.tells _ _ nofun) .nil

theorem tokens (shape : Shape) : change.Yields fails (left.tokens shape) (right.tokens shape) := by
  cases shape with
  | blank => exact List.Forall₂.nil
  | comment => exact .cons (tells.commentToken reports) .nil
  | delimiter => exact List.Forall₂.nil
  | row => exact tells.rowTokens reports
  | tags => exact tells.tagTokens reports
  | block surface =>
      have plain : TokenKind.block surface.keyword ≠ .docStringLine := nofun
      exact tells.keywordTokens reports plain surface.width
  | step surface =>
      have plain : TokenKind.step ≠ .docStringLine := nofun
      exact tells.keywordTokens reports plain surface.width
  | description =>
      rw [Line.tokens, Line.tokens, tells.body, tells.start]
      exact .cons (reports.tells _ _ nofun) .nil

end TellsLine

section Reading

variable {left right : Line} (tells : change.TellsLine left right) (reports : change.Reports fails)

include tells reports

theorem yields_readComment (registry : Registry) (mode : Mode) :
    change.Yields fails (mode.readComment registry left).1
        ((change.mode mode).readComment registry right).1 ∧
      ((change.mode mode).readComment registry right).2 =
        change.mode (mode.readComment registry left).2 := by
  have header : (change.mode mode).header? right = mode.header? left := by
    rw [Mode.header?, tells.trim]
    rfl
  rw [Mode.readComment, Mode.readComment, header]
  cases mode.header? left with
  | none => exact ⟨.cons (tells.commentToken reports) .nil, rfl⟩
  | some language =>
      dsimp only
      cases registry.find? language with
      | none =>
          rw [tells.number]
          exact ⟨rfl, rfl⟩
      | some dialect => exact ⟨.cons (tells.commentToken reports) .nil, rfl⟩

theorem yields_readVerbatim (mode : Mode) (opening : Opening) :
    List.Forall₂ (change.Tells fails) (mode.readVerbatim opening left).1
        ((change.mode mode).readVerbatim (change.opening opening) right).1 ∧
      ((change.mode mode).readVerbatim (change.opening opening) right).2 =
        change.mode (mode.readVerbatim opening left).2 := by
  have delimiter : (change.opening opening).delimiter = opening.delimiter := rfl
  rw [Mode.readVerbatim, Mode.readVerbatim, tells.body, tells.number, delimiter]
  split
  · refine ⟨.nil, ?_⟩
    simp [Change.mode, Change.block]
  · refine ⟨.cons ?_ .nil, rfl⟩
    constructor
    case kind => rfl
    case line => rfl
    case location => exact fun _ => rfl
    case text => exact fun _ plain => absurd rfl plain
    case verbatim => exact fun _ => tells.verbatim
    case unexpected => exact reports.grammar ⟨left.number, opening.location.column⟩

/-- A line and a changed one are read alike. -/
theorem yields_read (setup : Setup) (mode : Mode) :
    change.Yields fails (mode.read setup left).1 ((change.mode mode).read setup right).1 ∧
      ((change.mode mode).read setup right).2 = change.mode (mode.read setup left).2 := by
  rw [Mode.read, Mode.read]
  cases inside : mode.opened with
  | some opening =>
      have changed : (change.mode mode).opened = some (change.opening opening) := by
        simp [Change.mode, inside]
      rw [changed]
      exact yields_readVerbatim tells reports mode opening
  | none =>
      have changed : (change.mode mode).opened = none := by simp [Change.mode, inside]
      have dialect : (change.mode mode).dialect = mode.dialect := rfl
      simp only [changed, tells.shape, dialect]
      cases left.shape setup.settings.fenced mode.dialect with
      | blank => exact ⟨List.Forall₂.nil, rfl⟩
      | comment => exact yields_readComment tells reports setup.registry mode
      | delimiter delimiter =>
          refine ⟨List.Forall₂.nil, ?_⟩
          simp [Mode.readShaped, Change.mode, Change.opening, tells.start]
      | row => exact ⟨tells.tokens reports .row, rfl⟩
      | tags => exact ⟨tells.tokens reports .tags, rfl⟩
      | block surface => exact ⟨tells.tokens reports (.block surface), rfl⟩
      | step surface => exact ⟨tells.tokens reports (.step surface), rfl⟩
      | description => exact ⟨tells.tokens reports .description, rfl⟩

end Reading

end Change

end Gherkin
