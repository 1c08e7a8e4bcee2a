import Gherkin.Proofs.Blocks
import Gherkin.Proofs.DocStrings
import Gherkin.Proofs.Provenance
import Gherkin.Proofs.SourceLines
import Gherkin.Proofs.Spread
import Gherkin.Proofs.States
import Mathlib.Data.List.TakeWhile

/-!
Positions of tokens.

A token says on which line and in which column it stands. `Faithful` compares the tokens of a document
with its text: most of them stand there literally, the lines of doc strings and the ends of tag lines
by rules of their own, and they rise. What one line contributes comes from `Step.printed`, and all
further facts about a document from going through its lines.
-/

namespace Gherkin

def Location.Before (left right : Location) : Prop :=
  left.line < right.line ∨ left.line = right.line ∧ left.column < right.column

namespace Text

/-- The given characters stand on the line of the place, from its column on. -/
def Has (text : Text) (place : Location) (part : Text) : Prop :=
  ∃ before behind, text.line? place.line = some (before ++ part ++ behind) ∧
    place.column = before.length + 1

def Breaks (text : Text) (number : Nat) (ending : Text) : Prop :=
  ∃ line, text.line? number = some line ∧ line = line.dropBreak ++ ending

end Text

theorem LineBreak.isSpace_of_mem (ending : LineBreak) {c : Char} (member : c ∈ ending.text) :
    Text.isSpace c = true := by
  cases ending <;> simp [LineBreak.text] at member
  · rw [member]; rfl
  · rcases member with rfl | rfl <;> rfl

namespace Line

variable {line : Line}

theorem breaks_of_mem {text : Text} {line : Line} (member : line ∈ split text) :
    text.Breaks line.number line.ending.text := by
  refine ⟨line.raw, line?_of_mem member, ?_⟩
  rw [dropBreak_of_laid (laid_split text) member]
  rfl

/-- A line ends before the document does, or where it does. -/
theorem before_finish {lines : List Line} (numbered : Consecutive 1 lines) {line : Line}
    (member : line ∈ lines) : line.number < (finish lines).line ∨
      line.ending = .none ∧ finish lines = ⟨line.number, line.content.length + 1⟩ := by
  have length := length_le_finish lines numbered
  obtain ⟨index, place, found⟩ := numbered.getElem?_of_mem member
  have bound : index < lines.length := (List.getElem?_eq_some_iff.mp found).1
  by_cases final : index + 1 = lines.length
  · have last : lines.getLast? = some line := by
      rw [List.getLast?_eq_getElem?, ← final]
      exact found
    unfold finish
    rw [last]
    cases ending : line.ending with
    | none => exact Or.inr ⟨rfl, by simp [ending]⟩
    | lf | crlf => exact Or.inl (by simp [ending])
  · exact Or.inl (by omega)

theorem raw_of_fills {delimiter : Delimiter} (fills : delimiter.fills line.body = true) :
    ∃ behind, line.raw = line.content.takeWhile Text.isSpace ++ delimiter.text ++ behind ∧
      ∀ c ∈ line.content.takeWhile Text.isSpace ++ behind, Text.isSpace c = true := by
  obtain ⟨rest, body, white⟩ := Delimiter.fills_iff.mp fills
  refine ⟨rest ++ line.ending.text, by simp [raw_eq, body], ?_⟩
  intro c inside
  rcases List.mem_append.mp inside with margin | behind
  · exact List.mem_takeWhile_imp margin
  · rcases List.mem_append.mp behind with spaces | ending
    · exact white c spaces
    · exact line.ending.isSpace_of_mem ending

end Line

/-- An end of line holds the break. It stands right after a tag, and otherwise where the content of its
line ends. -/
def EndsLine (text : Text) (left right : Token) : Prop :=
  right.kind = .eol → text.Breaks right.location.line right.text ∧
    if left.kind = .tag then right.location = left.location.shift left.text.length
    else text.Has right.location right.text

namespace Mode

variable {setup : Setup} {mode after last : Mode} {line : Line} {lines : List Line}
  {tokens : List Token} {text : Text}

theorem Registered.wellFormed (registered : Registered setup mode) : mode.dialect.WellFormed := by
  obtain ⟨entry, found, same⟩ := Option.map_eq_some_iff.mp registered
  rw [← same]
  exact setup.registry.wellFormed entry (List.mem_of_find?_eq_some found)

theorem Step.printed (step : Step setup mode line tokens after) (registered : Registered setup mode) :
    Line.Printed line tokens ∨
      ∃ column, tokens = [⟨.docStringLine, line.raw, ⟨line.number, column⟩⟩] := by
  have comment (shape : line.shape setup.settings.fenced mode.dialect = .comment) :
      Line.Printed line [line.commentToken] := by
    have filled := Line.body_pos_of_shape setup.settings.fenced mode.dialect line (by simp [shape])
    exact .bare (Line.spread_comment (List.length_pos_iff.mp filled)) (by simp [Line.commentToken])
  cases step with
  | closing | blank | opening => exact Or.inl (.bare .nil (by simp))
  | verbatim opening => exact Or.inr ⟨opening.location.column, rfl⟩
  | comment _ shape => exact Or.inl (comment shape)
  | header _ _ _ shape => exact Or.inl (comment shape)
  | content _ _ filled read => exact Or.inl (Line.printed_tokens registered.wellFormed filled read)

/-- Each token belongs to a line. -/
theorem Run.step_of_mem (run : Run setup mode lines tokens last) (registered : Registered setup mode)
    {token : Token} (member : token ∈ tokens) : ∃ before line own after, line ∈ lines ∧ token ∈ own ∧
      Step setup before line own after ∧ Registered setup before := by
  induction run with
  | nil => cases member
  | @cons mode after _ line _ own _ step _ ih =>
      rcases List.mem_append.mp member with here | later
      · exact ⟨mode, line, own, after, List.mem_cons_self, here, step, registered⟩
      · obtain ⟨before, other, tokens, after, held, found⟩ := ih (step.registered registered) later
        exact ⟨before, other, tokens, after, List.mem_cons_of_mem line held, found⟩

theorem Step.has (step : Step setup mode line tokens after) (registered : Registered setup mode)
    (inText : line ∈ Line.split text) {token : Token} (member : token ∈ tokens)
    (literal : token.kind ≠ .docStringLine ∧ token.kind ≠ .eol) :
    text.Has token.location token.text := by
  have number := step.onLine.line token member
  rcases step.printed registered with printed | ⟨column, rfl⟩
  · obtain ⟨before, behind, split, place⟩ := printed.stands member literal.2
    refine ⟨before, behind ++ line.ending.text, ?_, by omega⟩
    rw [number, Line.line?_of_mem inText, Line.raw, split]
    simp
  · exact absurd (by rw [List.mem_singleton.mp member]) literal.1

theorem Step.endsLine (step : Step setup mode line tokens after) (registered : Registered setup mode)
    (inText : line ∈ Line.split text) : tokens.IsChain (EndsLine text) := by
  have inner : ∀ {own : List Token}, (∀ token ∈ own, token.kind ≠ .eol) →
      own.IsChain (EndsLine text) := by
    intro own inner
    apply List.Pairwise.isChain
    apply List.pairwise_of_forall_mem_list
    intro left _ right member ends
    exact absurd ends (inner right member)
  have number := step.onLine.line
  rcases step.printed registered with printed | ⟨column, rfl⟩
  · cases printed with
    | bare _ plain => exact inner plain
    | @ended own last spread plain =>
        refine List.isChain_append.mpr ⟨inner plain, List.IsChain.singleton _, ?_⟩
        rintro left final right ⟨⟩ -
        have same : last = left := by simpa using final
        subst same
        refine ⟨Line.breaks_of_mem inText, ?_⟩
        have here : last.location.line = line.number := number last (by simp)
        split
        · rename_i tag
          simp [Location.shift, Line.endColumn, tag, here]
        · rename_i other
          refine ⟨line.content, [], ?_, by simp [Line.endColumn, other]⟩
          rw [Line.line?_of_mem inText, List.append_nil]
          rfl
  · exact List.IsChain.singleton _

theorem Run.opensLine (run : Run setup mode lines tokens last) :
    ∀ token ∈ tokens.head?, token.kind ≠ .eol := by
  induction run with
  | nil => simp
  | @cons _ _ _ _ _ tokens _ step _ ih =>
      cases tokens with
      | nil => exact ih
      | cons first rest =>
          rintro token ⟨⟩ ends
          have opens := step.onLine.head first.kind (by simp)
          rw [ends] at opens
          cases opens

theorem Run.endsLine (run : Run setup mode lines tokens last) (registered : Registered setup mode)
    (inText : ∀ line ∈ lines, line ∈ Line.split text) : tokens.IsChain (EndsLine text) := by
  induction run with
  | nil => exact List.IsChain.nil
  | cons step later ih =>
      obtain ⟨here, others⟩ := List.forall_mem_cons.mp inText
      refine List.isChain_append.mpr ⟨step.endsLine registered here,
        ih (step.registered registered) others, ?_⟩
      intro left _ right first ends
      exact absurd ends (later.opensLine right first)

theorem Run.ordered {number : Nat} (run : Run setup mode lines tokens last)
    (registered : Registered setup mode) (numbered : Line.Consecutive number lines) :
    tokens.Pairwise fun left right => left.location.Before right.location := by
  induction run generalizing number with
  | nil => exact List.Pairwise.nil
  | @cons _ _ _ line _ tokens _ step later ih =>
      have onLine := step.onLine.line
      refine List.pairwise_append.mpr ⟨?_, ih (step.registered registered) numbered.2, ?_⟩
      · rcases step.printed registered with printed | ⟨column, rfl⟩
        · apply printed.rises.imp_of_mem
          intro left right leftMember rightMember rises
          exact Or.inr ⟨(onLine left leftMember).trans (onLine right rightMember).symm, rises⟩
        · exact List.pairwise_singleton _ _
      · intro left here right there
        have above := (later.line_of_mem numbered.2 right there).1
        have below := onLine left here
        have first := numbered.1
        exact Or.inl (by omega)

end Mode

def EndsTags (tokens : List Token) (tag eol : Token) : Prop :=
  tag.kind = .tag ∧ eol.kind = .eol ∧ [tag, eol] <:+: tokens

def Block.Opens (text : Text) (block : Block) : Prop :=
  ∃ margin behind, text.line? block.location.line = some (margin ++ block.delimiter.text ++ behind) ∧
    block.location.column = margin.length + 1 ∧ ∀ c ∈ margin ++ behind, Text.isSpace c = true

/-- Tokens that stand in a text where they say they do, given the blocks of its doc strings. -/
structure Faithful (blocks : List Block) (text : Text) (tokens : List Token) : Prop where
  /-- Tokens are copied from their place. -/
  literal : ∀ token ∈ tokens, token.kind ≠ .docStringLine → token.kind ≠ .eof →
    (∀ tag, ¬ EndsTags tokens tag token) → text.Has token.location token.text
  /-- A line of a doc string is taken whole and bears the column of the delimiter that opened it. -/
  verbatim : ∀ token ∈ tokens, token.kind = .docStringLine →
    text.line? token.location.line = some token.text ∧
    ∃ block ∈ blocks, block.Opens text ∧ block.location.line < token.location.line ∧
      token.location.line < block.stop ∧ token.location.column = block.location.column
  /-- So no line belongs to two blocks. -/
  apart : blocks.Pairwise fun left right => left.stop < right.location.line
  /-- A tag line ends after its last tag. -/
  tags : ∀ tag eol, EndsTags tokens tag eol → text.Breaks eol.location.line eol.text ∧
    eol.location = tag.location.shift tag.text.length
  /-- The document ends where its last character does. -/
  finish : ∃ proper, tokens = proper ++ [⟨.eof, [], text.finish⟩] ∧
    ∀ token ∈ proper, token.kind ≠ .eof
  /-- Tokens rise. At the end of a document without a last line break, the line can end there too. -/
  order : tokens.Pairwise fun left right => left.location.Before right.location ∨
    left.kind = .eol ∧ left.text = [] ∧ right.kind = .eof ∧ left.location = right.location

theorem endsLine_of_mem {text : Text} {tokens : List Token} (chain : tokens.IsChain (EndsLine text))
    (head : ∀ token ∈ tokens.head?, token.kind ≠ .eol) {eol : Token} (member : eol ∈ tokens)
    (ends : eol.kind = .eol) : ∃ left, [left, eol] <:+: tokens ∧ EndsLine text left eol := by
  obtain ⟨before, behind, rfl⟩ := List.append_of_mem member
  rcases List.eq_nil_or_concat' before with rfl | ⟨earlier, left, rfl⟩
  · exact absurd ends (head eol rfl)
  · have neighbours : [left, eol] <:+: earlier ++ [left] ++ eol :: behind :=
      ⟨earlier, behind, by simp⟩
    have pair := chain.infix neighbours
    exact ⟨left, neighbours, List.isChain_pair.mp pair⟩

section Whole

variable {setup : Setup} {text : Text} {tokens : List Token} {last : Mode}
  (reads : Mode.Reads setup (.initial setup) (Line.split text) tokens (.ok last))

include reads

theorem recordedBlocks_of_reads : recordedBlocks setup text = last.closed := by
  obtain ⟨_, done, _⟩ := tokenize_of_reads_ok reads
  rw [recordedBlocks, done.reached, blocks_of_outside last done.outside]

theorem has_of_reads {token : Token} (member : token ∈ tokens)
    (literal : token.kind ≠ .docStringLine ∧ token.kind ≠ .eol) :
    text.Has token.location token.text := by
  obtain ⟨before, line, own, after, inText, here, step, registered⟩ :=
    reads.run.1.step_of_mem setup.known member
  exact step.has registered inText here literal

theorem line?_of_reads {token : Token} (member : token ∈ tokens) (kind : token.kind = .docStringLine) :
    text.line? token.location.line = some token.text := by
  obtain ⟨line, inText, number, whole⟩ := reads.run.1.line_of_verbatim member kind
  rw [← number, whole]
  exact Line.line?_of_mem inText

theorem opens_of_reads {block : Block} (known : block ∈ last.closed) : block.Opens text := by
  obtain ⟨before, opening, inside, closing, behind, split, takes⟩ :=
    reads.run.1.takes_of_mem rfl known (by simp [Mode.initial])
  have held : opening ∈ Line.split text := by simp [split]
  obtain ⟨rest, whole, white⟩ := Line.raw_of_fills takes.opens
  refine ⟨_, rest, ?_, by rw [takes.location]; rfl, white⟩
  rw [takes.location, Line.start, Line.line?_of_mem held, whole]

/-- A token comes before the end of the document, but for the end of a last line without a break. -/
theorem before_eof {token : Token} (member : token ∈ tokens) :
    token.location.Before text.finish ∨
      token.kind = .eol ∧ token.text = [] ∧ token.location = text.finish := by
  obtain ⟨run, ended⟩ := reads.run
  have numbered := Line.consecutive_split text
  obtain ⟨before, line, own, after, held, here, step, registered⟩ :=
    run.step_of_mem setup.known member
  have number := step.onLine.line token here
  rw [← Line.finish_split]
  rcases Line.before_finish numbered held with earlier | ⟨unbroken, finish⟩
  · exact Or.inl (Or.inl (number ▸ earlier))
  · rcases step.printed registered with printed | ⟨column, rfl⟩
    · rw [finish]
      rcases printed.within here with inside | ⟨kind, ends, room⟩
      · exact Or.inl (Or.inr ⟨number, Nat.lt_succ_of_le inside⟩)
      · rw [unbroken] at ends
        rcases Nat.lt_or_eq_of_le room with less | same
        · exact Or.inl (Or.inr ⟨number, less⟩)
        · right
          exact ⟨kind, ends, by rw [← number, ← same]⟩
    · -- The delimiter that closes a doc string is on a later line.
      rw [List.mem_singleton.mp here] at member
      obtain ⟨block, known, _, below, _⟩ := run.block_of_verbatim ended numbered
        (Mode.bounded_initial setup) _ member rfl
      have stop := ((Mode.bounded_initial setup).run run numbered).closed block known
      have length := Line.length_le_finish _ numbered
      rw [List.mem_singleton.mp here]
      exact Or.inl (Or.inl (by simp only at below ⊢; omega))

end Whole

/-- The tokens of a document stand in its text where they say they do. -/
theorem faithful_of_tokenize (setup : Setup) (text : Text) (tokens : List Token)
    (lexed : tokenize setup text = .ok tokens) :
    Faithful (recordedBlocks setup text) text tokens := by
  obtain ⟨proper, last, reads, rfl⟩ := reads_of_tokenize_ok lexed
  obtain ⟨run, ended⟩ := reads.run
  have numbered := Line.consecutive_split text
  -- What follows a token on its line is known from the run; only the end of the document is added.
  have inner : proper.IsChain (EndsLine text) := run.endsLine setup.known fun _ member => member
  have chain : List.IsChain (EndsLine text) (proper ++ [⟨.eof, [], text.finish⟩]) := by
    refine List.isChain_append.mpr ⟨inner, List.IsChain.singleton _, ?_⟩
    rintro left _ right ⟨⟩ ends
    cases ends
  rw [recordedBlocks_of_reads reads, Line.finish_split]
  constructor
  case literal =>
    intro token member notVerbatim notFinal notTags
    have held : token ∈ proper := by
      rcases List.mem_append.mp member with real | final
      · exact real
      · exact absurd (by rw [List.mem_singleton.mp final]) notFinal
    by_cases ends : token.kind = .eol
    · obtain ⟨left, neighbours, endsLine⟩ := endsLine_of_mem inner run.opensLine held ends
      have here := (endsLine ends).2
      have other : left.kind ≠ .tag := fun tag =>
        notTags left ⟨tag, ends, neighbours.trans (List.prefix_append proper _).isInfix⟩
      rwa [if_neg other] at here
    · exact has_of_reads reads held ⟨notVerbatim, ends⟩
  case verbatim =>
    intro token member kind
    have held : token ∈ proper := by
      rcases List.mem_append.mp member with real | final
      · exact real
      · rw [List.mem_singleton.mp final] at kind
        cases kind
    obtain ⟨block, known, above, below, column⟩ :=
      run.block_of_verbatim ended numbered (Mode.bounded_initial setup) token held kind
    exact ⟨line?_of_reads reads held kind, block, known, opens_of_reads reads known, above, below,
      column⟩
  case apart => exact (layout_of_reads reads).apart
  case tags =>
    rintro tag eol ⟨tagged, ends, neighbours⟩
    have pair := chain.infix neighbours
    obtain ⟨breaks, place⟩ := List.isChain_pair.mp pair ends
    rw [if_pos tagged] at place
    exact ⟨breaks, place⟩
  case finish => exact ⟨proper, rfl, reads.kind_ne_eof⟩
  case order =>
    refine List.pairwise_append.mpr ⟨?_, List.pairwise_singleton _ _, ?_⟩
    · exact (run.ordered setup.known numbered).imp Or.inl
    · intro left member right final
      rw [List.mem_singleton.mp final]
      rcases before_eof reads member with before | ⟨kind, text, place⟩
      · exact Or.inl before
      · exact Or.inr ⟨kind, text, rfl, place⟩

def scatteredText : Text :=
  "@ä  @b # c\r\nFeature: f\n  Scenario: s\n    Given a\n      \"\"\"\n  x\n      \"\"\"\n    And é\n      | a\\|b |  |".toList

theorem faithful_scatteredText :
    ∃ tokens, tokenize .standard scatteredText = .ok tokens ∧
      Faithful (recordedBlocks .standard scatteredText) scatteredText tokens := by
  obtain ⟨tokens, lexed⟩ : ∃ tokens, tokenize .standard scatteredText = .ok tokens :=
    exists_of_isOk (by decide +kernel)
  exact ⟨tokens, lexed, faithful_of_tokenize .standard scatteredText tokens lexed⟩

end Gherkin
