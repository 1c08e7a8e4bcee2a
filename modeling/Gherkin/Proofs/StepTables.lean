import Gherkin.Proofs.CaseOrder
import Gherkin.Proofs.FirstViolation
import Gherkin.Proofs.Insertion
import Gherkin.Proofs.RowEdits
import Gherkin.Proofs.Rows

/-!
A row under a step.

A row can be written into an empty line under a step that takes nothing. The document is still valid,
the step has a table of just that row, and nothing else in the tree changes: `parse_row_under_step` says so
for every row of padded cells. The empty line changes nothing by itself, as `parse_insert` says, so it need
not have been there. A doc string without lines that comes below the row is lost, as a step takes one thing
only.
-/

namespace Gherkin

open Transcript (TakesArgument openedAfter openedAfter_eq_some)

/-- A step and perhaps its name are all that stands on their line. -/
theorem OnLine.step_alone {number : Nat} {tokens : List Token} (onLine : OnLine number tokens)
    {token : Token} (member : token ∈ tokens) (opens : token.kind = .step) :
    tokens = [token] ∨ ∃ name, tokens = [token, name] ∧ name.kind = .name := by
  obtain ⟨front, back, rfl⟩ := List.append_of_mem member
  have chain := onLine.chain
  rw [List.map_append, List.map_cons, opens] at chain
  have first : front = [] := by
    rcases List.eq_nil_or_concat front with empty | ⟨before, last, rfl⟩
    · exact empty
    · rw [List.concat_eq_append, List.map_append, List.append_assoc] at chain
      have precedes := (List.isChain_cons_cons.mp chain.right_of_append).1
      cases kind : last.kind <;> simp [kind, TokenKind.precedes] at precedes
  subst first
  cases back with
  | nil => exact Or.inl rfl
  | cons name more =>
      obtain ⟨precedes, chain⟩ := List.isChain_cons_cons.mp chain
      have named : name.kind = .name := by
        cases kind : name.kind <;> simp [kind, TokenKind.precedes] at precedes
        rfl
      have last : more = [] := by
        cases more with
        | nil => rfl
        | cons next others =>
            have precedes := (List.isChain_cons_cons.mp chain).1
            simp [named, TokenKind.precedes] at precedes
      exact Or.inr ⟨name, by rw [last]; rfl, named⟩

namespace Mode

variable {setup : Setup} {mode last : Mode} {lines others : List Line} {tokens : List Token}

/-- What is read of some lines, and that it is read as well with others behind them. -/
theorem Reads.cut (reads : Reads setup mode (lines ++ others) tokens (.ok last)) :
    ∃ first later middle, tokens = first ++ later ∧ Run setup mode lines first middle ∧
      Reads setup middle others later (.ok last) ∧
      ∀ {behind more}, Reads setup middle behind more (.ok last) →
        Reads setup mode (lines ++ behind) (first ++ more) (.ok last) := by
  induction lines generalizing mode tokens with
  | nil => exact ⟨[], tokens, mode, rfl, .nil mode, reads, fun further => further⟩
  | cons line rest ih =>
      cases reads with
      | @line _ after _ here _ _ _ read further =>
          obtain ⟨first, later, middle, rfl, run, left, again⟩ := ih further
          refine ⟨here ++ first, later, middle, (List.append_assoc ..).symm,
            .cons (step_of_read read) run, left, ?_⟩
          intro behind more other
          rw [List.cons_append, List.append_assoc]
          exact .line read (again other)

/-- Blank lines and comments leave no token for the grammar. -/
theorem Run.ignored (run : Run setup mode lines tokens last) (outside : mode.opened = none)
    (past : mode.headerAllowed = false) (ignored : ∀ line ∈ lines, Text.Ignored line.content) :
    last = mode ∧ uncommented tokens = [] := by
  induction run with
  | nil => exact ⟨rfl, rfl⟩
  | @cons mode after last line rest tokens later step _ ih =>
      obtain ⟨here, below⟩ := List.forall_mem_cons.mp ignored
      -- No doc string is open and headers are over, so such a line changes nothing at all.
      have none : after = mode ∧ uncommented tokens = [] := by
        cases step with
        | closing _ inside | verbatim _ inside =>
            rw [outside] at inside
            cases inside
        | blank => exact ⟨rfl, rfl⟩
        | comment => exact ⟨rfl, rfl⟩
        | header _ _ _ _ names => simp [header?, past] at names
        | opening _ _ shape =>
            rcases line.shape_of_ignored _ _ here with blank | comment
            · rw [blank] at shape
              cases shape
            · rw [comment] at shape
              cases shape
        | content _ _ filled _ =>
            rcases line.shape_of_ignored _ _ here with blank | comment
            · rw [blank] at filled
              cases filled
            · rw [comment] at filled
              cases filled
      obtain ⟨rfl, nothing⟩ := none
      obtain ⟨same, further⟩ := ih outside past below
      exact ⟨same, by rw [uncommented_append, nothing, further]; rfl⟩

/-- Under a step come only blank lines and comments: what is left when they are read. -/
theorem Run.last_step (run : Run setup mode lines tokens last) {number : Nat}
    (numbered : Line.Consecutive number lines) (bounded : Bounded number mode) (settled : mode.Settled)
    {token : Token} (member : token ∈ tokens) (opens : token.kind = .step)
    (ignored : ∀ line ∈ lines, token.location.line < line.number → Text.Ignored line.content) :
    last.opened = none ∧ last.headerAllowed = false ∧
      (∀ block ∈ last.closed, block.location.line < token.location.line) ∧
      ∃ front, uncommented tokens = front ++ [token] ∨
        ∃ name, uncommented tokens = front ++ [token, name] := by
  induction run generalizing number with
  | nil => cases member
  | @cons mode after last line rest tokens later step run ih =>
      obtain ⟨first, numbered⟩ := numbered
      obtain ⟨_, below⟩ := List.forall_mem_cons.mp ignored
      rcases List.mem_append.mp member with here | there
      · have place : token.location.line = line.number := step.onLine.line token here
        obtain ⟨outside, same⟩ := step.outside_of_mem token here (by simp [opens])
        have past := step.header_over settled token here (by simp [opens])
        -- All lines below the step are ignored, so nothing behind its tokens counts.
        have beyond : ∀ other ∈ rest, Text.Ignored other.content := by
          intro other inside
          have number := (numbered.number_of_mem inside).1
          exact below other inside (by omega)
        obtain ⟨rfl, nothing⟩ := run.ignored outside past beyond
        refine ⟨outside, past, ?_, ?_⟩
        · intro block held
          rw [same] at held
          have closes := (bounded.closed block held).2
          omega
        · refine ⟨[], ?_⟩
          rw [uncommented_append, nothing, List.append_nil]
          rcases step.onLine.step_alone here opens with rfl | ⟨name, rfl, named⟩
          · exact Or.inl (by simp [uncommented, opens])
          · exact Or.inr ⟨name, by simp [uncommented, opens, named]⟩
      · obtain ⟨free, past, before, front, ends⟩ :=
          ih numbered (bounded.step step first) (step.settled settled) there below
        refine ⟨free, past, before, uncommented tokens ++ front, ?_⟩
        rw [uncommented_append]
        rcases ends with alone | ⟨name, named⟩
        · exact Or.inl (by rw [alone, List.append_assoc])
        · exact Or.inr ⟨name, by rw [named, List.append_assoc]⟩

end Mode

/-! The row is read where nothing stood before, so the tokens above it are the same and those below it are the
same again. -/

namespace Line

variable {content below : Text} {ending : LineBreak} (number : Nat)

theorem splitFrom_filled (filled : content ≠ []) (single : '\n' ∉ content)
    (plain : content.getLast? ≠ some '\r') (final : ending = .none → below = []) :
    splitFrom number (content ++ ending.text ++ below) =
      ⟨number, content, ending⟩ :: splitFrom (number + 1) below := by
  by_cases ends : ending = .none
  · rw [ends, final ends, LineBreak.text, List.append_nil, List.append_nil,
      splitFrom_last number filled single]
    rfl
  · exact splitFrom_broken number ends single (fun _ => plain) below

def emptied (ending : LineBreak) : List Line :=
  if ending = .none then [] else [⟨number, [], ending⟩]

theorem splitFrom_emptied (final : ending = .none → below = []) :
    splitFrom number (ending.text ++ below) = emptied number ending ++ splitFrom (number + 1) below := by
  by_cases ends : ending = .none
  · rw [emptied, if_pos ends, ends, final ends]
    rfl
  · rw [emptied, if_neg ends]
    exact splitFrom_broken number ends List.not_mem_nil (by simp) below

/-- The last line that is not empty is the same, and a row ends on the line it fills. -/
theorem finish_filled {lines others : List Line} (numbered : Consecutive 1 lines)
    (broken : ∀ line ∈ lines, line.ending ≠ .none) (last : ending = .none → others = []) :
    (finish (lines ++ ⟨1 + lines.length, content, ending⟩ :: others)).line =
      (finish (lines ++ (emptied (1 + lines.length) ending ++ others))).line := by
  rcases List.eq_nil_or_concat others with rfl | ⟨before, bottom, rfl⟩
  · by_cases ends : ending = .none
    · rw [emptied, if_pos ends, finish_concat, List.append_nil, List.append_nil,
        finish_of_broken numbered broken, ends]
      rfl
    · rw [emptied, if_neg ends, List.append_nil, finish_concat, finish_concat]
      cases ending with
      | none => exact absurd rfl ends
      | lf | crlf => rfl
  · rw [List.concat_eq_append, ← List.cons_append, ← List.append_assoc, ← List.append_assoc,
      ← List.append_assoc, finish_concat, finish_concat]

end Line

namespace Mode

variable {setup : Setup} {mode : Mode}

theorem Reads.past_emptied {number : Nat} {ending : LineBreak} {others : List Line} {tokens : List Token}
    {last : Mode} (reads : Reads setup mode (Line.emptied number ending ++ others) tokens (.ok last))
    (outside : mode.opened = none) :
    Reads setup mode others tokens (.ok last) := by
  by_cases ends : ending = .none
  · rwa [Line.emptied, if_pos ends] at reads
  · have blank : mode.read setup ⟨number, [], ending⟩ = (.ok [], mode) := by
      rw [read, outside]
      rfl
    rw [Line.emptied, if_neg ends] at reads
    cases reads with
    | line read further =>
        rw [blank] at read
        cases read
        exact further

theorem read_row {indentation : Text} (indented : ∀ c ∈ indentation, Text.isSpace c = true)
    (cells : List PaddedCell) (number : Nat) (ending : LineBreak) (outside : mode.opened = none)
    (past : mode.headerAllowed = false) :
    ∃ tokens row,
      mode.read setup ⟨number, indentation ++ Row.written cells, ending⟩ = (.ok tokens, mode) ∧
      row.values = cells.map (·.value) ∧ OnLine number tokens ∧
      (∀ token ∈ tokens, token.kind.tabular) ∧ ∀ rest, DerivesRow (tokens ++ rest) row rest := by
  have body : Line.body ⟨number, indentation ++ Row.written cells, ending⟩ = Row.written cells := by
    rw [Line.body, Text.trimStart, List.dropWhile_append_of_pos indented]
    rfl
  obtain ⟨tokens, row, made, values, _, derived⟩ := Row.tokens_written cells
    (Line.start ⟨number, indentation ++ Row.written cells, ending⟩) ending.text
  refine ⟨tokens, row, ?_, values, Row.onLine_tokens _ _ _ _ made,
    fun token member => Row.kind_of_mem_tokens made member, derived⟩
  have shape : Line.shape setup.settings.fenced mode.dialect
      ⟨number, indentation ++ Row.written cells, ending⟩ = .row := by
    rw [Line.shape, body, Row.written]
    cases setup.settings.fenced <;> rfl
  have same : { mode with headerAllowed := false } = mode := by
    rw [← past]
  rw [read, outside]
  simp only
  rw [shape, readShaped, same, Line.tokens, body, made]
  all_goals simp

end Mode

/-- A row behind a step, with nothing of what the grammar sees between them but the name of the step. -/
structure Under (last : Mode) (step : Token) (number : Nat) (first row later : List Token) : Prop where
  ends : ∃ front, uncommented first = front ++ [step] ∨
    ∃ name, uncommented first = front ++ [step, name]
  blocks : ∀ block ∈ last.closed,
    block.location.line < step.location.line ∨ number ≤ block.location.line
  joined : Joined (uncommented later)
  onLine : OnLine number row
  tabular : ∀ token ∈ row, token.kind.tabular

abbrev InOrder (tokens : List Token) : Prop :=
  tokens.Pairwise fun left right => left.location.Before right.location

theorem Mode.Reads.ordered {setup : Setup} {text : Text} {tokens : List Token} {last : Mode}
    (reads : Mode.Reads setup (.initial setup) (Line.split text) tokens (.ok last)) :
    InOrder (uncommented tokens) :=
  (ordered_of_reads reads).filter _

/-- A token that stands in order with others is not among them. -/
theorem notMem_of_ordered {token : Token} {front behind : List Token}
    (ordered : InOrder (front ++ token :: behind)) :
    (∀ other ∈ front, other.location ≠ token.location) ∧
      ∀ other ∈ behind, other.location ≠ token.location := by
  obtain ⟨_, later, across⟩ := List.pairwise_append.mp ordered
  constructor
  · intro other member same
    have before := across other member token List.mem_cons_self
    rw [same] at before
    exact Location.Before.irrefl before
  · intro other member same
    have before := (List.pairwise_cons.mp later).1 other member
    rw [same] at before
    exact Location.Before.irrefl before

/-- Where a token comes only once, a list is cut there in one way. -/
theorem cut_of_ordered {token eof : Token} {front behind before after : List Token}
    (ordered : InOrder (front ++ token :: behind)) (inner : token ≠ eof)
    (same : before ++ token :: after = front ++ token :: (behind ++ [eof])) :
    before = front ∧ after = behind ++ [eof] := by
  obtain ⟨above, below⟩ := notMem_of_ordered ordered
  have first : token ∉ front := fun member => above token member rfl
  have last : token ∉ behind ++ [eof] := by
    intro member
    rcases List.mem_append.mp member with held | final
    · exact below token held rfl
    · exact inner (List.mem_singleton.mp final)
  obtain ⟨left, _, right⟩ := (List.append_cons_inj_of_notMem first last).mp same.symm
  exact ⟨left.symm, right.symm⟩

namespace Under

variable {last : Mode} {step name eof : Token} {number : Nat} {first row later start : List Token}
  (under : Under last step number first row later)

include under

/-- The name that the grammar finds behind the step is on its line, and what is left begins behind the
place of the row. -/
theorem split (ordered : InOrder (uncommented (first ++ later))) (opens : step.kind = .step)
    (named : name.kind = .name) (ends : eof.kind = .eof)
    (within : step :: name :: start <:+ uncommented (first ++ later) ++ [eof]) :
    ∃ front, uncommented first = front ++ [step, name] ∧ start = uncommented later ++ [eof] := by
  have inner : step ≠ eof := by
    rintro rfl
    rw [ends] at opens
    cases opens
  obtain ⟨before, whole⟩ := within
  rw [uncommented_append] at ordered whole
  obtain ⟨front, alone | ⟨other, full⟩⟩ := under.ends
  · rw [alone, List.append_assoc, List.singleton_append] at ordered
    rw [alone, List.append_assoc, List.append_assoc, List.singleton_append] at whole
    obtain ⟨_, rest⟩ := cut_of_ordered ordered inner whole
    -- The next token opens a line, or it is the end of the document.
    cases below : uncommented later with
    | nil =>
        rw [below] at rest
        cases rest
        rw [ends] at named
        cases named
    | cons token more =>
        rw [below] at rest
        cases rest
        have head := under.joined.head name (by rw [below]; rfl)
        rw [named] at head
        cases head
  · rw [full, List.append_assoc] at ordered
    rw [full, List.append_assoc, List.append_assoc] at whole
    obtain ⟨_, rest⟩ := cut_of_ordered ordered inner whole
    cases rest
    exact ⟨front, full, rfl⟩

theorem uncommented_row : uncommented row = row := by
  apply List.filter_eq_self.mpr
  intro token member
  rcases under.tabular token member with pipe | cell | eol
  · simp [pipe]
  · simp [cell]
  · simp [eol]

theorem withRow_eq {blocks : List Block} {front : List Token} (column : Nat)
    (ordered : InOrder (uncommented (first ++ later))) (inner : ∀ token ∈ first ++ later, token.kind ≠ .eof)
    (opens : step.kind = .step) (named : uncommented first = front ++ [step, name])
    (none : free blocks name (uncommented later ++ [eof]) = true) :
    withRow blocks step.location row column (uncommented (first ++ later) ++ [eof]) =
      uncommented (first ++ (row ++ later)) ++ [eof.moveEnd column] := by
  have cut : uncommented (first ++ later) = front ++ step :: name :: uncommented later := by
    rw [uncommented_append, named, List.append_assoc]
    rfl
  obtain ⟨above, below⟩ := notMem_of_ordered (cut ▸ ordered)
  have kept : ∀ token ∈ uncommented (first ++ later), token.kind ≠ .eof :=
    fun token member => inner token ((mem_uncommented _ _).mp member).1
  rw [cut] at kept
  have front_away : ∀ token ∈ front, token.kind ≠ .eof ∧ token.location ≠ step.location :=
    fun token member => ⟨kept token (List.mem_append_left _ member), above token member⟩
  have later_away : ∀ token ∈ uncommented later,
      token.kind ≠ .eof ∧ token.location ≠ step.location := by
    intro token member
    have listed : token ∈ name :: uncommented later := List.mem_cons_of_mem _ member
    exact ⟨kept token (by simp [listed]), below token listed⟩
  calc withRow blocks step.location row column (uncommented (first ++ later) ++ [eof])
      = withRow blocks step.location row column
          (front ++ step :: name :: (uncommented later ++ [eof])) := by rw [cut]; simp
    _ = front ++ step :: name :: (row ++ (uncommented later ++ [eof.moveEnd column])) := by
        rw [withRow_append front_away, withRow, if_pos ⟨opens, rfl, none⟩, withRow_append later_away]
        rfl
    _ = uncommented (first ++ (row ++ later)) ++ [eof.moveEnd column] := by
        simp [named, under.uncommented_row]

theorem unopened {front rest : List Token} {other : Token} {entry : TableRow}
    (ordered : InOrder (uncommented (first ++ (row ++ later))))
    (named : uncommented first = front ++ [step, name]) (ends : eof.kind = .eof)
    (derived : DerivesRow row entry [])
    (within : other :: (row ++ rest) <:+ uncommented (first ++ (row ++ later)) ++ [eof]) :
    openedAfter last.closed other (row ++ rest) = none := by
  have kept := under.uncommented_row
  cases derived with
  | @intro pipe more _ cells opens filled =>
      have cut : uncommented (first ++ (pipe :: more ++ later)) =
          (front ++ [step, name]) ++ pipe :: (more ++ uncommented later) := by
        rw [uncommented_append, uncommented_append, kept, named]
        rfl
      rw [cut] at ordered within
      obtain ⟨before, whole⟩ := within
      have inner : pipe ≠ eof := by
        rintro rfl
        rw [ends] at opens
        cases opens
      have joined : (before ++ [other]) ++ pipe :: (more ++ rest) =
          (front ++ [step, name]) ++ pipe :: (more ++ uncommented later ++ [eof]) := by
        simpa using whole
      obtain ⟨same, _⟩ := cut_of_ordered ordered inner joined
      have last_name : other = name := by
        have lasts := congrArg List.getLast? same
        simpa using lasts
      subst last_name
      -- Between the step and the row no doc string opens.
      cases found : openedAfter _ other (pipe :: more ++ rest) with
      | none => rfl
      | some block =>
          obtain ⟨_, _, ⟨⟩, known, after, before⟩ := openedAfter_eq_some found
          have row_line := under.onLine.line pipe List.mem_cons_self
          have order : step.location.Before other.location := by
            have named := (List.pairwise_append.mp (List.pairwise_append.mp ordered).1).2.1
            exact (List.pairwise_cons.mp named).1 other List.mem_cons_self
          rcases under.blocks block known with early | late
          · rcases order with above | ⟨same, _⟩ <;> omega
          · omega

end Under

section Documents

variable {setup : Setup} {before below indentation : Text} {ending : LineBreak}
  (start : before.AtLineStart) (final : ending = .none → below = [])
  (indented : ∀ c ∈ indentation, Text.isSpace c = true ∧ c ≠ '\n') (cells : List PaddedCell)

include start final

include indented in
theorem split_with_row : Line.split (before ++ (indentation ++ Row.written cells ++ ending.text ++ below)) =
    Line.split before ++ ⟨1 + (Line.split before).length, indentation ++ Row.written cells, ending⟩ ::
      Line.splitFrom (1 + (Line.split before).length + 1) below := by
  have single : '\n' ∉ indentation ++ Row.written cells := by
    intro feed
    rcases List.mem_append.mp feed with margin | inner
    · exact (indented _ margin).2 rfl
    · exact Row.feed_notMem_written cells inner
  have border : (indentation ++ Row.written cells).getLast? = some '|' := by
    rw [List.getLast?_append, Row.getLast?_written]
    rfl
  have filled : indentation ++ Row.written cells ≠ [] := by
    intro empty
    rw [empty] at border
    cases border
  rw [split_insert start, Line.splitFrom_filled _ filled single (by simp [border]) final]

include indented in
/-- The document ends on the same line as before. -/
theorem finish_with_row :
    (Line.finish (Line.split (before ++ (indentation ++ Row.written cells ++ ending.text ++ below)))).line =
      (Line.finish (Line.split (before ++ (ending.text ++ below)))).line := by
  rw [split_with_row start final indented, split_insert start, Line.splitFrom_emptied _ final]
  apply Line.finish_filled (Line.consecutive_split before) (Line.ending_ne_none 1 start.whole)
  intro none
  rw [final none]
  rfl

include indented in
theorem reads_with_row {tokens : List Token} {last : Mode} {step : Token}
    (reads : Mode.Reads setup (.initial setup) (Line.split (before ++ (ending.text ++ below))) tokens
      (.ok last)) (member : step ∈ tokens) (opens : step.kind = .step)
    (above : step.location.line ≤ (Line.split before).length)
    (ignored : ∀ line ∈ Line.split before, step.location.line < line.number →
      Text.Ignored line.content) :
    ∃ first row later entry, tokens = first ++ later ∧
      Mode.Reads setup (.initial setup)
        (Line.split (before ++ (indentation ++ Row.written cells ++ ending.text ++ below)))
        (first ++ (row ++ later)) (.ok last) ∧
      entry.values = cells.map (·.value) ∧ (∀ rest, DerivesRow (row ++ rest) entry rest) ∧
      Under last step (1 + (Line.split before).length) first row later := by
  have numbered := consecutive_insert start (ending.text ++ below)
  rw [split_insert start, Line.splitFrom_emptied _ final] at reads
  rw [Line.splitFrom_emptied _ final] at numbered
  obtain ⟨first, later, middle, rfl, run, left, again⟩ := reads.cut
  -- The step stands above the line that is filled, so it is read before it.
  have inside : step ∈ first := by
    rcases List.mem_append.mp member with here | there
    · exact here
    · have beyond := left.run.1.line_of_mem numbered.drop step there
      omega
  obtain ⟨outside, past, closed, ends⟩ := run.last_step numbered.take (Mode.bounded_initial setup)
    (fun inside => nomatch inside) inside opens ignored
  have further := left.past_emptied outside
  obtain ⟨row, entry, read, values, onLine, tabular, derived⟩ := Mode.read_row
    (fun c within => (indented c within).1) cells (1 + (Line.split before).length) ending outside past
  refine ⟨first, row, later, entry, rfl, ?_, values, derived, ?_⟩
  · rw [split_with_row start final indented]
    exact again (.line read further)
  · constructor
    case ends => exact ends
    case blocks =>
      obtain ⟨finished, fresh, split, idle, _, beyond⟩ := (further.run.1.grows further.run.2
        (Line.consecutive_splitFrom _ below)).blocks
      intro block held
      rw [split, idle outside, List.append_nil] at held
      rcases List.mem_append.mp held with old | new
      · exact Or.inl (closed block old)
      · exact Or.inr (Nat.le_of_succ_le (beyond block new))
    case joined => exact further.run.1.joined
    case onLine => exact onLine
    case tabular => exact tabular

end Documents

theorem Under.derives {setup : Setup} {text other : Text} {last : Mode} {step name : Token} {number : Nat}
    {first row later front : List Token} {entry : TableRow} {feature : Feature}
    (under : Under last step number first row later)
    (reads : Mode.Reads setup (.initial setup) (Line.split text) (first ++ later) (.ok last))
    (filled : Mode.Reads setup (.initial setup) (Line.split other) (first ++ (row ++ later)) (.ok last))
    (finish : (Line.finish (Line.split other)).line = (Line.finish (Line.split text)).line)
    (rows : ∀ rest, DerivesRow (row ++ rest) entry rest) (opens : step.kind = .step)
    (named : uncommented first = front ++ [step, name])
    (none : free (recordedBlocks setup text) name
      (uncommented later ++ [⟨.eof, [], Line.finish (Line.split text)⟩]) = true)
    (derived : (Grammar.placing (.afterDocument setup text)).DerivesDocument
      (presented text (first ++ later)) feature) :
    ((Grammar.placing (.afterDocument setup other)).within
        (presented other (first ++ (row ++ later)))).DerivesDocument
      (presented other (first ++ (row ++ later)))
      (feature.mapSteps (Step.given step.location ⟨[entry], entry.location⟩)) := by
  have mode : (Reader.afterDocument setup text).mode = last := (tokenize_of_reads_ok reads).2.1.reached
  have same : (Reader.afterDocument setup other).mode = last := (tokenize_of_reads_ok filled).2.1.reached
  have blocks : (Reader.afterDocument setup text).mode.blocks = last.closed :=
    recordedBlocks_of_reads reads
  have edited : withRow (Reader.afterDocument setup text).mode.blocks step.location row
      (Line.finish (Line.split other)).column (presented text (first ++ later)) =
        presented other (first ++ (row ++ later)) := by
    have ending : Token.moveEnd (Line.finish (Line.split other)).column
        ⟨.eof, [], Line.finish (Line.split text)⟩ = ⟨.eof, [], Line.finish (Line.split other)⟩ := by
      rw [Token.moveEnd, if_pos rfl, ← finish]
    have moved := under.withRow_eq (Line.finish (Line.split other)).column reads.ordered
      reads.kind_ne_eof opens named none
    rwa [ending] at moved
  have behind : DerivesRow row entry [] := by simpa using rows []
  have unopened : ∀ name rest, name :: (row ++ rest) <:+ presented other (first ++ (row ++ later)) →
      openedAfter (Reader.afterDocument setup text).mode.blocks name (row ++ rest) = Option.none := by
    intro name rest within
    rw [blocks]
    exact under.unopened filled.ordered named rfl behind within
  have carried := (carries_withRow step.location (Line.finish (Line.split other)).column
    (same.trans mode.symm) rows unopened).document derived
  rwa [edited] at carried

/-- Take an accepted document with an empty line, whether or not it has a break, and a step above that line
with nothing but blank lines and comments between, that has neither a table nor a line of a doc string.
Whatever row of padded cells is written into that line with whatever indentation, the document is
tokenized without error and accepted. The step has a table of one row with the values written, and the rest
of the tree is what it was. -/
theorem parse_row_under_step (setup : Setup) (before below indentation : Text) (ending : LineBreak)
    (cells : List PaddedCell) (feature : Feature) (step : Step) (start : before.AtLineStart)
    (final : ending = .none → below = [])
    (indented : ∀ c ∈ indentation, Text.isSpace c = true ∧ c ≠ '\n')
    (parsed : parse setup (before ++ (ending.text ++ below)) = .ok feature)
    (member : .step step ∈ feature.parts) (bare : step.bare = true)
    (above : step.location.line ≤ (Line.split before).length)
    (under : ∀ line ∈ Line.split before, step.location.line < line.number →
      Text.Ignored line.content) :
    ∃ tokens table,
      tokenize setup (before ++ (indentation ++ Row.written cells ++ ending.text ++ below)) =
        .ok tokens ∧
      parse setup (before ++ (indentation ++ Row.written cells ++ ending.text ++ below)) =
        .ok (feature.mapSteps (Step.given step.location table)) ∧
      .step { step with argument := some (.dataTable table) } ∈
        (feature.mapSteps (Step.given step.location table)).parts ∧
      table.values = [cells.map (·.value)] := by
  obtain ⟨all, lexed⟩ := exists_tokens_of_parse parsed
  obtain ⟨tokens, last, reads, rfl⟩ := reads_of_tokenize_ok lexed
  have derived : (Grammar.placing
      (.afterDocument setup (before ++ (ending.text ++ below)))).DerivesDocument
      (presented (before ++ (ending.text ++ below)) tokens) feature := by
    have whole := derivesDocument_of_parse lexed (serves_placing (Transcript.ofTokens lexed)) parsed
    rwa [uncommented_append] at whole
  have each := (derived.traced fun takes => TakesArgument.suffix takes).1 (.step step) member
  cases each with
  | @step token name behind rest role argument within opens named takes =>
      have held : token ∈ tokens :=
        mem_of_mem_presented (within.subset List.mem_cons_self) (by simp [opens])
      -- Reading gives the old tokens with those of the row behind the name of the step.
      obtain ⟨first, row, later, entry, rfl, filled, values, rows, lies⟩ :=
        reads_with_row start final indented cells reads held opens above under
      obtain ⟨front, split, rfl⟩ := lies.split reads.ordered opens named rfl within
      -- A bare step has taken no token for an argument, so the row is all that its argument can be.
      have none := takes.free_eq ⟨token.text, role, name.text, argument, token.location⟩ rfl
      rw [bare] at none
      have further := lies.derives reads filled (finish_with_row start final indented cells) rows opens
        split none derived
      have lexed := (tokenize_of_reads_ok filled).1
      refine ⟨_, ⟨[entry], entry.location⟩, lexed, ?_, ?_, ?_⟩
      · apply parse_of_placing lexed
        rwa [uncommented_append]
      · rw [Feature.parts_mapSteps]
        refine List.mem_map.mpr ⟨_, member, ?_⟩
        rw [Part.mapSteps, Step.given, if_pos ⟨rfl, bare⟩]
      · rw [← values]
        rfl

def Part.canTake (place : Location) : Part → Bool
  | step action => action.bare && decide (action.location = place)
  | _ => false

theorem Part.of_canTake {place : Location} {part : Part} (able : part.canTake place = true) :
    ∃ step, part = .step step ∧ step.bare = true ∧ step.location = place := by
  cases part with
  | heading | examples => cases able
  | step action => exact ⟨action, rfl, by simpa [canTake] using able⟩

def trickyCells : List PaddedCell :=
  [⟨[], ['a', '\\'], ['\t', ' '], by simp [Text.isBlank], by simp [Text.isBlank], by simp [Text.isBlank]⟩,
    ⟨[' '], [], [' ', ' '], by simp [Text.isBlank], by simp, by simp⟩,
    ⟨['\t'], ['\\', 'n', '|', '\n', '\\', '|', ' ', 'x'], [], by simp [Text.isBlank],
      by simp [Text.isBlank], by simp [Text.isBlank]⟩,
    ⟨[], [], [], by simp, by simp, by simp⟩]

def aboveTricky : Text :=
  "Feature: f\n  Scenario: s\n    Given a\n    # why\n\n".toList

def belowTricky : Text :=
  "    Then b\n".toList

def trickyText : Text :=
  "Feature: f\n  Scenario: s\n    Given a\n    # why\n\n \t |a\\\\\t |   |\t\\\\n\\|\\n\\\\\\| x||\r\n    Then b\n".toList

theorem parse_trickyText :
    ∃ (tokens : List Token) (table : DataTable) (step : Step) (feature : Feature),
      tokenize .standard trickyText = .ok tokens ∧
      parse .standard trickyText = .ok feature ∧
      .step { step with argument := some (.dataTable table) } ∈ feature.parts ∧
      step.location = ⟨3, 5⟩ ∧
      table.values =
        [[['a', '\\'], [], ['\\', 'n', '|', '\n', '\\', '|', ' ', 'x'], []]] := by
  have able : (parse .standard (aboveTricky ++ (LineBreak.crlf.text ++ belowTricky))).toOption.map
      (fun feature => feature.parts.any (Part.canTake ⟨3, 5⟩)) = some true := by decide +kernel
  have whole : aboveTricky ++ (" \t ".toList ++ Row.written trickyCells ++ LineBreak.crlf.text ++
      belowTricky) = trickyText := by decide +kernel
  have ignored : ∀ line ∈ Line.split aboveTricky, 3 < line.number →
      line.content.trimStart = [] ∨ line.content.trimStart.head? = some '#' := by decide +kernel
  obtain ⟨feature, parsed, some⟩ := exists_of_outcome able
  obtain ⟨part, member, fits⟩ := List.any_eq_true.mp some
  obtain ⟨step, rfl, bare, place⟩ := Part.of_canTake fits
  obtain ⟨tokens, table, lexed, done, held, values⟩ := parse_row_under_step .standard aboveTricky
    belowTricky " \t ".toList .crlf trickyCells feature step (Or.inr (by decide +kernel))
    (by simp) (by simp [Text.isSpace, Text.spaceRanges]) parsed member bare
    (by rw [place]; decide +kernel) (by rw [place]; exact ignored)
  rw [whole] at lexed done
  exact ⟨tokens, table, step, _, lexed, done, held, place, values⟩

end Gherkin
