import Gherkin.Proofs.Reading

/-!
Blocks in a run.

A run that has closed a block falls into the lines above, a line with the delimiter, the lines between,
the first one after it with the delimiter again, and the lines below. The lines between leave one token
each, and on the lines below the run goes on as if the block had not been there.
-/

namespace Gherkin

theorem Delimiter.fills_iff {delimiter : Delimiter} {body : Text} :
    delimiter.fills body = true ↔
      ∃ rest, body = delimiter.text ++ rest ∧ ∀ c ∈ rest, Text.isSpace c = true := by
  unfold fills
  constructor
  · intro fills
    split at fills
    · rename_i rest found
      exact ⟨rest, (List.isPrefixOf?_eq_some_iff_append_eq.mp found).symm, List.all_eq_true.mp fills⟩
    · cases fills
  · rintro ⟨rest, split, white⟩
    rw [List.isPrefixOf?_eq_some_iff_append_eq.mpr split.symm]
    exact List.all_eq_true.mpr white

theorem Line.fills_of_shape {line : Line} {fenced : Bool} {dialect : Dialect} {delimiter : Delimiter}
    (shape : line.shape fenced dialect = .delimiter delimiter) :
    delimiter.fills line.body = true := by
  have fits := fits_shape fenced dialect line
  rw [shape, Shape.Fits, Delimiter.opening?] at fits
  split at fits
  · rename_i quotes
    cases fits
    exact quotes
  · split at fits
    · rename_i fence
      cases fits
      exact (Bool.and_eq_true_iff.mp fence).2
    · cases fits

def Line.verbatimToken (column : Nat) (line : Line) : Token :=
  ⟨.docStringLine, line.raw, ⟨line.number, column⟩⟩

/-- The lines that a block takes up in a run, and what they leave: a token for each line inside. Behind
the block the run goes on in the mode in front of it, but that no header can come any more. -/
structure Block.Takes (setup : Setup) (block : Block) (start : Mode) (before : List Line)
    (opening : Line) (inside : List Line) (closing : Line) (behind : List Line) (tokens : List Token)
    (last : Mode) : Prop where
  location : block.location = opening.start
  opens : block.delimiter.fills opening.body = true
  differ : ∀ line ∈ inside, ¬ block.delimiter.fills line.body = true
  closes : block.delimiter.fills closing.body = true
  closingLine : block.closingLine = some closing.number
  reads : ∃ (earlier later : List Token) (mode : Mode),
    tokens = earlier ++ inside.map (Line.verbatimToken block.location.column) ++ later ∧
      Mode.Run setup start before earlier mode ∧ mode.opened = none ∧
      Mode.Run setup { mode with headerAllowed := false, closed := mode.closed ++ [block] } behind
        later last

namespace Mode

variable {setup : Setup} {mode last : Mode} {lines : List Line} {tokens : List Token}

/-- A doc string that is open at the end was open all the time, or some line opens it. -/
theorem Run.opened_cases {opening : Opening} (run : Run setup mode lines tokens last)
    (still : last.opened = some opening) :
    (mode = last ∧ tokens = lines.map (Line.verbatimToken opening.location.column) ∧
      ∀ line ∈ lines, ¬ opening.delimiter.fills line.body = true) ∨
    ∃ (before : List Line) (line : Line) (inside : List Line) (earlier : List Token) (middle : Mode),
      lines = before ++ line :: inside ∧
      tokens = earlier ++ inside.map (Line.verbatimToken opening.location.column) ∧
      Run setup mode before earlier middle ∧ middle.opened = none ∧
      opening.location = line.start ∧ opening.delimiter.fills line.body = true ∧
      last = { middle with headerAllowed := false, opened := some opening } ∧
      ∀ other ∈ inside, ¬ opening.delimiter.fills other.body = true := by
  induction run with
  | nil mode => exact Or.inl ⟨rfl, rfl, by simp⟩
  | @cons mode after last line rest tokens later step run ih =>
      rcases ih still with ⟨rfl, rfl, differ⟩ |
        ⟨before, other, inside, earlier, middle, rfl, rfl, run, outside, place, fills, same, differ⟩
      · cases step with
        | closing => cases still
        | blank outside | comment outside | header _ _ outside | content _ outside =>
            rw [outside] at still
            cases still
        | verbatim own within differs =>
            rw [within] at still
            cases still
            exact Or.inl ⟨rfl, rfl, List.forall_mem_cons.mpr ⟨differs, differ⟩⟩
        | opening delimiter outside shape =>
            cases still
            exact Or.inr ⟨[], line, rest, [], mode, rfl, rfl, .nil mode, outside, rfl,
              Line.fills_of_shape shape, rfl, differ⟩
      · exact Or.inr ⟨line :: before, other, inside, tokens ++ earlier, middle, rfl,
          (List.append_assoc _ _ _).symm, .cons step run, outside, place, fills, same, differ⟩

/-- A block that is closed at the end was closed before, or some line closes it. -/
theorem Run.closing_of_mem {block : Block} (run : Run setup mode lines tokens last)
    (member : block ∈ last.closed) (fresh : block ∉ mode.closed) :
    ∃ (before : List Line) (line : Line) (behind : List Line) (earlier later : List Token)
        (middle : Mode), lines = before ++ line :: behind ∧ tokens = earlier ++ later ∧
      Run setup mode before earlier middle ∧ middle.opened = some block.toOpening ∧
      block.delimiter.fills line.body = true ∧ block.closingLine = some line.number ∧
      Run setup { middle with closed := middle.closed ++ [block], opened := none } behind later
        last := by
  induction run with
  | nil => exact absurd member fresh
  | @cons mode after last line rest tokens later step run ih =>
      by_cases held : block ∈ after.closed
      · cases step with
        | closing opening within fills =>
            rcases List.mem_append.mp held with old | new
            · exact absurd old fresh
            · obtain rfl := List.mem_singleton.mp new
              exact ⟨[], line, rest, [], later, mode, rfl, rfl, .nil mode, within, fills, rfl, run⟩
        | verbatim | blank | comment | header | opening | content => exact absurd held fresh
      · obtain ⟨before, other, behind, earlier, further, middle, rfl, rfl, early, found⟩ :=
          ih member held
        exact ⟨line :: before, other, behind, tokens ++ earlier, further, middle, rfl,
          (List.append_assoc _ _ _).symm, .cons step early, found⟩

theorem Run.takes_of_mem {block : Block} (run : Run setup mode lines tokens last)
    (outside : mode.opened = none) (member : block ∈ last.closed) (fresh : block ∉ mode.closed) :
    ∃ (before : List Line) (opening : Line) (inside : List Line) (closing : Line)
        (behind : List Line), lines = before ++ opening :: (inside ++ closing :: behind) ∧
      block.Takes setup mode before opening inside closing behind tokens last := by
  obtain ⟨above, closing, behind, earlier, later, middle, rfl, rfl, reached, within, closes, number,
    further⟩ := run.closing_of_mem member fresh
  rcases reached.opened_cases within with ⟨rfl, _⟩ |
    ⟨before, opening, inside, first, start, rfl, rfl, early, free, place, opens, rfl, differ⟩
  · rw [outside] at within
    cases within
  · refine ⟨before, opening, inside, closing, behind, by simp, place, opens, differ, closes, number,
      first, later, start, rfl, early, free, ?_⟩
    -- The block has been opened and closed again, so none is open as before.
    rwa [free]

end Mode

end Gherkin
