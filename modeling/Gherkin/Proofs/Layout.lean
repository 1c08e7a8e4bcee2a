import Gherkin.Proofs.Reading

/-!
Where tokens and doc strings lie.

In a document without errors the lines of tokens rise, doc strings do not overlap, each line
between the delimiters of a doc string holds one token, and no other token lies there. `Layout`
collects these facts about the comment-free tokens of a document and the doc strings the reader
has recorded. All of them come from one induction over the lines each.
-/

namespace Gherkin

def Block.stop (block : Block) : Nat :=
  block.closingLine.getD 0

def Block.Filled (block : Block) : Prop :=
  block.location.line + 1 < block.stop

instance (block : Block) : Decidable block.Filled :=
  inferInstanceAs (Decidable (_ < _))

def uncommented (tokens : List Token) : List Token :=
  tokens.filter fun token => token.kind ≠ .comment

@[simp]
theorem uncommented_append (left right : List Token) :
    uncommented (left ++ right) = uncommented left ++ uncommented right :=
  List.filter_append ..

theorem mem_uncommented (tokens : List Token) (token : Token) :
    token ∈ uncommented tokens ↔ token ∈ tokens ∧ token.kind ≠ .comment := by
  simp [uncommented]

namespace Mode

/-- How a mode grows until the document ends, when `number` is that of the next line. A doc string
that is open will be closed, and all others are still to come. -/
structure Grows (number : Nat) (mode last : Mode) : Prop where
  blocks : ∃ finished later, last.closed = mode.closed ++ finished ++ later ∧
    (mode.opened = none → finished = []) ∧
    (∀ opening, mode.opened = some opening →
      ∃ closing, number ≤ closing ∧ finished = [⟨opening, some closing⟩]) ∧
    ∀ block ∈ later, number ≤ block.location.line
  dialect : mode.headerAllowed = false → last.dialect = mode.dialect
  language : mode.headerAllowed = false → last.language = mode.language

variable {setup : Setup} {mode last : Mode} {lines : List Line} {tokens : List Token}
  {number : Nat}

theorem grows_refl (number : Nat) (mode : Mode) (outside : mode.opened = none) :
    Grows number mode mode where
  blocks := ⟨[], [], by simp, fun _ => rfl, by simp [outside], by simp⟩
  dialect _ := rfl
  language _ := rfl

theorem Run.grows (run : Run setup mode lines tokens last) (outside : last.opened = none)
    (numbered : Line.Consecutive number lines) : Grows number mode last := by
  induction run generalizing number with
  | nil mode => exact grows_refl number mode outside
  | @cons mode after last line rest tokens later step run ih =>
      obtain ⟨here, numbered⟩ := numbered
      have grown := ih outside numbered
      obtain ⟨finished, later, split, idle, closes, fresh⟩ := grown.blocks
      have fresher : ∀ block ∈ later, number ≤ block.location.line :=
        fun block member => Nat.le_of_succ_le (fresh block member)
      cases step with
      | closing opening inside =>
          have none := idle rfl
          subst none
          refine ⟨⟨[⟨opening, some number⟩], later, ?_, ?_, ?_, fresher⟩, grown.dialect,
            grown.language⟩
          · simpa [here] using split
          · simp [inside]
          · intro other same
            rw [inside] at same
            cases same
            exact ⟨number, Nat.le_refl number, rfl⟩
      | verbatim opening inside =>
          refine ⟨⟨finished, later, split, idle, ?_, fresher⟩, grown.dialect, grown.language⟩
          intro other same
          obtain ⟨closing, after, made⟩ := closes other same
          exact ⟨closing, Nat.le_of_succ_le after, made⟩
      | blank free =>
          exact ⟨⟨finished, later, split, idle, by simp [free], fresher⟩, grown.dialect,
            grown.language⟩
      | comment free =>
          exact ⟨⟨finished, later, split, idle, by simp [free], fresher⟩, grown.dialect,
            grown.language⟩
      | header language dialect free _ names =>
          -- A header is read only while headers are allowed.
          have allowed : ¬ mode.headerAllowed = false := by
            intro begun
            simp [header?, begun] at names
          exact ⟨⟨finished, later, split, idle, by simp [free], fresher⟩,
            fun begun => absurd begun allowed, fun begun => absurd begun allowed⟩
      | opening delimiter free =>
          obtain ⟨closing, after, made⟩ := closes _ rfl
          subst made
          refine ⟨⟨[], _ :: later, by simpa using split, fun _ => rfl, by simp [free], ?_⟩,
            fun _ => grown.dialect rfl, fun _ => grown.language rfl⟩
          intro block member
          rcases List.mem_cons.mp member with first | rest
          · rw [first]
            exact Nat.le_of_eq here.symm
          · exact fresher block rest
      | content _ free =>
          have none := idle free
          subst none
          exact ⟨⟨[], later, split, fun _ => rfl, by simp [free], fresher⟩,
            fun _ => grown.dialect rfl, fun _ => grown.language rfl⟩

structure Bounded (number : Nat) (mode : Mode) : Prop where
  closed : ∀ block ∈ mode.closed,
    block.closingLine = some block.stop ∧ block.location.line < block.stop ∧ block.stop < number
  apart : mode.closed.Pairwise fun left right => left.stop < right.location.line
  opened : ∀ opening, mode.opened = some opening → opening.location.line < number ∧
    ∀ block ∈ mode.closed, block.stop < opening.location.line

theorem bounded_initial (setup : Setup) : Bounded 1 (initial setup) where
  closed := by simp [initial]
  apart := List.Pairwise.nil
  opened := by simp [initial]

variable {after : Mode} {line : Line}

theorem Bounded.step (bounded : Bounded number mode) (step : Step setup mode line tokens after)
    (here : line.number = number) : Bounded (number + 1) after := by
  have earlier : ∀ block ∈ mode.closed, block.closingLine = some block.stop ∧
      block.location.line < block.stop ∧ block.stop < number + 1 := by
    intro block member
    obtain ⟨known, ordered, before⟩ := bounded.closed block member
    exact ⟨known, ordered, Nat.lt_succ_of_lt before⟩
  have kept : ∀ opening, mode.opened = some opening → opening.location.line < number + 1 ∧
      ∀ block ∈ mode.closed, block.stop < opening.location.line := by
    intro opening inside
    obtain ⟨before, apart⟩ := bounded.opened opening inside
    exact ⟨Nat.lt_succ_of_lt before, apart⟩
  -- Only delimiters change the blocks. Any other line just comes after all that was known.
  cases step with
  | closing opening inside =>
      obtain ⟨before, apart⟩ := bounded.opened opening inside
      refine ⟨?_, ?_, by simp⟩
      · intro block member
        rcases List.mem_append.mp member with old | new
        · exact earlier block old
        · rw [List.mem_singleton.mp new, here]
          exact ⟨rfl, before, Nat.lt_succ_self number⟩
      · refine List.pairwise_append.mpr ⟨bounded.apart, List.pairwise_singleton _ _, ?_⟩
        intro block member other new
        rw [List.mem_singleton.mp new]
        exact apart block member
  | verbatim => exact ⟨earlier, bounded.apart, kept⟩
  | blank => exact ⟨earlier, bounded.apart, kept⟩
  | comment => exact ⟨earlier, bounded.apart, kept⟩
  | header => exact ⟨earlier, bounded.apart, kept⟩
  | opening delimiter free =>
      refine ⟨earlier, bounded.apart, ?_⟩
      rintro opening ⟨⟩
      refine ⟨Nat.lt_succ_of_le (Nat.le_of_eq here), ?_⟩
      intro block member
      exact Nat.lt_of_lt_of_eq (bounded.closed block member).2.2 here.symm
  | content => exact ⟨earlier, bounded.apart, kept⟩

theorem Bounded.run (bounded : Bounded number mode) (run : Run setup mode lines tokens last)
    (numbered : Line.Consecutive number lines) : Bounded (number + lines.length) last := by
  induction run generalizing number with
  | nil mode => exact bounded
  | cons step _ ih =>
      have grown := ih (bounded.step step numbered.1) numbered.2
      rwa [Nat.add_right_comm, Nat.add_assoc] at grown

/-- Every token bears the number of a line that was read. -/
theorem Run.line_of_mem (run : Run setup mode lines tokens last)
    (numbered : Line.Consecutive number lines) (token : Token) (member : token ∈ tokens) :
    number ≤ token.location.line ∧ token.location.line < number + lines.length := by
  induction run generalizing number with
  | nil => cases member
  | cons step _ ih =>
      rw [List.length_cons]
      rcases List.mem_append.mp member with here | later
      · rw [step.onLine.line token here, numbered.1]
        omega
      · have bounds := ih numbered.2 later
        omega

/-- A line with a line of a doc string has no other token. -/
theorem Step.docString_alone (step : Step setup mode line tokens after) (token : Token)
    (member : token ∈ tokens) (verbatim : token.kind = .docStringLine) :
    tokens = [token] ∧ mode.opened.isSome = true ∧ after = mode := by
  cases step with
  | closing | blank | opening => cases member
  | verbatim opening inside =>
      rw [List.mem_singleton.mp member, inside]
      exact ⟨rfl, rfl, rfl⟩
  | comment =>
      rw [List.mem_singleton.mp member] at verbatim
      cases verbatim
  | header =>
      rw [List.mem_singleton.mp member] at verbatim
      cases verbatim
  | content _ _ filled read =>
      have content := Line.isContent_tokens _ _ _ filled read token member
      rw [verbatim] at content
      cases content

/-- Lines rise from token to token, strictly so around the lines of doc strings. -/
def Rises (left right : Token) : Prop :=
  left.location.line ≤ right.location.line ∧
    (left.kind = .docStringLine ∨ right.kind = .docStringLine →
      left.location.line < right.location.line)

theorem Step.rises (step : Step setup mode line tokens after) : tokens.Pairwise Rises := by
  by_cases verbatim : ∃ token ∈ tokens, token.kind = .docStringLine
  · obtain ⟨token, member, kind⟩ := verbatim
    rw [(step.docString_alone token member kind).1]
    exact List.pairwise_singleton _ _
  · apply List.pairwise_of_forall_mem_list
    intro left leftMember right rightMember
    have leftLine := step.onLine.line left leftMember
    have rightLine := step.onLine.line right rightMember
    refine ⟨by omega, ?_⟩
    rintro (kind | kind)
    · exact absurd ⟨left, leftMember, kind⟩ verbatim
    · exact absurd ⟨right, rightMember, kind⟩ verbatim

theorem Run.rises (run : Run setup mode lines tokens last)
    (numbered : Line.Consecutive number lines) : tokens.Pairwise Rises := by
  induction run generalizing number with
  | nil => exact List.Pairwise.nil
  | cons step run ih =>
      refine List.pairwise_append.mpr ⟨step.rises, ih numbered.2, ?_⟩
      intro left here right later
      have leftLine := step.onLine.line left here
      have rightLine := (run.line_of_mem numbered.2 right later).1
      have first := numbered.1
      exact ⟨by omega, fun _ => by omega⟩

theorem Step.outside_of_mem (step : Step setup mode line tokens after) (token : Token)
    (member : token ∈ tokens) (other : token.kind ≠ .docStringLine) :
    after.opened = none ∧ after.closed = mode.closed := by
  cases step with
  | closing | blank | opening => cases member
  | verbatim => exact absurd (by rw [List.mem_singleton.mp member]) other
  | comment free => exact ⟨free, rfl⟩
  | header _ _ free => exact ⟨free, rfl⟩
  | content _ free => exact ⟨free, rfl⟩

theorem Run.outside (run : Run setup mode lines tokens last) (ended : last.opened = none)
    (numbered : Line.Consecutive number lines) (bounded : Bounded number mode) (token : Token)
    (member : token ∈ tokens) (other : token.kind ≠ .docStringLine) (block : Block)
    (held : block ∈ last.closed) :
    token.location.line < block.location.line ∨ block.stop < token.location.line := by
  induction run generalizing number with
  | nil => cases member
  | cons step run ih =>
      rcases List.mem_append.mp member with here | later
      · obtain ⟨free, same⟩ := step.outside_of_mem token here other
        obtain ⟨finished, fresh, split, idle, _, after⟩ := (run.grows ended numbered.2).blocks
        have onLine : token.location.line = number :=
          (step.onLine.line token here).trans numbered.1
        rw [split, idle free, List.append_nil, same] at held
        rcases List.mem_append.mp held with old | new
        · have before := (bounded.closed block old).2.2
          omega
        · have beyond := after block new
          omega
      · exact ih ended numbered.2 (bounded.step step numbered.1) later held

/-- A line of a doc string bears the column of the delimiter that opened it. -/
theorem Run.block_of_verbatim (run : Run setup mode lines tokens last) (ended : last.opened = none)
    (numbered : Line.Consecutive number lines) (bounded : Bounded number mode) (token : Token)
    (member : token ∈ tokens) (verbatim : token.kind = .docStringLine) :
    ∃ block ∈ last.closed, block.location.line < token.location.line ∧
      token.location.line < block.stop ∧ token.location.column = block.location.column := by
  induction run generalizing number with
  | nil => cases member
  | @cons mode after last line rest tokens later step run ih =>
      rcases List.mem_append.mp member with here | later
      · have onLine : token.location.line = number :=
          (step.onLine.line token here).trans numbered.1
        have grown := run.grows ended numbered.2
        cases step with
        | closing | blank | opening => cases here
        | verbatim opening opened =>
            obtain ⟨finished, fresh, split, _, closes, _⟩ := grown.blocks
            -- No block is open at the end, so the one the line stands in has been closed.
            obtain ⟨closing, after, made⟩ := closes opening opened
            have column : token.location.column = opening.location.column := by
              rw [List.mem_singleton.mp here]
            have held : ⟨opening, some closing⟩ ∈ last.closed := by
              rw [split, made]
              simp
            have start := (bounded.opened opening opened).1
            exact ⟨⟨opening, some closing⟩, held, Nat.lt_of_lt_of_eq start onLine.symm,
              Nat.lt_of_le_of_lt (Nat.le_of_eq onLine) after, column⟩
        | comment | header =>
            rw [List.mem_singleton.mp here] at verbatim
            cases verbatim
        | content _ _ filled read =>
            have content := Line.isContent_tokens _ line tokens filled read token here
            rw [verbatim] at content
            cases content
      · exact ih ended numbered.2 (bounded.step step numbered.1) later

theorem Run.inside (run : Run setup mode lines tokens last) (ended : last.opened = none)
    (numbered : Line.Consecutive number lines) (bounded : Bounded number mode) (token : Token)
    (member : token ∈ tokens) (verbatim : token.kind = .docStringLine) :
    ∃ block ∈ last.closed, block.location.line < token.location.line ∧
      token.location.line < block.stop := by
  obtain ⟨block, held, below, above, _⟩ :=
    run.block_of_verbatim ended numbered bounded token member verbatim
  exact ⟨block, held, below, above⟩

/-- Each line between two delimiters is a token. -/
theorem Run.covered (run : Run setup mode lines tokens last) (ended : last.opened = none)
    (numbered : Line.Consecutive number lines) (bounded : Bounded number mode) (block : Block)
    (held : block ∈ last.closed) (target : Nat) (ahead : number ≤ target)
    (below : block.location.line < target) (above : target < block.stop) :
    ∃ token ∈ tokens, token.kind = .docStringLine ∧ token.location.line = target := by
  induction run generalizing number with
  | nil =>
      have before := (bounded.closed block held).2.2
      omega
  | @cons mode after last line rest tokens later step run ih =>
      by_cases next : number = target
      · have later := bounded.step step numbered.1
        obtain ⟨finished, fresh, split, idle, closes, beyond⟩ :=
          (run.grows ended numbered.2).blocks
        rw [split] at held
        rcases List.mem_append.mp held with known | new
        · rcases List.mem_append.mp known with old | current
          · have before := (later.closed block old).2.2
            omega
          · -- The block is open after this line, so the line is one of its own or opens it.
            cases step with
            | verbatim =>
                exact ⟨_, List.mem_append_left _ List.mem_cons_self, rfl, numbered.1.trans next⟩
            | opening =>
                obtain ⟨closing, _, made⟩ := closes _ rfl
                rw [made, List.mem_singleton] at current
                have start : block.location.line = number := by
                  rw [current]
                  exact numbered.1
                omega
            | closing => simp [idle rfl] at current
            | blank free => simp [idle free] at current
            | comment free => simp [idle free] at current
            | header _ _ free => simp [idle free] at current
            | content _ free => simp [idle free] at current
        · have start := beyond block new
          omega
      · obtain ⟨token, member, found⟩ := ih ended numbered.2 (bounded.step step numbered.1) held
          (by omega)
        exact ⟨token, List.mem_append_right _ member, found⟩

end Mode

/-- Two neighbours stand on one line, or one closes a line and the other opens one. -/
def Joins (left right : Token) : Prop :=
  left.location.line = right.location.line ∧ left.kind.precedes right.kind = true ∨
    left.kind.closesLine = true ∧ right.kind.opensLine = true

structure Joined (tokens : List Token) : Prop where
  chain : tokens.IsChain Joins
  head : ∀ token ∈ tokens.head?, token.kind.opensLine = true
  last : ∀ token ∈ tokens.getLast?, token.kind.closesLine = true

theorem joined_nil : Joined [] :=
  ⟨List.IsChain.nil, by simp, by simp⟩

theorem Joined.append {left right : List Token} (first : Joined left) (second : Joined right) :
    Joined (left ++ right) where
  chain := by
    refine List.isChain_append.mpr ⟨first.chain, second.chain, ?_⟩
    intro token final other start
    exact Or.inr ⟨first.last token final, second.head other start⟩
  head := by
    intro token start
    cases left with
    | nil => exact second.head token start
    | cons other rest => exact first.head token start
  last := by
    intro token final
    rw [List.getLast?_append] at final
    cases ends : right.getLast? with
    | none => exact first.last token (by simpa [ends] using final)
    | some other => exact second.last token (by simpa [ends] using final)

theorem OnLine.joined {number : Nat} {tokens : List Token} (onLine : OnLine number tokens) :
    Joined tokens where
  chain := by
    apply ((List.isChain_map _).mp onLine.chain).imp_of_mem_imp
    intro left right leftMember rightMember precedes
    exact Or.inl ⟨(onLine.line left leftMember).trans (onLine.line right rightMember).symm, precedes⟩
  head token start := onLine.head token.kind (by simp_all)
  last token final := onLine.last token.kind (by simp_all)

namespace Mode

variable {setup : Setup} {mode after last : Mode} {line : Line} {lines : List Line}
  {tokens : List Token}

theorem uncommented_of_content {shape : Shape} (filled : shape.isContent = true)
    (read : line.tokens shape = .ok tokens) : uncommented tokens = tokens := by
  apply List.filter_eq_self.mpr
  intro token member
  have content := Line.isContent_tokens shape line tokens filled read token member
  apply decide_eq_true
  intro comment
  rw [comment] at content
  cases content

theorem Step.joined (step : Step setup mode line tokens after) : Joined (uncommented tokens) := by
  have whole := step.onLine.joined
  cases step with
  | closing | blank | opening => exact joined_nil
  | verbatim => exact whole
  | comment => exact joined_nil
  | header => exact joined_nil
  | content _ _ filled read =>
      rw [uncommented_of_content filled read]
      exact whole

theorem Run.joined (run : Run setup mode lines tokens last) : Joined (uncommented tokens) := by
  induction run with
  | nil => exact joined_nil
  | cons step _ ih =>
      rw [uncommented_append]
      exact step.joined.append ih

end Mode

namespace Line

theorem number_of_getLast? (number : Nat) (lines : List Line)
    (numbered : Consecutive number lines) (line : Line) (final : lines.getLast? = some line) :
    line.number + 1 = number + lines.length := by
  induction lines generalizing number with
  | nil => cases final
  | cons first rest ih =>
      cases rest with
      | nil =>
          have same : first = line := by simpa using final
          rw [← same, numbered.1]
          rfl
      | cons second more =>
          have later := ih (number + 1) numbered.2 (by simpa using final)
          simp only [List.length_cons] at later ⊢
          omega

theorem length_le_finish (lines : List Line) (numbered : Consecutive 1 lines) :
    lines.length ≤ (finish lines).line := by
  unfold finish
  cases final : lines.getLast? with
  | none =>
      rw [List.getLast?_eq_none_iff.mp final]
      exact Nat.zero_le _
  | some line =>
      have number := number_of_getLast? 1 lines numbered line final
      cases ending : line.ending <;> simp only [ending] <;> omega

end Line

structure Layout (blocks : List Block) (tokens : List Token) : Prop where
  closed : ∀ block ∈ blocks,
    block.closingLine = some block.stop ∧ block.location.line < block.stop
  apart : blocks.Pairwise fun left right => left.stop < right.location.line
  rises : tokens.Pairwise Mode.Rises
  outside : ∀ token ∈ tokens, token.kind ≠ .docStringLine → ∀ block ∈ blocks,
    token.location.line < block.location.line ∨ block.stop ≤ token.location.line
  inside : ∀ token ∈ tokens, token.kind = .docStringLine → ∃ block ∈ blocks,
    block.location.line < token.location.line ∧ token.location.line < block.stop
  covered : ∀ block ∈ blocks, ∀ line, block.location.line < line → line < block.stop →
    ∃ token ∈ tokens, token.kind = .docStringLine ∧ token.location.line = line
  chain : tokens.IsChain Joins
  ends : ∀ token ∈ tokens.getLast?, token.kind = .eof

theorem layout_of_reads {setup : Setup} {text : Text} {tokens : List Token} {last : Mode}
    (reads : Mode.Reads setup (.initial setup) (Line.split text) tokens (.ok last)) :
    Layout last.closed
      (uncommented tokens ++ [⟨.eof, [], Line.finish (Line.split text)⟩]) := by
  obtain ⟨run, ended⟩ := reads.run
  have numbered := Line.consecutive_split text
  have bounded := Mode.bounded_initial setup
  have reached := bounded.run run numbered
  have finish := Line.length_le_finish _ numbered
  have lines : ∀ token ∈ uncommented tokens,
      token.location.line < 1 + (Line.split text).length := by
    intro token member
    exact (run.line_of_mem numbered token ((mem_uncommented tokens token).mp member).1).2
  refine ⟨?_, reached.apart, ?_, ?_, ?_, ?_, ?_, ?_⟩
  · intro block member
    exact ⟨(reached.closed block member).1, (reached.closed block member).2.1⟩
  · refine List.pairwise_append.mpr
      ⟨(run.rises numbered).filter _, List.pairwise_singleton _ _, ?_⟩
    intro token member other final
    have before := lines token member
    rw [List.mem_singleton.mp final]
    refine ⟨by simp only; omega, ?_⟩
    rintro (verbatim | verbatim)
    · -- A line of a doc string comes before the closing delimiter, which has a line too.
      obtain ⟨block, held, _, below⟩ := run.inside ended numbered bounded token
        ((mem_uncommented tokens token).mp member).1 verbatim
      have stop := (reached.closed block held).2.2
      simp only
      omega
    · cases verbatim
  · intro token member other block held
    rcases List.mem_append.mp member with real | final
    · have apart := run.outside ended numbered bounded token
        ((mem_uncommented tokens token).mp real).1 other block held
      omega
    · have stop := (reached.closed block held).2.2
      rw [List.mem_singleton.mp final]
      simp only
      omega
  · intro token member verbatim
    rcases List.mem_append.mp member with real | final
    · exact run.inside ended numbered bounded token
        ((mem_uncommented tokens token).mp real).1 verbatim
    · rw [List.mem_singleton.mp final] at verbatim
      cases verbatim
  · intro block held line below above
    obtain ⟨token, member, verbatim, found⟩ := run.covered ended numbered bounded block held line
      (by omega) below above
    refine ⟨token, List.mem_append_left _ ((mem_uncommented tokens token).mpr ⟨member, ?_⟩),
      verbatim, found⟩
    simp [verbatim]
  · refine List.isChain_append.mpr ⟨run.joined.chain, List.IsChain.singleton _, ?_⟩
    rintro token final other ⟨⟩
    exact Or.inr ⟨run.joined.last token final, rfl⟩
  · rw [List.getLast?_concat]
    rintro token ⟨⟩
    rfl

/-! The line of a token tells whether a doc string lies between it and the next one: blocks are apart, and no
line belongs to two of them. -/

namespace Layout

variable {blocks : List Block} {tokens : List Token} (layout : Layout blocks tokens)

include layout

/-- Of two doc strings one ends before the other starts. -/
theorem apart_or {block other : Block} (known : block ∈ blocks) (otherKnown : other ∈ blocks) :
    block = other ∨ block.stop < other.location.line ∨ other.stop < block.location.line := by
  have either := List.Pairwise.forall_of_forall_of_flip
    (R := fun left right : Block =>
      left = right ∨ left.stop < right.location.line ∨ right.stop < left.location.line)
    (fun _ _ => Or.inl rfl) (layout.apart.imp fun before => Or.inr (Or.inl before))
    (layout.apart.imp fun before => Or.inr (Or.inr before))
  exact either known otherKnown

/-- No line touches two doc strings. -/
theorem block_unique {block other : Block} (known : block ∈ blocks) (otherKnown : other ∈ blocks)
    {line : Nat} (above : block.location.line ≤ line) (below : line ≤ block.stop)
    (otherAbove : other.location.line ≤ line) (otherBelow : line ≤ other.stop) : block = other := by
  rcases layout.apart_or known otherKnown with same | before | after
  · exact same
  · omega
  · omega

/-- The closing delimiter shares its line with no line of a doc string. -/
theorem line_ne_stop {token : Token} (member : token ∈ tokens) (verbatim : token.kind = .docStringLine)
    {block : Block} (known : block ∈ blocks) : token.location.line ≠ block.stop := by
  intro same
  obtain ⟨other, otherKnown, above, below⟩ := layout.inside token member verbatim
  have opens := (layout.closed block known).2
  have equal := layout.block_unique known otherKnown (Nat.le_of_lt opens) (Nat.le_refl _)
    (by omega) (by omega)
  rw [← equal, same] at below
  exact Nat.lt_irrefl _ below

/-- What comes after `left` once the lines of a doc string before `line` are passed: the line itself,
or whatever follows the closing delimiter. -/
theorem next_line {before rest : List Token} {left right : Token}
    (split : tokens = before ++ left :: right :: rest) {block : Block} (known : block ∈ blocks)
    {line : Nat} (inside : block.location.line < line) (passed : left.location.line < line)
    (reached : line ≤ right.location.line) :
    (line < block.stop → right.kind = .docStringLine ∧ right.location.line = line) ∧
      (line = block.stop → right.kind = .docStringLine → block.stop < right.location.line) := by
  have rises := layout.rises
  rw [split, List.pairwise_append, List.pairwise_cons, List.pairwise_cons] at rises
  obtain ⟨-, ⟨-, later, -⟩, earlier⟩ := rises
  constructor
  · intro below
    obtain ⟨token, member, verbatim, here⟩ := layout.covered block known line inside below
    rw [split] at member
    -- Only `right` can hold the line: others lie before `left` or strictly after `right`.
    rcases List.mem_append.mp member with old | new
    · have order := (earlier token old left List.mem_cons_self).1
      omega
    · rcases List.mem_cons.mp new with rfl | new
      · omega
      · rcases List.mem_cons.mp new with rfl | new
        · exact ⟨verbatim, here⟩
        · have order := (later token new).2 (Or.inr verbatim)
          omega
  · intro final verbatim
    have different := layout.line_ne_stop (by simp [split]) verbatim known
    omega

end Layout

end Gherkin
