import Gherkin.Proofs.Keywords
import Gherkin.Proofs.Streaming

/-!
Step tokens.

A step token holds the text of its keyword and not the entry of the table that matched, so the grammar
looks the text up again. By then the reader may have gone on. Once a step has been read no header can
come any more, so the dialect is the one that the step was read in, and the table has no other entry with
that text.
-/

namespace Gherkin

theorem Dialect.Tells.step {dialect : Dialect} {line : Line} {token : Token}
    (tells : dialect.Tells line token) (kind : token.kind = .step) :
    ∃ surface separator, dialect.step? line.body = some surface ∧ surface.Sets separator ∧
      token = ⟨.step, surface.text ++ separator, line.start⟩ := by
  obtain ⟨location, read⟩ := tells
  cases block : dialect.block? line.body with
  | some surface =>
      simp only [block, kind] at read
      cases read.1
  | none =>
      cases matched : dialect.step? line.body with
      | none =>
          simp only [block, matched, kind] at read
          cases read.1
      | some surface =>
          simp only [block, matched] at read
          obtain ⟨separator, sets, taken⟩ :=
            (Dialect.step?_eq_some_iff.mp matched).fitting.take_width
          refine ⟨surface, separator, rfl, sets, ?_⟩
          rw [← taken, ← read.1, ← read.2, ← location]

namespace Mode

variable {setup : Setup} {mode after : Mode} {line : Line} {token : Token} {queue : List Token}

/-- A line with a step token has content, and no header comes below it. -/
theorem Step.of_step (step : Step setup mode line (token :: queue) after) (kind : token.kind = .step) :
    mode.opened = none ∧ mode.dialect.Tells line token ∧ after = { mode with headerAllowed := false } := by
  cases step with
  | verbatim | comment | header => cases kind
  | content _ outside _ read =>
      exact ⟨outside, Line.tells_of_tokens read List.mem_cons_self (by rw [kind]; rfl), rfl⟩

end Mode

/-- Behind the first token of a line there is no step. -/
theorem Phase.kind_ne_step {stack : ConditionStack} {opened : Option Opening} {queue : List Token}
    (phase : Phase stack opened queue) (token : Token) (member : token ∈ queue) :
    token.kind ≠ .step := by
  cases phase with
  | initial short =>
      rcases short with rfl | ⟨name, rfl, named⟩
      · cases member
      · rw [List.mem_singleton.mp member, named]
        decide
  | tags plain ends =>
      rcases List.mem_append.mp member with tag | ending
      · simp [plain token tag]
      · simp [List.mem_singleton.mp ending, ends]
  | table plain ends =>
      rcases List.mem_append.mp member with cell | ending
      · rcases plain token cell with kind | kind <;> simp [kind]
      · simp [List.mem_singleton.mp ending, ends]
  | docString => cases member

namespace Reader

structure Passes (before after : Reader) : Prop where
  setup : after.setup = before.setup
  lines : ∃ passed, before.unread = passed ++ after.unread ∧
    after.mode = before.mode.through before.setup passed

theorem Passes.refl (reader : Reader) : Passes reader reader :=
  ⟨rfl, [], rfl, rfl⟩

theorem Passes.trans {before middle after : Reader} (first : Passes before middle)
    (second : Passes middle after) : Passes before after := by
  obtain ⟨passed, split, mode⟩ := first.lines
  obtain ⟨further, more, reached⟩ := second.lines
  refine ⟨second.setup.trans first.setup, passed ++ further, ?_, ?_⟩
  · rw [split, more, List.append_assoc]
  · rw [reached, mode, first.setup, Mode.through, Mode.through, Mode.through, List.foldl_append]

theorem passes_line {reader : Reader} {line : Line} {rest : List Line}
    (unread : reader.unread = line :: rest) (tokens : List Token) :
    Passes reader (reader.passLine line (reader.mode.read reader.setup line).2 tokens rest) :=
  ⟨rfl, [line], unread, rfl⟩

theorem passes_pull (lines : List Line) {reader : Reader} (unread : reader.unread = lines) :
    Passes reader (reader.pull lines).2 := by
  induction lines generalizing reader with
  | nil => exact .refl reader
  | cons line rest ih =>
      have passes := passes_line unread
      rw [pull]
      split
      · rename_i error mode read
        rw [read] at passes
        exact passes []
      · rename_i mode read
        rw [read] at passes
        exact (passes []).trans (ih rfl)
      · rename_i token queue mode read
        rw [read] at passes
        exact ⟨rfl, (passes (token :: queue)).lines⟩

theorem passes_next (reader : Reader) : Passes reader reader.next.2 := by
  rw [next]
  split
  · exact ⟨rfl, [], rfl, rfl⟩
  · exact passes_pull _ rfl

theorem passes_later (reader : Reader) (count : Nat) : Passes reader (reader.later count) := by
  induction count with
  | zero => exact .refl reader
  | succ count ih =>
      rw [later_succ]
      exact ih.trans (passes_next _)

theorem later_add (reader : Reader) (first second : Nat) :
    reader.later (first + second) = (reader.later first).later second := by
  rw [later, later, later, List.replicate_add, after, after, after, List.foldl_append]

/-- No header can come any more, so the dialect stays. -/
theorem Passes.dialect {before after : Reader} (passes : Passes before after)
    (past : before.mode.headerAllowed = false) : after.mode.dialect = before.mode.dialect := by
  obtain ⟨passed, _, mode⟩ := passes.lines
  rw [mode]
  exact Mode.dialect_through past passed

variable {reader : Reader} {token : Token}

structure Steps (before : Reader) (token : Token) (after : Reader) (silent : List Line)
    (line : Line) : Prop where
  left : ∃ rest, before.unread = silent ++ line :: rest
  outside : (before.mode.through before.setup silent).opened = none
  tells : (before.mode.through before.setup silent).dialect.Tells line token
  mode : after.mode = { before.mode.through before.setup silent with headerAllowed := false }

theorem steps_of_pull (lines : List Line) (unread : reader.unread = lines)
    (answer : (reader.pull lines).1 = .ok token) (kind : token.kind = .step) :
    ∃ silent line, Steps reader token (reader.pull lines).2 silent line := by
  induction lines generalizing reader with
  | nil =>
      rw [pull, ending] at answer
      cases opened : reader.mode.opened with
      | some opening =>
          rw [opened] at answer
          cases answer
      | none =>
          rw [opened] at answer
          cases answer
          cases kind
  | cons line rest ih =>
      rw [pull] at answer ⊢
      cases read : reader.mode.read reader.setup line with
      | mk result mode =>
          rw [read] at answer
          cases result with
          | error error => cases answer
          | ok tokens =>
              cases tokens with
              | nil =>
                  -- The line is silent, and the next one that is not silent has the token.
                  obtain ⟨silent, other, steps⟩ := ih rfl answer
                  obtain ⟨behind, split⟩ := steps.left
                  have onwards : (reader.mode.through reader.setup (line :: silent)) =
                      mode.through reader.setup silent := by
                    rw [Mode.through, List.foldl_cons, read]
                    rfl
                  refine ⟨line :: silent, other, ⟨behind, ?_⟩, ?_, ?_, ?_⟩
                  · rw [unread, List.cons_append, ← split]
                    rfl
                  · rw [onwards]
                    exact steps.outside
                  · rw [onwards]
                    exact steps.tells
                  · rw [onwards]
                    exact steps.mode
              | cons first queue =>
                  cases answer
                  obtain ⟨outside, tells, after⟩ := (Mode.step_of_read read).of_step kind
                  exact ⟨[], line, ⟨rest, unread⟩, outside, tells, after⟩

/-- A step token is the first one of its line. -/
theorem steps_of_next {setup : Setup} {text : Text} (tracks : Tracks setup text reader)
    (answer : reader.next.1 = .ok token) (kind : token.kind = .step) :
    ∃ silent line, Steps reader token reader.next.2 silent line := by
  unfold next at answer ⊢
  cases queued : reader.queue with
  | nil =>
      rw [queued] at answer
      exact steps_of_pull reader.unread rfl answer kind
  | cons first queue =>
      rw [queued] at answer
      cases answer
      have phase := tracks.phase
      rw [queued] at phase
      exact absurd kind (phase.kind_ne_step token List.mem_cons_self)

/-- A step that has been handed out keeps its keyword, whatever is asked of the reader afterwards. -/
theorem exists_step_of_later {setup : Setup} {text : Text} {count : Nat}
    (answer : ((start setup text).later count).next.1 = .ok token) (kind : token.kind = .step) :
    ∃ before line behind surface separator, Line.split text = before ++ line :: behind ∧
      ((Mode.initial setup).through setup before).opened = none ∧
      ((Mode.initial setup).through setup before).dialect.step? line.body = some surface ∧
      surface.Sets separator ∧ token = ⟨.step, surface.text ++ separator, line.start⟩ ∧
      ∀ further, count < further →
        ((start setup text).later further).mode.dialect.stepKeyword? token.text =
          some surface.keyword := by
  obtain ⟨silent, line, steps⟩ := steps_of_next (reached_later setup text count).tracks answer kind
  have passes := passes_later (start setup text) count
  obtain ⟨passed, split, mode⟩ := passes.lines
  obtain ⟨behind, left⟩ := steps.left
  have onwards : ((start setup text).later count).mode.through
      ((start setup text).later count).setup silent =
        (Mode.initial setup).through setup (passed ++ silent) := by
    rw [mode, passes.setup, Mode.through, Mode.through, Mode.through, List.foldl_append]
    rfl
  have outside := steps.outside
  have tells := steps.tells
  have after := steps.mode
  rw [onwards] at outside tells after
  obtain ⟨surface, separator, matched, sets, rfl⟩ := tells.step kind
  refine ⟨passed ++ silent, line, behind, surface, separator, ?_, outside, matched, sets, rfl, ?_⟩
  · rw [List.append_assoc, ← left]
    exact split
  · intro further later
    obtain ⟨more, rfl⟩ : ∃ more, further = count + 1 + more := Nat.exists_eq_add_of_le later
    have kept := (passes_later ((start setup text).later (count + 1)) more).dialect
      (by rw [later_succ, after])
    rw [later_add, kept, later_succ, after]
    exact Dialect.stepKeyword?_append (Dialect.step?_eq_some_iff.mp matched).listed sets

end Reader

end Gherkin
