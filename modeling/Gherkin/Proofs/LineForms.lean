import Gherkin.Proofs.Partition
import Gherkin.Proofs.Streaming
import Gherkin.Proofs.WatchedParsers

/-!
The form of a line.

A line yields no token, or a single one, or a keyword and perhaps a name, or tags and their end, or the
borders and cells of a row and its end. The end of a document is no token of a line. The grammar takes no
more than this for granted, and so it raises no alarm on any document.
-/

namespace Gherkin

open scoped Computability

namespace Line

inductive Form : List Token → Prop where
  | comment {tokens : List Token} (shape : tokens ∈ single .comment) : Form tokens
  | docStringLine {tokens : List Token} (shape : tokens ∈ single .docStringLine) : Form tokens
  | tags {tokens : List Token} (shape : tokens ∈ single .tag * (single .tag)∗ * single .eol) :
      Form tokens
  | row {tokens : List Token}
      (shape : tokens ∈ single .pipe * ((1 + single .cell) * single .pipe)∗ * single .eol) : Form tokens
  | block {tokens : List Token} (keyword : BlockKeyword)
      (shape : tokens ∈ single (.block keyword) * (1 + single .name)) : Form tokens
  | step {tokens : List Token} (shape : tokens ∈ single .step * (1 + single .name)) : Form tokens
  | description {tokens : List Token} (shape : tokens ∈ single .descriptionLine) : Form tokens

variable {line : Line} {tokens : List Token}

theorem tags_mem_star (number : Nat) (words : List Text.Word) :
    words.map (fun word => ⟨.tag, word.text, ⟨number, word.offset⟩⟩) ∈ (single .tag)∗ := by
  induction words with
  | nil => exact nil_mem_star
  | cons word rest ih =>
      have more : single .tag * (single .tag)∗ ≤ (single .tag)∗ := mul_kstar_le_kstar
      rw [List.map_cons, ← List.singleton_append]
      exact more (Language.append_mem_mul ⟨_, rfl, rfl⟩ ih)

theorem form_tagTokens (some : line.tagWords ≠ []) (legal : line.tagTokens = .ok tokens) :
    Form tokens := by
  obtain ⟨word, rest, words⟩ := List.exists_cons_of_ne_nil some
  have split := line.tagTokens_eq_ok tokens legal
  rw [words, List.map_cons, ← List.singleton_append] at split
  rw [split]
  exact .tags (Language.append_mem_mul
    (Language.append_mem_mul ⟨_, rfl, rfl⟩ (tags_mem_star _ rest)) ⟨_, rfl, rfl⟩)

theorem form_row {start : Location} {ending row : Text}
    (closed : Row.tokens start ending row = .ok tokens) : Form tokens := by
  obtain ⟨rest, rfl, _, _⟩ := Row.tokens_eq_ok start ending row tokens closed
  obtain ⟨fields, trailing, cut⟩ := Row.exists_fields rest
  rw [Row.tokens_of_cut cut] at closed
  split at closed
  · rename_i none
    subst none
    cases closed
    exact .row (Row.partition_of_cut cut start ending).shape
  · cases closed

theorem keywordTokens_mem (line : Line) (kind : TokenKind) (width : Nat) :
    line.keywordTokens kind width ∈ single kind * (1 + single .name) := by
  rw [keywordTokens, ← List.singleton_append]
  refine Language.append_mem_mul ⟨_, rfl, rfl⟩ ?_
  rcases nameTokens_cases (line.start.shift width) (line.body.drop width) with alone | named
  · rw [alone]
    exact Or.inl rfl
  · rw [named]
    exact Or.inr ⟨_, rfl, rfl⟩

theorem form_of_content {fenced : Bool} {dialect : Dialect}
    (filled : (line.shape fenced dialect).isContent = true)
    (read : line.tokens (line.shape fenced dialect) = .ok tokens) : Form tokens := by
  cases shape : line.shape fenced dialect with
  | blank | comment | delimiter =>
      rw [shape] at filled
      cases filled
  | row =>
      rw [shape] at read
      exact form_row read
  | tags =>
      rw [shape] at read
      obtain ⟨rest, body⟩ := body_of_shape_tags fenced dialect line shape
      exact form_tagTokens (tagWords_ne_nil line rest body) read
  | block surface =>
      rw [shape] at read
      cases read
      exact .block surface.keyword (keywordTokens_mem line _ _)
  | step surface =>
      rw [shape] at read
      cases read
      exact .step (keywordTokens_mem line _ _)
  | description =>
      rw [shape] at read
      cases read
      exact .description ⟨_, rfl, rfl⟩

end Line

namespace Mode

variable {setup : Setup} {mode after : Mode} {line : Line} {tokens : List Token}

theorem Step.form (step : Step setup mode line tokens after) : tokens = [] ∨ Line.Form tokens := by
  cases step with
  | closing | blank | opening => exact Or.inl rfl
  | verbatim => exact Or.inr (.docStringLine ⟨_, rfl, rfl⟩)
  | comment => exact Or.inr (.comment ⟨_, rfl, rfl⟩)
  | header => exact Or.inr (.comment ⟨_, rfl, rfl⟩)
  | content _ _ filled read => exact Or.inr (Line.form_of_content filled read)

theorem form_answers (setup : Setup) (mode : Mode) (line : Line) :
    (∃ tokens : List Token, mode.answers setup line = tokens.map .ok ∧
      (tokens = [] ∨ Line.Form tokens) ∧ ∀ token ∈ tokens, token.location.line = line.number) ∨
    ∃ error, mode.answers setup line = [.error error] := by
  cases read : mode.read setup line with
  | mk result after =>
      cases result with
      | ok tokens =>
          have step := step_of_read read
          exact Or.inl ⟨tokens, answers_of_ok read, step.form, step.onLine.line⟩
      | error error => exact Or.inr ⟨error, answers_of_error read⟩

theorem kind_ne_eof_of_answer (lines : List Line) {token : Token}
    (member : .ok token ∈ mode.answersThrough setup lines) : token.kind ≠ .eof := by
  induction lines generalizing mode with
  | nil => cases member
  | cons line rest ih =>
      rw [answersThrough, List.mem_append] at member
      rcases member with here | later
      · cases read : mode.read setup line with
        | mk result after =>
            cases result with
            | ok tokens =>
                rw [answers_of_ok read] at here
                obtain ⟨other, inside, same⟩ := List.mem_map.mp here
                cases same
                exact (step_of_read read).kind_ne_eof _ inside
            | error error =>
                rw [answers_of_error read, List.mem_singleton] at here
                cases here
      · exact ih later

end Mode

/-- The end of a document comes once everything else has been answered. -/
theorem Reader.kind_eq_eof_iff (setup : Setup) (text : Text) (count : Nat) {token : Token}
    (answer : ((start setup text).later count).next.1 = .ok token) :
    token.kind = .eof ↔
      ((Mode.initial setup).answersThrough setup (Line.split text)).length ≤ count := by
  rw [answer_later, lastAnswer_start] at answer
  change ((Mode.initial setup).answersThrough setup (Line.split text))[count]?.getD _ = _ at answer
  constructor
  · intro ends
    by_contra more
    rw [List.getElem?_eq_getElem (Nat.lt_of_not_le more), Option.getD_some] at answer
    exact Mode.kind_ne_eof_of_answer _ (answer ▸ List.getElem_mem _) ends
  · intro past
    rw [List.getElem?_eq_none past, Option.getD_none, finalAnswer] at answer
    split at answer
    · cases answer
    · cases answer
      rfl

/-- Each line is answered on with tokens of a fixed form, all on that line, or with an error, and the end
of a document comes only behind the answers on all its lines. So the parser takes nothing for granted that
could not be: with an alarm for each such thing it still comes to the same answer, and to no alarm,
whatever it parsed before. -/
theorem no_alarm (setup : Setup) (text : Text) :
    (∀ (mode : Mode) (line : Line),
      (∃ tokens : List Token, mode.answers setup line = tokens.map .ok ∧
        (tokens = [] ∨ Line.Form tokens) ∧ ∀ token ∈ tokens, token.location.line = line.number) ∨
      ∃ error, mode.answers setup line = [.error error]) ∧
    (∀ count, ((Reader.start setup text).later count).next.1 =
      ((Mode.initial setup).answersThrough setup (Line.split text))[count]?.getD
        (finalAnswer setup text)) ∧
    (∀ count token, ((Reader.start setup text).later count).next.1 = .ok token →
      (token.kind = .eof ↔
        ((Mode.initial setup).answersThrough setup (Line.split text)).length ≤ count)) ∧
    ∀ documents, Watch.parse ((Reader.start setup []).afterParsing documents) text =
      some ((parse setup text).mapError .fault) := by
  refine ⟨Mode.form_answers setup, ?_, ?_, fun documents => Watch.parse_eq setup documents text⟩
  · intro count
    rw [Reader.answer_later, Reader.lastAnswer_start]
    rfl
  · exact fun count token answer => Reader.kind_eq_eof_iff setup text count answer

end Gherkin
