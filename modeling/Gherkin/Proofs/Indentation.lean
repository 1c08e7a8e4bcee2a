import Gherkin.Proofs.ChangedCases
import Gherkin.Proofs.Lockstep
import Gherkin.Proofs.SourceLines

/-!
Indentation.

A margin of spaces and tabs in front of every line pushes a whole document to the right and does
nothing else. The indentation of a doc string grows by the margin, and so does what is taken off its
lines, which makes them the same as before, blank lines and lines that stand too far to the left
included. `parse_indent` says so of the feature, its test cases and all errors. Only the end of a
document whose last line has a break stays in the first column.
-/

namespace Gherkin

def Text.indent (text margin : Text) : Text :=
  text.lines.flatMap fun line => margin ++ line

section Margin

variable {margin : Text} (blank : ∀ c ∈ margin, c = ' ' ∨ c = '\t')

include blank

theorem Text.isBlank_of_margin : ∀ c ∈ margin, Text.isBlank c = true := by
  intro c member
  rcases blank c member with space | tab
  · rw [space]; rfl
  · rw [tab]; rfl

theorem Text.isSpace_of_margin : ∀ c ∈ margin, Text.isSpace c = true :=
  fun c member => isSpace_of_isBlank c (isBlank_of_margin blank c member)

theorem DocString.unindent_margin (count : Nat) (text : Text) :
    unindent (count + margin.length) (margin ++ text) = unindent count text := by
  induction margin with
  | nil => rfl
  | cons c rest ih =>
      obtain ⟨first, others⟩ := List.forall_mem_cons.mp (Text.isBlank_of_margin blank)
      rw [List.length_cons, ← Nat.add_assoc, List.cons_append, unindent, if_pos first]
      exact ih fun d member => blank d (List.mem_cons_of_mem c member)

namespace Line

omit blank in
def indent (margin : Text) (line : Line) : Line :=
  { line with content := margin ++ line.content }

theorem Laid.indent {number : Nat} {lines : List Line} (laid : Laid number lines) :
    Laid number (lines.map (indent margin)) := by
  have noFeed : '\n' ∉ margin := fun inside => by simpa using blank '\n' inside
  have noReturn : '\r' ∉ margin := fun inside => by simpa using blank '\r' inside
  induction laid with
  | nil number => exact .nil number
  | last number filled single => exact .last number (by simp [filled]) (by simp [noFeed, single])
  | @broken number content ending rest ends single plain _ ih =>
      apply Laid.broken number ends (by simp [noFeed, single]) _ ih
      intro lf final
      cases content with
      | nil => exact noReturn (List.mem_of_getLast? (by simpa using final))
      | cons c more =>
          apply plain lf
          rwa [List.getLast?_append_of_ne_nil _ (by simp)] at final

theorem split_indent (text : Text) : split (text.indent margin) = (split text).map (indent margin) := by
  have laid := (laid_split text).indent blank
  have whole : text.indent margin = ((split text).map (indent margin)).flatMap raw := by
    rw [Text.indent, ← map_raw_splitFrom 1, List.flatMap_map, List.flatMap_map]
    simp [split, indent, raw]
  rw [whole]
  exact laid.splitFrom_eq

omit blank in
theorem line_finish_indent (lines : List Line) :
    (finish (lines.map (indent margin))).line = (finish lines).line := by
  rw [finish, finish, List.getLast?_map]
  cases lines.getLast? with
  | none => rfl
  | some line => cases ending : line.ending <;> simp [indent, ending]

end Line

end Margin

namespace Change

def indentBy (width : Nat) : Change where
  line := id
  indent := width
  verbatim := id

theorem rises_indentBy (width : Nat) : (indentBy width).Rises :=
  fun _ _ => Iff.rfl

theorem fits_indentBy (width : Nat) (doc : DocString) : (indentBy width).Fits doc := by
  apply fits_of_lines
  case lines =>
      intro line _ row
      have same : row.fill ((indentBy width).verbatim line) = row.fill line := rfl
      rw [same]
      cases row.fill line <;> rfl
  case places => exact fun _ _ => rfl

variable {margin : Text} (blank : ∀ c ∈ margin, c = ' ' ∨ c = '\t') (text : Text)

include blank in
theorem tellsLine_indent (line : Line) : (indentBy margin.length).TellsLine line (line.indent margin) where
  number := rfl
  content := ⟨margin, rfl, rfl, Text.isSpace_of_margin blank⟩
  verbatim count := by
    have raw : (line.indent margin).raw = margin ++ line.raw := List.append_assoc ..
    rw [raw]
    exact DocString.unindent_margin blank count line.raw

/-- Errors of a document and of the indented one: the place is further to the right, or it is the end
in both. -/
def Displaced (margin text : Text) (error other : ParseError) : Prop :=
  other = (indentBy margin.length).parseError error ∨
    ∃ expected found, error = .grammar ⟨Line.finish (Line.split text), expected, found⟩ ∧
      other = .grammar ⟨Line.finish (Line.split (text.indent margin)), expected, found⟩

theorem reports_displaced : (indentBy margin.length).Reports (Displaced margin text) where
  lex _ := Or.inl rfl
  grammar _ _ _ := Or.inl rfl

include blank

theorem tells_finish_indent : (indentBy margin.length).Tells (Displaced margin text)
    ⟨.eof, [], Line.finish (Line.split text)⟩
    ⟨.eof, [], Line.finish (Line.split (text.indent margin))⟩ where
  kind := rfl
  line := by
    rw [Line.split_indent blank]
    exact Line.line_finish_indent _
  location := fun other => absurd rfl other
  text _ _ := rfl
  verbatim := nofun
  unexpected expected found := Or.inr ⟨expected, found, rfl, rfl⟩

theorem outcomes_indent (setup : Setup) : (indentBy margin.length).Outcomes (Displaced margin text)
    (parse setup text) (parse setup (text.indent margin)) := by
  apply outcomes_parse (reports_displaced text) (rises_indentBy margin.length)
  case alongside =>
      rw [Line.split_indent blank]
      apply alongside_of_forall₂
      apply List.forall₂_map_right_iff.mpr
      exact List.forall₂_same.mpr fun line _ => tellsLine_indent blank line
  case ends => exact tells_finish_indent blank text

end Change

/-- An indented document is accepted exactly if the document is. Its feature is the same except that
all columns and the indentation of all doc strings are larger by the width of the margin, and the test
cases and the error of compiling differ in the same way. So do the errors of parsing, unless they name
the end of the document. -/
theorem parse_indent (setup : Setup) (text margin : Text)
    (blank : ∀ c ∈ margin, c = ' ' ∨ c = '\t') :
    ((∃ feature, parse setup text = .ok feature) ↔
      ∃ feature, parse setup (text.indent margin) = .ok feature) ∧
    (∀ feature, parse setup text = .ok feature →
      parse setup (text.indent margin) = .ok ((Change.indentBy margin.length).feature feature) ∧
      ((Change.indentBy margin.length).feature feature).compile =
        (Change.indentBy margin.length).compiled
          (List.map (Change.indentBy margin.length).testCase) feature.compile) ∧
    ∀ error, parse setup text = .error error → ∃ other,
      parse setup (text.indent margin) = .error other ∧ Change.Displaced margin text error other := by
  have outcomes := Change.outcomes_indent blank text setup
  have compiles := fun feature : Feature => (Change.indentBy margin.length).compile_eq_compiled feature
    fun doc _ => Change.fits_indentBy margin.length doc
  cases here : parse setup text with
  | error error =>
      cases there : parse setup (text.indent margin) with
      | ok other =>
          rw [here, there] at outcomes
          exact outcomes.elim
      | error other =>
          rw [here, there] at outcomes
          refine ⟨by simp, by simp, ?_⟩
          rintro _ ⟨⟩
          exact ⟨other, rfl, outcomes⟩
  | ok feature =>
      cases there : parse setup (text.indent margin) with
      | error other =>
          rw [here, there] at outcomes
          exact outcomes.elim
      | ok other =>
          rw [here, there] at outcomes
          refine ⟨by simp, ?_, by simp⟩
          rintro _ ⟨⟩
          exact ⟨congrArg Except.ok outcomes, compiles feature⟩

def hangingText : Text :=
  ("Feature: f\n  Scenario Outline: s\n    Given a\n      \"\"\"\n        <x>\n\n  left\n      \"\"\"\n" ++
    "    Examples:\n      | x |\n      | 1 |").toList

theorem parse_indent_hangingText :
    (∀ c ∈ [' ', '\t'], c = ' ' ∨ c = '\t') ∧ ∃ feature tests, parse .standard hangingText = .ok feature ∧
      feature.compile = .ok tests ∧
      parse .standard (hangingText.indent [' ', '\t']) = .ok ((Change.indentBy 2).feature feature) ∧
      ((Change.indentBy 2).feature feature).compile =
        .ok (tests.map (Change.indentBy 2).testCase) := by
  have blank : ∀ c ∈ [' ', '\t'], c = ' ' ∨ c = '\t' := by simp
  obtain ⟨feature, parsed, accepted⟩ : ∃ feature, parse .standard hangingText = .ok feature ∧
      feature.compile.isOk = true := exists_of_outcome (by decide +kernel)
  obtain ⟨tests, compiled⟩ := exists_of_isOk accepted
  obtain ⟨_, same, _⟩ := parse_indent .standard hangingText [' ', '\t'] blank
  obtain ⟨indented, compiles⟩ := same feature parsed
  rw [compiled] at compiles
  exact ⟨blank, feature, tests, parsed, compiled, indented, compiles⟩

end Gherkin
