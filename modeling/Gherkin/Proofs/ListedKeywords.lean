import Gherkin.Proofs.Keywords
import Gherkin.Proofs.Positions

/-!
Listed step keywords.

A line that begins with a step keyword of its dialect is a step, unless another listing stands in the way.
Of all listings with one text only the first is kept, whether or not white space must follow it. So a
keyword that needs nothing behind it is lost where its text was listed with a space before, unless the line
has white space there or another keyword fits.
-/

namespace Gherkin

namespace Dialect

/-- A line that begins with a word and yet with no keyword of the table: the word needs nothing behind it,
but the first listing of its text needs the white space that the line lacks, and no other entry fits. -/
structure Drops (dialect : Dialect) (word body : Text) : Prop where
  bare : word.trimEnd = word
  covered : ∃ first, dialect.stepListings.find? (·.text = word) = some first ∧ first.separated = true
  joined : ∀ c ∈ (body.drop word.length).head?, Text.isSpace c = false
  alone : ∀ surface ∈ dialect.stepTable, surface.text ≠ word → ¬ surface.Starts body

variable {dialect : Dialect} {keyword : StepKeyword} {word body : Text}

theorem listed_of_mem_words (stored : word ∈ dialect.words (.step keyword)) :
    StepSurface.ofWord keyword word ∈ dialect.stepListings :=
  mem_listings.mpr ⟨keyword, mem_stepOrder keyword, word, stored, rfl⟩

theorem step?_eq_none_iff_drops (stored : word ∈ dialect.words (.step keyword))
    (starts : (StepSurface.ofWord keyword word).Starts body) :
    dialect.step? body = none ↔ dialect.Drops word body := by
  obtain ⟨rest, whole, apart⟩ := starts
  rw [step?_eq_none_iff]
  constructor
  · intro unfit
    -- What is listed first under the text of the word begins the line too, so it lacks white space.
    obtain ⟨kept, held, text⟩ := exists_mem_stepTable stored
    have unfitted : ¬ (kept.separated = true → ∃ c, rest.head? = some c ∧ Text.isSpace c = true) :=
      fun fits => unfit kept held ⟨rest, text ▸ whole, fits⟩
    obtain ⟨separated, joined⟩ := Classical.not_imp.mp unfitted
    have bare : word.trimEnd = word := by
      by_contra spaced
      exact joined (apart (decide_eq_true spaced))
    constructor
    case bare => exact bare
    case covered =>
      refine ⟨kept, ?_, separated⟩
      rw [← bare, ← text]
      exact mem_stepTable_iff.mp held
    case joined =>
      intro c first
      have front : (StepSurface.ofWord keyword word).text = word := bare
      rw [whole, front, List.drop_left] at first
      by_contra space
      exact joined ⟨c, first, by simpa using space⟩
    case alone => exact fun surface member _ => unfit surface member
  · intro drops surface member fits
    by_cases same : surface.text = word
    · obtain ⟨first, found, separated⟩ := drops.covered
      have listed := mem_stepTable_iff.mp member
      rw [same, found] at listed
      cases listed
      obtain ⟨behind, split, spaced⟩ := fits
      obtain ⟨c, here, space⟩ := spaced separated
      have solid := drops.joined c (by rw [split, same, List.drop_left]; exact here)
      rw [space] at solid
      cases solid
    · exact drops.alone surface member same fits

theorem not_drops_of_agreeing (stored : word ∈ dialect.words (.step keyword))
    (agree : ∀ first ∈ dialect.stepListings, ∀ other ∈ dialect.stepListings,
      first.text = other.text → first.separated = other.separated) : ¬ dialect.Drops word body := by
  intro drops
  obtain ⟨first, found, separated⟩ := drops.covered
  have text : first.text = word := by simpa using List.find?_some found
  have same := agree first (List.mem_of_find?_eq_some found) _ (listed_of_mem_words stored)
    (text.trans drops.bare.symm)
  rw [separated] at same
  exact of_decide_eq_true same.symm drops.bare

theorem WellFormed.body_ne_nil (sound : dialect.WellFormed)
    (stored : word ∈ dialect.words (.step keyword))
    (starts : (StepSurface.ofWord keyword word).Starts body) : body ≠ [] := by
  obtain ⟨kept, held, same⟩ := exists_mem_stepTable stored
  rintro rfl
  have empty := List.prefix_nil.mp starts.starts_text
  exact sound.text_ne_nil held (same.trans empty)

end Dialect

def Shape.isMarked : Shape → Bool
  | comment | delimiter _ | row | tags | block _ => true
  | blank | step _ | description => false

namespace Line

variable {fenced : Bool} {dialect : Dialect} {line : Line}

theorem shape_eq_keywordShape (filled : line.body ≠ [])
    (unmarked : (line.shape fenced dialect).isMarked = false) :
    line.shape fenced dialect = keywordShape dialect line.body := by
  unfold shape at unmarked ⊢
  cases body : line.body with
  | nil => exact absurd body filled
  | cons c rest =>
      simp only [body] at unmarked ⊢
      by_cases comment : c = '#'
      · simp [comment, Shape.isMarked] at unmarked
      · cases opening : Delimiter.opening? fenced (c :: rest) with
        | some delimiter => simp [comment, opening, Shape.isMarked] at unmarked
        | none =>
            by_cases border : c = '|'
            · simp [border, border ▸ opening, Shape.isMarked] at unmarked
            · by_cases tag : c = '@'
              · simp [tag, tag ▸ opening, Shape.isMarked] at unmarked
              · simp only [if_neg comment, if_neg border, if_neg tag]

theorem shape_of_unmarked (filled : line.body ≠ [])
    (unmarked : (line.shape fenced dialect).isMarked = false) :
    line.shape fenced dialect =
      match dialect.step? line.body with
      | some surface => .step surface
      | none => .description := by
  have same := shape_eq_keywordShape filled unmarked
  rw [same, keywordShape] at unmarked ⊢
  cases block : dialect.block? line.body with
  | some surface =>
      rw [block] at unmarked
      cases unmarked
  | none => rfl

end Line

/-- A line that begins with a listed step keyword, set off if it is listed with a space, and that has no mark
of its own, is a step of the longest keyword that fits, or a line of description if the keyword is dropped.
No keyword is dropped where listings with one text agree on white space. -/
theorem listed_keyword_read {setup : Setup} {mode : Mode} (registered : Mode.Registered setup mode)
    (outside : mode.opened = none) {keyword : StepKeyword} {word : Text}
    (stored : word ∈ mode.dialect.words (.step keyword)) {line : Line}
    (starts : (StepSurface.ofWord keyword word).Starts line.body)
    (unmarked : (line.shape setup.settings.fenced mode.dialect).isMarked = false) :
    (mode.dialect.Drops word line.body →
      (mode.read setup line).1 = .ok [⟨.descriptionLine, line.body, line.start⟩]) ∧
    (¬ mode.dialect.Drops word line.body → ∃ surface,
      Longest (·.text) (·.Starts line.body) mode.dialect.stepTable surface ∧
        (mode.read setup line).1 = .ok (line.keywordTokens .step surface.width)) ∧
    ((∀ first ∈ mode.dialect.stepListings, ∀ other ∈ mode.dialect.stepListings,
        first.text = other.text → first.separated = other.separated) →
      ¬ mode.dialect.Drops word line.body) := by
  have shape := Line.shape_of_unmarked
    (registered.wellFormed.body_ne_nil stored starts) unmarked
  have read : (mode.read setup line).1 =
      line.tokens (line.shape setup.settings.fenced mode.dialect) := by
    rw [Mode.read, outside, shape]
    cases mode.dialect.step? line.body <;> rfl
  have drops := Dialect.step?_eq_none_iff_drops stored starts
  rw [read, shape]
  refine ⟨?_, ?_, Dialect.not_drops_of_agreeing stored⟩
  · intro dropped
    rw [drops.mpr dropped]
    rfl
  · intro kept
    obtain ⟨surface, found⟩ := Option.ne_none_iff_exists'.mp fun none => kept (drops.mp none)
    rw [found]
    exact ⟨surface, Dialect.step?_eq_some_iff.mp found, rfl⟩

def doubledEnglish : Dialect :=
  { Dialect.english with given := ["Given ", "Given"].map String.toList }

theorem wellFormed_doubledEnglish : doubledEnglish.WellFormed :=
  Dialect.wellFormed_of_normal doubledEnglish (by decide) (by decide)

def doubledSetup : Setup where
  registry := Registry.empty.put defaultLanguage doubledEnglish wellFormed_doubledEnglish
  settings := {}
  dialect := doubledEnglish
  known := by decide

def joinedLine : Line :=
  ⟨3, "    Givenx".toList, .lf⟩

def apartLine : Line :=
  ⟨3, "    Given\u3000x".toList, .lf⟩

theorem listed_keyword_read_lines :
    ((Mode.initial doubledSetup).read doubledSetup joinedLine).1 =
      .ok [⟨.descriptionLine, "Givenx".toList, ⟨3, 5⟩⟩] ∧
    ∃ surface,
      Longest (·.text) (·.Starts apartLine.body) doubledEnglish.stepTable surface ∧
        ((Mode.initial doubledSetup).read doubledSetup apartLine).1 =
          .ok (apartLine.keywordTokens .step surface.width) := by
  have registered : Mode.Registered doubledSetup (.initial doubledSetup) := doubledSetup.known
  have stored : "Given".toList ∈ (Mode.initial doubledSetup).dialect.words (.step .given) := by decide
  have joined : (StepSurface.ofWord .given "Given".toList).Starts joinedLine.body :=
    StepSurface.opens_iff.mp (by decide)
  have apart : (StepSurface.ofWord .given "Given".toList).Starts apartLine.body :=
    StepSurface.opens_iff.mp (by decide)
  obtain ⟨dropped, _, _⟩ :=
    listed_keyword_read registered rfl stored joined (by decide +kernel)
  obtain ⟨_, kept, _⟩ :=
    listed_keyword_read registered rfl stored apart (by decide +kernel)
  constructor
  · exact dropped ((Dialect.step?_eq_none_iff_drops stored joined).mp (by decide +kernel))
  · apply kept
    intro drops
    have none := (Dialect.step?_eq_none_iff_drops stored apart).mpr drops
    revert none
    decide +kernel

/-- A line can begin with a listed step keyword and yet be read as a description. -/
theorem keyword_dropped :
    "Given".toList ∈ doubledSetup.dialect.words (.step .given) ∧
      (StepSurface.ofWord .given "Given".toList).Starts joinedLine.body ∧
      ∃ tokens, tokenize doubledSetup "Feature: f\n  Scenario: s\n    Givenx\n".toList = .ok tokens ∧
        ⟨.descriptionLine, joinedLine.body, joinedLine.start⟩ ∈ tokens ∧
        ∀ token ∈ tokens, token.kind ≠ .step := by
  refine ⟨by decide, StepSurface.opens_iff.mp (by decide), ?_⟩
  have outcome : tokenize doubledSetup "Feature: f\n  Scenario: s\n    Givenx\n".toList =
      .ok [⟨.block .feature, "Feature:".toList, ⟨1, 1⟩⟩, ⟨.name, "f".toList, ⟨1, 10⟩⟩,
        ⟨.block .scenario, "Scenario:".toList, ⟨2, 3⟩⟩, ⟨.name, "s".toList, ⟨2, 13⟩⟩,
        ⟨.descriptionLine, "Givenx".toList, ⟨3, 5⟩⟩, ⟨.eof, [], ⟨4, 1⟩⟩] := by decide +kernel
  exact ⟨_, outcome, by decide, by decide⟩

end Gherkin
