import Gherkin.Proofs.Spread
import Mathlib.Data.List.TakeWhile

/-!
Tag lines.

The words of a text are its maximal runs of characters that are no white space, each with the column
it begins at. A tag line has a token for each word in front of a comment, and one for its end. It is in
error just if one of these words is no tag, and the first such word is the one reported.
-/

namespace Gherkin

namespace Text

/-- A run of characters that are no white space, in a text whose first character has the given column.
It cannot be made longer: white space, or an end of the text, stands on both sides. -/
def IsWord (column : Nat) (text : Text) (word : Word) : Prop :=
  ∃ before after, text = before ++ (word.text ++ after) ∧ word.offset = column + before.length ∧
    word.text ≠ [] ∧ (∀ c ∈ word.text, isSpace c = false) ∧
    (∀ c ∈ before.getLast?, isSpace c = true) ∧ ∀ c ∈ after.head?, isSpace c = true

def firstRun (text : Text) : Text :=
  text.takeWhile fun c => !isSpace c

theorem firstRun_append {run after : Text} (solid : ∀ c ∈ run, isSpace c = false)
    (stops : ∀ c ∈ after.head?, isSpace c = true) : (run ++ after).firstRun = run := by
  rw [firstRun, List.takeWhile_append_of_pos (by simpa using solid)]
  cases after with
  | nil => simp
  | cons c more => simp [stops c rfl]

theorem firstRun_cons_solid {c : Char} (solid : isSpace c = false) (rest : Text) :
    firstRun (c :: rest) = c :: rest.firstRun := by
  simp [firstRun, solid]

section Words

variable {column : Nat} {text rest : Text} {c : Char} {word : Word}

theorem isWord_firstRun (filled : text.firstRun ≠ []) : IsWord column text ⟨column, text.firstRun⟩ := by
  refine ⟨[], text.dropWhile fun c => !isSpace c, List.takeWhile_append_dropWhile.symm, rfl, filled, ?_,
    by simp, ?_⟩
  · intro c inside
    simpa using List.mem_takeWhile_imp inside
  · intro c first
    have stops := List.head?_dropWhile_not (fun c => !isSpace c) text
    rw [Option.mem_def.mp first] at stops
    simpa using stops

theorem IsWord.text_eq (here : IsWord column text word) (first : word.offset = column) :
    word.text = text.firstRun := by
  obtain ⟨before, after, rfl, place, _, solid, _, right⟩ := here
  have none : before = [] := List.eq_nil_of_length_eq_zero (by omega)
  rw [none, List.nil_append, firstRun_append solid right]

theorem IsWord.le_offset (here : IsWord column text word) : column ≤ word.offset := by
  obtain ⟨before, _, _, place, _⟩ := here
  omega

theorem not_isWord_nil : ¬ IsWord column [] word := by
  rintro ⟨before, after, split, _, filled, _⟩
  simp [filled] at split

/-- White space in front makes no difference to the words. -/
theorem isWord_cons_space (space : isSpace c = true) :
    IsWord column (c :: rest) word ↔ IsWord (column + 1) rest word := by
  constructor
  · rintro ⟨before, after, split, place, filled, solid, left, right⟩
    cases before with
    | nil =>
        obtain ⟨first, more, text⟩ := List.exists_cons_of_ne_nil filled
        rw [List.nil_append, text] at split
        obtain ⟨rfl, _⟩ := List.cons.inj split
        exact absurd (solid c (by simp [text])) (by simp [space])
    | cons first before =>
        obtain ⟨_, further⟩ := List.cons.inj split
        rw [List.length_cons] at place
        refine ⟨before, after, further, by omega, filled, solid, ?_, right⟩
        intro other final
        refine left other ?_
        rw [List.getLast?_cons, Option.mem_def.mp final]
        rfl
  · -- What stands before the word only gets longer, and its last character is still white space.
    rintro ⟨before, after, rfl, place, filled, solid, left, right⟩
    refine ⟨c :: before, after, rfl, by rw [List.length_cons]; omega, filled, solid, ?_, right⟩
    intro other final
    rw [List.getLast?_cons] at final
    cases last : before.getLast? with
    | none =>
        rw [last] at final
        cases final
        exact space
    | some found =>
        rw [last] at final
        cases final
        exact left _ last

/-- Any other character begins a word. The words behind it are those that do not go on with it. -/
theorem isWord_cons_solid (solid : isSpace c = false) :
    IsWord column (c :: rest) word ↔ word = ⟨column, firstRun (c :: rest)⟩ ∨
      IsWord (column + 1) rest word ∧ word.offset ≠ column + 1 := by
  constructor
  · intro here
    by_cases first : word.offset = column
    · have text := here.text_eq first
      cases word
      cases first
      exact Or.inl (congrArg _ text)
    · obtain ⟨before, after, split, place, filled, run, left, right⟩ := here
      -- The character is no white space, so a word that begins later does not begin right behind it.
      match before, first with
      | [], first => exact absurd place first
      | [_], _ =>
          obtain ⟨rfl, _⟩ := List.cons.inj split
          exact absurd (left c rfl) (by simp [solid])
      | other :: second :: before, _ =>
          obtain ⟨_, further⟩ := List.cons.inj split
          rw [List.length_cons, List.length_cons] at place
          refine Or.inr ⟨⟨second :: before, after, further, ?_, filled, run, ?_, right⟩, by omega⟩
          · rw [List.length_cons]
            omega
          · exact fun last final => left last (by simpa using final)
  · rintro (rfl | ⟨⟨before, after, rfl, place, filled, run, left, right⟩, further⟩)
    · exact isWord_firstRun (by simp [firstRun_cons_solid solid])
    · cases before with
      | nil => exact absurd place further
      | cons second before =>
          refine ⟨c :: second :: before, after, rfl, ?_, filled, run, ?_, right⟩
          · rw [List.length_cons (a := c)]
            omega
          · exact fun last final => left last (by simpa using final)

end Words

theorem pairwise_wordsFrom (column : Nat) (text : Text) :
    (wordsFrom column text).Pairwise fun left right => left.offset < right.offset := by
  have rises := (spread_wordsFrom 0 column text).rises
  rwa [List.pairwise_map] at rises

theorem mem_wordsFrom_iff (column : Nat) (text : Text) (word : Word) :
    word ∈ wordsFrom column text ↔ IsWord column text word := by
  induction text generalizing column word with
  | nil => simp [wordsFrom, not_isWord_nil]
  | cons c rest ih =>
      rw [wordsFrom]
      cases space : isSpace c with
      | true => exact (ih (column + 1) word).trans (isWord_cons_space space).symm
      | false =>
          rw [isWord_cons_solid space, ← ih, firstRun_cons_solid space]
          have rises := pairwise_wordsFrom (column + 1) rest
          have known := ih (column + 1)
          generalize wordsFrom (column + 1) rest = later at rises known
          -- A word right behind the character is what the rest begins with.
          have apart : (∀ other ∈ later, other.offset ≠ column + 1) → firstRun rest = [] := by
            intro apart
            by_contra filled
            exact apart _ ((known _).mpr (isWord_firstRun filled)) rfl
          cases later with
          | nil => simp [apart]
          | cons first others =>
              obtain ⟨behind, _⟩ := List.pairwise_cons.mp rises
              have here := (known first).mp List.mem_cons_self
              have least := here.le_offset
              by_cases next : first.offset = column + 1
              · have further : ∀ other ∈ others, other.offset ≠ column + 1 := by
                  intro other member
                  have less := behind other member
                  omega
                have left : word ∈ first :: others ∧ word.offset ≠ column + 1 ↔ word ∈ others := by
                  constructor
                  · rintro ⟨member, other⟩
                    rcases List.mem_cons.mp member with rfl | there
                    · exact absurd next other
                    · exact there
                  · exact fun member => ⟨List.mem_cons_of_mem _ member, further word member⟩
                rw [left, ← here.text_eq next]
                simp [next]
              · have all : ∀ other ∈ first :: others, other.offset ≠ column + 1 := by
                  rintro other member
                  rcases List.mem_cons.mp member with rfl | there
                  · exact next
                  · have less := behind other there
                    omega
                have left : word ∈ first :: others ∧ word.offset ≠ column + 1 ↔
                    word ∈ first :: others :=
                  and_iff_left_of_imp (all word)
                rw [left, apart all]
                simp [next]

end Text

namespace Line

def Tagged (text : Text) : Prop :=
  ∃ name, text = '@' :: name ∧ name ≠ [] ∧ '@' ∉ name

theorem isTag_iff (text : Text) : isTag text = true ↔ Tagged text := by
  unfold isTag Tagged
  split
  · simp
  · rename_i other
    simp only [Bool.false_eq_true, false_iff]
    rintro ⟨name, rfl, _⟩
    exact other name rfl

def FirstIllegal (words : List Text.Word) (word : Text.Word) : Prop :=
  ∃ before after, words = before ++ word :: after ∧ (∀ other ∈ before, Tagged other.text) ∧
    ¬ Tagged word.text

theorem tagTokens_eq_ok_iff (line : Line) (tokens : List Token) :
    line.tagTokens = .ok tokens ↔ (∀ word ∈ line.tagWords, Tagged word.text) ∧
      tokens = line.tagWords.map (Text.Word.tag line.number) ++
        [⟨.eol, line.ending.text, ⟨line.number, line.columnAfter line.tagWords⟩⟩] := by
  unfold tagTokens
  split
  · rename_i word found
    have illegal : ¬ Tagged word.text := by
      rw [← isTag_iff]
      simpa using List.find?_some found
    exact ⟨nofun, fun given => absurd (given.1 word (List.mem_of_find?_eq_some found)) illegal⟩
  · rename_i none
    have legal : ∀ word ∈ line.tagWords, Tagged word.text := by
      intro word member
      rw [← isTag_iff]
      simpa using List.find?_eq_none.mp none word member
    exact ⟨fun same => ⟨legal, (Except.ok.inj same).symm⟩, fun given => congrArg _ given.2.symm⟩

theorem tagTokens_eq_error_iff (line : Line) (error : LexError) :
    line.tagTokens = .error error ↔ ∃ word, FirstIllegal line.tagWords word ∧
      error = .illegalTag ⟨line.number, word.offset⟩ word.text := by
  have first (word : Text.Word) : FirstIllegal line.tagWords word ↔
      (line.tagWords.find? fun word => !isTag word.text) = some word := by
    rw [List.find?_eq_some_iff_append, FirstIllegal]
    simp only [← isTag_iff]
    constructor
    · rintro ⟨before, after, split, legal, illegal⟩
      exact ⟨by simpa using illegal, before, after, split, by simpa using legal⟩
    · rintro ⟨illegal, before, after, split, legal⟩
      exact ⟨before, after, split, by simpa using legal, by simpa using illegal⟩
  simp only [first]
  unfold tagTokens
  split
  · rename_i word found
    rw [found]
    constructor
    · exact fun same => ⟨word, rfl, (Except.error.inj same).symm⟩
    · rintro ⟨_, ⟨⟩, rfl⟩
      rfl
  · rename_i none
    rw [none]
    exact ⟨nofun, fun ⟨_, absurd, _⟩ => nomatch absurd⟩

/-- The words of a line in their order, those in front of a comment and the rest. The line has tokens if all
in front are tags, one for each and one for its end right behind them. If they are not, the first that is
no tag is the error, whatever comes behind it. -/
theorem tagTokens_of_words (line : Line) : ∃ words comment : List Text.Word,
    (words ++ comment).Pairwise (fun left right => left.offset < right.offset) ∧
    (∀ word, word ∈ words ++ comment ↔ Text.IsWord 1 line.content word) ∧
    (∀ word ∈ words, word.text.head? ≠ some '#') ∧
    (∀ word ∈ comment.head?, word.text.head? = some '#') ∧
    (∀ tokens, line.tagTokens = .ok tokens ↔ (∀ word ∈ words, Tagged word.text) ∧
      tokens = words.map (Text.Word.tag line.number) ++
        [⟨.eol, line.ending.text, ⟨line.number, line.columnAfter words⟩⟩]) ∧
    ∀ error, line.tagTokens = .error error ↔ ∃ word, FirstIllegal words word ∧
      error = .illegalTag ⟨line.number, word.offset⟩ word.text := by
  have whole : line.tagWords ++
      (Text.wordsFrom 1 line.content).dropWhile (fun word => !startsComment word) =
      Text.wordsFrom 1 line.content :=
    List.takeWhile_append_dropWhile
  refine ⟨line.tagWords, _, whole.symm ▸ Text.pairwise_wordsFrom 1 line.content, ?_, ?_, ?_,
    tagTokens_eq_ok_iff line, tagTokens_eq_error_iff line⟩
  · intro word
    rw [whole]
    exact Text.mem_wordsFrom_iff 1 line.content word
  · intro word inside
    simpa [startsComment] using List.mem_takeWhile_imp inside
  · intro word first
    have stops := List.head?_dropWhile_not (fun word => !startsComment word)
      (Text.wordsFrom 1 line.content)
    rw [Option.mem_def.mp first] at stops
    simpa [startsComment] using stops

end Line

end Gherkin
