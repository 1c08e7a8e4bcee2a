import Gherkin.Proofs.LineBreaks
import Gherkin.Proofs.Placeholders
import Mathlib.Data.List.Basic
import Mathlib.Order.WellFounded

/-!
Values in the place of placeholders.

A placeholder occurs in a text where a name stands between angle brackets. Two occurrences have no
character in common, so a text falls into occurrences and literal characters in one way only. Filling in
a row of examples copies the literals, puts a value in for each occurrence and looks at no value again;
a scan that goes from one occurrence to the next and copies what lies between them does the same.

No name has a line break in it, so the lines of a text can be filled in one by one.
-/

namespace Gherkin

/-- A place of a text where a name stands between angle brackets. -/
@[ext]
structure Occurrence (text : Text) where
  before : Text
  name : Text
  behind : Text
  isName : Piece.IsName name
  spell : before ++ '<' :: (name ++ '>' :: behind) = text

namespace Occurrence

variable {text : Text}

def start (found : Occurrence text) : Nat :=
  found.before.length

def stop (found : Occurrence text) : Nat :=
  found.start + (found.name.length + 2)

theorem start_lt_stop (found : Occurrence text) : found.start < found.stop := by
  unfold stop
  omega

theorem take_start (found : Occurrence text) : text.take found.start = found.before := by
  obtain ⟨before, name, behind, _, rfl⟩ := found
  exact List.take_left

theorem drop_start (found : Occurrence text) :
    text.drop found.start = '<' :: (found.name ++ '>' :: found.behind) := by
  obtain ⟨before, name, behind, _, rfl⟩ := found
  exact List.drop_left

theorem drop_stop (found : Occurrence text) : text.drop found.stop = found.behind := by
  have brackets : '<' :: (found.name ++ '>' :: found.behind) =
      ('<' :: (found.name ++ ['>'])) ++ found.behind := by simp
  rw [stop, ← List.drop_drop, drop_start, brackets]
  exact List.drop_left' (by simp)

theorem name?_eq (found : Occurrence text) :
    Piece.name? (found.name ++ '>' :: found.behind) = some found.name :=
  Piece.name?_eq_some_iff.mpr ⟨found.isName, found.behind, rfl⟩

/-- Where it begins decides how far it goes. -/
theorem eq_of_start {first second : Occurrence text} (same : first.start = second.start) :
    first = second := by
  have before : first.before = second.before := by
    rw [← first.take_start, same, second.take_start]
  have rest : first.name ++ '>' :: first.behind = second.name ++ '>' :: second.behind := by
    have suffixes := first.drop_start
    rw [same, second.drop_start] at suffixes
    exact (List.cons.inj suffixes).2.symm
  have name : first.name = second.name := by
    have read := first.name?_eq
    rw [rest, second.name?_eq] at read
    exact (Option.some.inj read).symm
  have behind : first.behind = second.behind := by
    rw [name] at rest
    exact (List.cons.inj (List.append_cancel_left rest)).2
  exact Occurrence.ext before name behind

/-- Inside a name and its closing bracket nothing opens. -/
theorem stop_le_start {first second : Occurrence text} (less : first.start < second.start) :
    first.stop ≤ second.start := by
  by_contra inside
  have opening : text[second.start]? = some '<' := by
    have found := congrArg List.head? second.drop_start
    simpa [List.head?_drop] using found
  obtain ⟨index, place⟩ := Nat.exists_eq_add_of_lt less
  have covered : (first.name ++ '>' :: first.behind)[index]? = some '<' := by
    rw [place, Nat.add_assoc, ← List.getElem?_drop, first.drop_start] at opening
    simpa using opening
  have room : index ≤ first.name.length := by
    unfold stop at inside
    omega
  rcases Nat.lt_or_eq_of_le room with within | last
  · rw [List.getElem?_append_left within] at covered
    have fit := first.isName.2 '<' (List.mem_of_getElem? covered)
    simp [Piece.isNameCharacter] at fit
  · rw [last, List.getElem?_append_right (Nat.le_refl _)] at covered
    simp at covered

theorem disjoint (first second : Occurrence text) :
    first = second ∨ first.stop ≤ second.start ∨ second.stop ≤ first.start := by
  rcases Nat.lt_trichotomy first.start second.start with less | same | more
  · exact Or.inr (Or.inl (stop_le_start less))
  · exact Or.inl (eq_of_start same)
  · exact Or.inr (Or.inr (stop_le_start more))

def after (front : Text) (found : Occurrence text) : Occurrence (front ++ text) where
  before := front ++ found.before
  name := found.name
  behind := found.behind
  isName := found.isName
  spell := by rw [List.append_assoc, found.spell]

def ofDrop {offset : Nat} (found : Occurrence (text.drop offset)) : Occurrence text where
  before := text.take offset ++ found.before
  name := found.name
  behind := found.behind
  isName := found.isName
  spell := by rw [List.append_assoc, found.spell, List.take_append_drop]

theorem start_ofDrop {offset : Nat} (found : Occurrence (text.drop offset)) :
    found.ofDrop.start = offset + found.start := by
  have inside : offset < text.length := by
    have spell := congrArg List.length found.spell
    rw [List.length_append, List.length_cons, List.length_drop] at spell
    omega
  have front : (text.take offset).length = offset := List.length_take_of_le (Nat.le_of_lt inside)
  show (text.take offset ++ found.before).length = _
  rw [List.length_append, front]
  rfl

def ofBefore (found : Occurrence text) (earlier : Occurrence found.before) : Occurrence text where
  before := earlier.before
  name := earlier.name
  behind := earlier.behind ++ '<' :: (found.name ++ '>' :: found.behind)
  isName := earlier.isName
  spell := by
    have front := congrArg (· ++ '<' :: (found.name ++ '>' :: found.behind)) earlier.spell
    simpa only [List.append_assoc, List.cons_append, found.spell] using front

theorem start_ofBefore_lt (found : Occurrence text) (earlier : Occurrence found.before) :
    (found.ofBefore earlier).start < found.start := by
  have spell := congrArg List.length earlier.spell
  rw [List.length_append, List.length_cons] at spell
  show earlier.before.length < found.before.length
  omega

def dropBefore (found : Occurrence text) {offset : Nat} (ahead : offset ≤ found.start) :
    Occurrence (text.drop offset) where
  before := found.before.drop offset
  name := found.name
  behind := found.behind
  isName := found.isName
  spell := by rw [← List.drop_append_of_le_length ahead, found.spell]

theorem start_dropBefore (found : Occurrence text) {offset : Nat} (ahead : offset ≤ found.start) :
    (found.dropBefore ahead).start = found.start - offset :=
  List.length_drop

end Occurrence

theorem Text.mentions_iff {text name : Text} :
    text.Mentions name ↔ ∃ found : Occurrence text, found.name = name := by
  constructor
  · rintro ⟨isName, before, behind, spell⟩
    exact ⟨⟨before, name, behind, isName, by simpa using spell⟩, rfl⟩
  · rintro ⟨found, rfl⟩
    exact ⟨found.isName, found.before, found.behind, by simpa using found.spell⟩

namespace Piece

variable {text : Text}

theorem split_of_occurrence (found : Occurrence text) :
    split text = split found.before ++ placeholder found.name :: split found.behind := by
  have front : split text =
      split found.before ++ split ('<' :: (found.name ++ '>' :: found.behind)) := by
    -- An opening bracket ends what may have been a name.
    rw [← split_append rfl (by decide), found.spell]
  rw [front, split, found.name?_eq]
  dsimp only
  rw [drop_split_of_name _ _ found.isName.2]

/-- The pieces spell the text, what stands in their placeholders are names, and every occurrence is one of
the pieces. -/
structure Splits (text : Text) (pieces : List Piece) : Prop where
  spell : pieces.flatMap Piece.text = text
  named : ∀ name, placeholder name ∈ pieces → IsName name
  whole : ∀ found : Occurrence text, ∃ before behind,
    pieces = before ++ placeholder found.name :: behind ∧ before.flatMap Piece.text = found.before

theorem splits_split (text : Text) : Splits text (split text) where
  spell := flatMap_text_split text
  named _ member := isName_of_mem_split member
  whole found :=
    ⟨split found.before, split found.behind, split_of_occurrence found, flatMap_text_split _⟩

theorem text_ne_nil (piece : Piece) : piece.text ≠ [] := by
  cases piece <;> simp [Piece.text]

namespace Splits

variable {piece : Piece} {pieces : List Piece}

theorem tail (splits : Splits (piece.text ++ text) (piece :: pieces)) : Splits text pieces where
  spell := List.append_cancel_left splits.spell
  named name member := splits.named name (List.mem_cons_of_mem piece member)
  whole found := by
    obtain ⟨before, behind, same, front⟩ := splits.whole (found.after piece.text)
    cases before with
    | nil => exact absurd (List.append_eq_nil_iff.mp front.symm).1 piece.text_ne_nil
    | cons first before =>
        obtain ⟨rfl, rest⟩ := List.cons.inj same
        exact ⟨before, behind, rest, List.append_cancel_left front⟩

/-- An occurrence at the start of the text is the first of the pieces. -/
theorem head (splits : Splits text (piece :: pieces)) (found : Occurrence text)
    (first : found.before = []) : piece = placeholder found.name := by
  obtain ⟨before, behind, same, front⟩ := splits.whole found
  cases before with
  | nil => exact (List.cons.inj same).1
  | cons other before =>
      rw [first] at front
      exact absurd (List.append_eq_nil_iff.mp front).1 other.text_ne_nil

theorem eq (splits : Splits text pieces) : pieces = split text := by
  induction pieces generalizing text with
  | nil =>
      have empty : [] = text := splits.spell
      rw [← empty, split]
  | cons piece rest ih =>
      have spell : piece.text ++ rest.flatMap Piece.text = text := splits.spell
      subst spell
      have later := ih splits.tail
      cases piece with
      | placeholder name =>
          let found : Occurrence ((placeholder name).text ++ rest.flatMap Piece.text) :=
            ⟨[], name, rest.flatMap Piece.text, splits.named name List.mem_cons_self,
              by simp [Piece.text]⟩
          rw [split_of_occurrence found, ← later]
          rfl
      | literal c =>
          have spelled : (literal c).text ++ rest.flatMap Piece.text =
            c :: rest.flatMap Piece.text := rfl
          by_cases opening : c = '<'
          · subst opening
            cases read : name? (rest.flatMap Piece.text) with
            | none => rw [spelled, split, read, ← later]
            | some name =>
                obtain ⟨isName, behind, same⟩ := name?_eq_some_iff.mp read
                -- The bracket would begin a placeholder, and then the first piece is not a literal.
                have first := splits.head ⟨[], name, behind, isName, by rw [spelled, same]; rfl⟩ rfl
                cases first
          · rw [spelled, split, ← later]
            exact opening

end Splits

theorem splits_iff {pieces : List Piece} : Splits text pieces ↔ pieces = split text := by
  constructor
  · exact Splits.eq
  · rintro rfl
    exact splits_split text

def filled (value : Text → Text) : Piece → Text
  | literal c => [c]
  | placeholder name => value name

theorem split_of_no_occurrence (clear : Occurrence text → False) : split text = text.map literal := by
  apply Eq.symm
  apply Splits.eq
  constructor
  case spell => exact flatMap_text_literal text
  case named => simp
  case whole => exact fun found => (clear found).elim

end Piece

namespace ExampleRow

variable {row : ExampleRow} {text : Text}

theorem value?_eq (row : ExampleRow) (name : Text) :
    row.value? name = (row.columns.idxOf? name).bind fun index => row.values[index]? := by
  obtain ⟨columns, values⟩ := row
  unfold value?
  induction columns generalizing values with
  | nil => rfl
  | cons column columns ih =>
      cases values with
      | nil => cases (column :: columns).idxOf? name <;> rfl
      | cons value values =>
          by_cases same : column = name
          · simp [same, List.idxOf?_cons]
          · simpa [same, List.idxOf?_cons, Option.bind_map] using ih values

theorem missing?_eq_none (known : ∀ found : Occurrence text, row.value? found.name ≠ none) :
    row.missing? text = none := by
  apply missing?_eq_none_iff.mpr
  intro name mentioned
  obtain ⟨found, rfl⟩ := Text.mentions_iff.mp mentioned
  exact known found

theorem fill_eq_ok {value : Text → Text}
    (known : ∀ found : Occurrence text, row.value? found.name = some (value found.name)) :
    row.fill text = .ok ((Piece.split text).flatMap (Piece.filled value)) := by
  have clear : row.missing? text = none :=
    missing?_eq_none fun found => by simp [known found]
  have replaced : row.replace text = (Piece.split text).flatMap (Piece.filled value) := by
    apply List.flatMap_congr
    intro piece member
    cases piece with
    | literal c => rfl
    | placeholder name =>
        obtain ⟨found, rfl⟩ := Text.mentions_iff.mp (Piece.mem_split_iff.mp member)
        simp [Piece.filled, known found]
  rw [fill_eq, clear, replaced]
  rfl

theorem missing?_of_occurrence (found : Occurrence text) :
    row.missing? text = (row.missing? found.before).or
      (if (row.value? found.name).isNone then some found.name else row.missing? found.behind) := by
  simp only [missing?, Piece.split_of_occurrence found, List.findSome?_append, List.findSome?_cons]
  cases row.value? found.name <;> rfl

theorem replace_of_occurrence (found : Occurrence text) :
    row.replace text = row.replace found.before ++
      ((row.value? found.name).getD (Piece.placeholder found.name).text ++
        row.replace found.behind) := by
  simp only [replace, Piece.split_of_occurrence found, List.flatMap_append, List.flatMap_cons]

def FirstMissing (row : ExampleRow) (found : Occurrence text) : Prop :=
  row.value? found.name = none ∧
    ∀ earlier : Occurrence text, earlier.start < found.start → row.value? earlier.name ≠ none

theorem FirstMissing.missing? {found : Occurrence text} (first : row.FirstMissing found) :
    row.missing? text = some found.name := by
  have clear : row.missing? found.before = none := by
    apply missing?_eq_none
    intro earlier
    exact first.2 (found.ofBefore earlier) (found.start_ofBefore_lt earlier)
  rw [missing?_of_occurrence found, clear, first.1]
  rfl

theorem exists_firstMissing (missing : ∃ found : Occurrence text, row.value? found.name = none) :
    ∃ found : Occurrence text, row.FirstMissing found := by
  obtain ⟨found, absent, least⟩ := WellFounded.has_min (measure Occurrence.start).wf
    {found : Occurrence text | row.value? found.name = none} missing
  exact ⟨found, absent, fun earlier less none => least earlier none less⟩

theorem fill_eq_error_iff {name : Text} :
    row.fill text = .error name ↔
      ∃ found : Occurrence text, found.name = name ∧ row.FirstMissing found := by
  constructor
  · intro failed
    by_cases known : ∃ found : Occurrence text, row.value? found.name = none
    · obtain ⟨found, first⟩ := exists_firstMissing known
      rw [fill_eq, first.missing?] at failed
      cases failed
      exact ⟨found, rfl, first⟩
    · rw [fill_eq, missing?_eq_none fun found absent => known ⟨found, absent⟩] at failed
      cases failed
  · rintro ⟨found, rfl, first⟩
    rw [fill_eq, first.missing?]
    rfl

theorem fill_of_no_occurrence (clear : Occurrence text → False) : row.fill text = .ok text := by
  have literals : (Piece.split text).flatMap (Piece.filled id) = text := by
    rw [Piece.split_of_no_occurrence clear]
    simp [List.flatMap_map, Piece.filled]
  have filled : row.fill text = .ok ((Piece.split text).flatMap (Piece.filled id)) :=
    fill_eq_ok fun found => (clear found).elim
  rw [filled, literals]

/-- The text in front of the first occurrence is copied. -/
theorem fill_of_first (found : Occurrence text) (clear : Occurrence found.before → False) :
    row.fill text =
      match row.value? found.name with
      | some value => (row.fill found.behind).map fun rest => found.before ++ (value ++ rest)
      | none => .error found.name := by
  have front : row.fill found.before = .ok found.before := fill_of_no_occurrence clear
  have none : row.missing? found.before = none :=
    missing?_eq_none fun earlier => (clear earlier).elim
  rw [fill_eq, none] at front
  have copied : row.replace found.before = found.before := Except.ok.inj front
  rw [fill_eq, fill_eq, missing?_of_occurrence found, replace_of_occurrence found, none, copied]
  cases row.value? found.name with
  | none => rfl
  | some value => cases row.missing? found.behind <;> rfl

end ExampleRow

/-! Occurrences cannot overlap, so it makes no difference whether they are found all at once or one after the
other. -/

/-- What a scan finds from an index on: each time the leftmost occurrence that begins there or further
behind, and then on from its end. -/
inductive Scan (text : Text) : Nat → List (Occurrence text) → Prop where
  | done {offset : Nat} (clear : ∀ found : Occurrence text, found.start < offset) : Scan text offset []
  | next {offset : Nat} {first : Occurrence text} {rest : List (Occurrence text)}
      (ahead : offset ≤ first.start)
      (leftmost : ∀ found : Occurrence text, offset ≤ found.start → first.start ≤ found.start)
      (later : Scan text first.stop rest) : Scan text offset (first :: rest)

namespace Scan

variable {text : Text} {offset : Nat} {occurrences : List (Occurrence text)}

theorem mem_of_le (scan : Scan text offset occurrences) {found : Occurrence text}
    (ahead : offset ≤ found.start) : found ∈ occurrences := by
  induction scan with
  | done clear => exact absurd (clear found) (Nat.not_lt.mpr ahead)
  | @next offset first rest here leftmost later ih =>
      rcases Nat.lt_or_eq_of_le (leftmost found ahead) with less | same
      · exact List.mem_cons_of_mem first (ih (Occurrence.stop_le_start less))
      · rw [Occurrence.eq_of_start same]
        exact List.mem_cons_self

theorem exists_from (text : Text) (offset : Nat) : ∃ occurrences, Scan text offset occurrences := by
  by_cases ahead : ∃ found : Occurrence text, offset ≤ found.start
  · obtain ⟨first, here, least⟩ := WellFounded.has_min (measure Occurrence.start).wf
      {found : Occurrence text | offset ≤ found.start} ahead
    have inside : first.stop ≤ text.length := by
      have spell := congrArg List.length first.spell
      simp only [List.length_append, List.length_cons] at spell
      unfold Occurrence.stop Occurrence.start
      omega
    have further := first.start_lt_stop
    have closer : text.length - first.stop < text.length - offset := by
      have start : offset ≤ first.start := here
      omega
    obtain ⟨rest, later⟩ := exists_from text first.stop
    exact ⟨first :: rest, next here (fun found within => Nat.not_lt.mp (least found within)) later⟩
  · exact ⟨[], done fun found => Nat.lt_of_not_le fun within => ahead ⟨found, within⟩⟩
termination_by text.length - offset

end Scan

/-- Copies a text from an index on, with values in place of the given occurrences. -/
def ExampleRow.copy (row : ExampleRow) {text : Text} (offset : Nat) :
    List (Occurrence text) → Except Text Text
  | [] => .ok (text.drop offset)
  | found :: rest =>
      match row.value? found.name with
      | some value => do
          let copied ← row.copy found.stop rest
          return text.extract offset found.start ++ (value ++ copied)
      | none => .error found.name

theorem ExampleRow.copy_eq_fill (row : ExampleRow) {text : Text} {offset : Nat}
    {occurrences : List (Occurrence text)} (scan : Scan text offset occurrences) :
    row.copy offset occurrences = row.fill (text.drop offset) := by
  induction scan with
  | @done offset clear =>
      have none : Occurrence (text.drop offset) → False := by
        intro found
        have before := clear found.ofDrop
        rw [found.start_ofDrop] at before
        omega
      rw [copy, fill_of_no_occurrence none]
  | @next offset first rest ahead leftmost later ih =>
      have none : Occurrence (first.dropBefore ahead).before → False := by
        intro earlier
        have before := (first.dropBefore ahead).start_ofBefore_lt earlier
        have within := leftmost ((first.dropBefore ahead).ofBefore earlier).ofDrop
        rw [Occurrence.start_ofDrop] at within
        rw [first.start_dropBefore ahead] at before
        omega
      have between : text.extract offset first.start = (first.dropBefore ahead).before := by
        rw [List.extract_eq_take_drop, ← List.drop_take, first.take_start]
        rfl
      rw [copy, fill_of_first (first.dropBefore ahead) none, ih, first.drop_stop, between]
      rfl

/-- Filling in is a single pass over the placeholders. They never overlap, and a text falls into them and
literal characters in one way. If each has a value under the first column of its name, the values stand
in the text in their place and are not looked at again; otherwise the leftmost one without a value is
reported. A scan for one placeholder after another that copies what lies between them has the same
outcome. -/
theorem fill_single_pass (row : ExampleRow) (text : Text) :
    (∀ first second : Occurrence text,
      first = second ∨ first.stop ≤ second.start ∨ second.stop ≤ first.start) ∧
    (∀ pieces, Piece.Splits text pieces ↔ pieces = Piece.split text) ∧
    (∀ name, row.value? name = (row.columns.idxOf? name).bind fun index => row.values[index]?) ∧
    (∀ value : Text → Text,
      (∀ found : Occurrence text, row.value? found.name = some (value found.name)) →
        row.fill text = .ok ((Piece.split text).flatMap (Piece.filled value))) ∧
    (∀ name, row.fill text = .error name ↔
      ∃ found : Occurrence text, found.name = name ∧ row.value? found.name = none ∧
        ∀ earlier : Occurrence text, earlier.start < found.start → row.value? earlier.name ≠ none) ∧
    (∃ occurrences, Scan text 0 occurrences) ∧
    ∀ occurrences, Scan text 0 occurrences →
      (∀ found : Occurrence text, found ∈ occurrences) ∧ row.copy 0 occurrences = row.fill text := by
  refine ⟨Occurrence.disjoint, fun pieces => Piece.splits_iff, row.value?_eq, ?_, ?_,
    Scan.exists_from text 0, ?_⟩
  · exact fun value known => row.fill_eq_ok known
  · exact fun name => row.fill_eq_error_iff
  · intro occurrences scan
    exact ⟨fun found => scan.mem_of_le (Nat.zero_le _), row.copy_eq_fill scan⟩

def swapRow : ExampleRow :=
  ⟨["a".toList, "b".toList, "a".toList], ["<b>".toList, "2".toList, "3".toList]⟩

def bracketsText : Text :=
  "1<2 and <a>, <<b>>, < a><b>".toList

theorem fill_bracketsText :
    swapRow.fill bracketsText = .ok "1<2 and <b>, <2>, < a>2".toList ∧
    ∃ found : Occurrence "<b><c d> <e>".toList, found.name = "c d".toList ∧
      swapRow.value? found.name = none ∧
      ∀ earlier : Occurrence "<b><c d> <e>".toList, earlier.start < found.start →
        swapRow.value? earlier.name ≠ none := by
  constructor
  · have named : ∀ piece ∈ Piece.split bracketsText,
        piece = .placeholder "a".toList ∨ piece = .placeholder "b".toList ∨ piece.text.length = 1 := by
      decide
    have known : ∀ found : Occurrence bracketsText,
        swapRow.value? found.name = some ((swapRow.value? found.name).getD []) := by
      intro found
      have member := Piece.mem_split_iff.mpr (Text.mentions_iff.mpr ⟨found, rfl⟩)
      rcases named _ member with first | second | short
      · rw [(Piece.placeholder.inj first)]
        rfl
      · rw [(Piece.placeholder.inj second)]
        rfl
      · simp [Piece.text] at short
    have filled := (fill_single_pass swapRow bracketsText).2.2.2.1
      (fun name => (swapRow.value? name).getD []) known
    exact filled.trans (by decide)
  · obtain ⟨found, name, first⟩ :=
      ((fill_single_pass swapRow "<b><c d> <e>".toList).2.2.2.2.1 "c d".toList).mp (by decide)
    exact ⟨found, name, name ▸ first⟩

/-- A name ends where the line does. -/
theorem Piece.split_append_line {line : Text} (ended : line.getLast? = some '\n') (rest : Text) :
    split (line ++ rest) = split line ++ split rest := by
  obtain ⟨body, rfl⟩ := List.getLast?_eq_some_iff.mp ended
  have feed : ∀ more : Text, split ('\n' :: more) = literal '\n' :: split more := fun _ => rfl
  rw [List.append_assoc, List.singleton_append, split_append rfl (by decide),
    split_append rfl (by decide), feed, feed, List.append_assoc]
  rfl

namespace ExampleRow

variable (row : ExampleRow)

theorem mapM_fill (lines : List Text) :
    lines.mapM row.fill = outcome (lines.findSome? row.missing?) (lines.map row.replace) := by
  have each := mapM_outcome_one row.fill id row.missing? row.replace row.fill_eq lines
  rwa [List.map_id] at each

theorem missing?_append_line {line : Text} (ended : line.getLast? = some '\n') (rest : Text) :
    row.missing? (line ++ rest) = (row.missing? line).or (row.missing? rest) := by
  unfold missing?
  rw [Piece.split_append_line ended, List.findSome?_append]

theorem replace_append_line {line : Text} (ended : line.getLast? = some '\n') (rest : Text) :
    row.replace (line ++ rest) = row.replace line ++ row.replace rest := by
  unfold replace
  rw [Piece.split_append_line ended, List.flatMap_append]

variable {lines : List Text} (ended : ∀ line ∈ lines, line.getLast? = some '\n')

include ended

theorem missing?_flatten : row.missing? lines.flatten = lines.findSome? row.missing? := by
  induction lines with
  | nil => rfl
  | cons line rest ih =>
      obtain ⟨here, later⟩ := List.forall_mem_cons.mp ended
      rw [List.flatten_cons, missing?_append_line row here, ih later, List.findSome?_cons]
      cases row.missing? line <;> rfl

theorem replace_flatten : row.replace lines.flatten = (lines.map row.replace).flatten := by
  induction lines with
  | nil => rfl
  | cons line rest ih =>
      obtain ⟨here, later⟩ := List.forall_mem_cons.mp ended
      rw [List.flatten_cons, replace_append_line row here, ih later, List.map_cons, List.flatten_cons]

theorem fill_flatten : row.fill lines.flatten = (lines.mapM row.fill).map List.flatten := by
  rw [fill_eq, mapM_fill, missing?_flatten row ended, replace_flatten row ended]
  cases lines.findSome? row.missing? <;> rfl

end ExampleRow

/-- The lines of a filled doc string and the placeholder of an error are those of the lines on their own. -/
theorem DocString.fill_lines (row : ExampleRow) (doc : DocString) :
    ((doc.fill row).map DocString.lines).mapError CompileError.placeholder = doc.lines.mapM row.fill := by
  have missing : (doc.sites.findSome? row.failure?).map CompileError.placeholder =
      doc.lines.findSome? row.missing? := by
    rw [← doc.map_text_sites, List.findSome?_map]
    induction doc.sites with
    | nil => rfl
    | cons site rest ih =>
        rw [List.findSome?_cons, List.findSome?_cons, ExampleRow.failure?]
        cases found : row.missing? site.text with
        | none => simpa [found] using ih
        | some name => simp [found]
  rw [fill_eq, ExampleRow.mapM_fill, ← missing]
  cases doc.sites.findSome? row.failure? <;> rfl

theorem DocString.ended_of_parse {setup : Setup} {text : Text} {feature : Feature}
    (parsed : parse setup text = .ok feature) {doc : DocString} (member : doc ∈ feature.docStrings) :
    ∀ line ∈ doc.lines, line.getLast? = some '\n' := by
  intro line held
  obtain ⟨source, _, broken, rfl⟩ := exists_line_of_docString parsed doc member line held
  rw [Line.raw]
  cases ending : source.ending with
  | none => exact absurd ending broken
  | lf =>
      rw [LineBreak.text, unindent_append _ _ rfl]
      exact List.getLast?_concat
  | crlf =>
      rw [LineBreak.text, unindent_append _ _ rfl]
      simp

/-- Filling in a text whose lines end in line feeds is the same as filling in one line after another: it
succeeds if every line does, with the filled lines put together, and fails with the placeholder of the
first line that fails. So it is with doc strings: all lines of those that a document has end in line
feeds. -/
theorem fill_line_by_line (row : ExampleRow) :
    (∀ lines : List Text, (∀ line ∈ lines, line.getLast? = some '\n') →
      ((∃ filled, row.fill lines.flatten = .ok filled) ↔
        ∀ line ∈ lines, ∃ filled, row.fill line = .ok filled) ∧
      row.fill lines.flatten = (lines.mapM row.fill).map List.flatten) ∧
    (∀ doc : DocString, (∀ line ∈ doc.lines, line.getLast? = some '\n') →
      row.fill doc.lines.flatten =
        ((doc.fill row).map fun filled => filled.lines.flatten).mapError CompileError.placeholder) ∧
    ∀ setup text feature, parse setup text = .ok feature →
      ∀ doc ∈ feature.docStrings, ∀ line ∈ doc.lines, line.getLast? = some '\n' := by
  refine ⟨?_, ?_, ?_⟩
  · intro lines ended
    constructor
    · rw [row.fill_eq, exists_ok_outcome, row.missing?_flatten ended, List.findSome?_eq_none_iff]
      simp only [row.fill_eq, exists_ok_outcome]
    · exact row.fill_flatten ended
  · intro doc ended
    rw [row.fill_flatten ended, ← doc.fill_lines row]
    cases doc.fill row <;> rfl
  · intro setup text feature parsed doc member
    exact DocString.ended_of_parse parsed member

def openLines : List Text :=
  ["<a\n".toList, "b> <a>\r\n".toList, "<x\n".toList]

theorem fill_openLines :
    (∀ line ∈ openLines, line.getLast? = some '\n') ∧
    swapRow.fill openLines.flatten = .ok "<a\nb> <b>\r\n<x\n".toList ∧
    swapRow.fill (openLines ++ ["> <c> <d>\n".toList]).flatten = .error "c".toList := by
  have ended : ∀ line ∈ openLines, line.getLast? = some '\n' := by decide
  have more : ∀ line ∈ openLines ++ ["> <c> <d>\n".toList], line.getLast? = some '\n' := by decide
  have filled := ((fill_line_by_line swapRow).1 openLines ended).2
  have failed := ((fill_line_by_line swapRow).1 _ more).2
  exact ⟨ended, filled.trans (by decide), failed.trans (by decide)⟩

end Gherkin
