import Gherkin.Text
import Mathlib.Data.List.Basic

/-!
Unescaped pipes.

A backslash escapes the one character behind it, whatever that is, unless it is escaped itself. The pipes
that are not escaped are the borders of a row. Where one begins to read makes no difference to them, as
long as nothing in front escapes what is read first; so a row can be read as a whole or cell by cell.
-/

namespace Gherkin

namespace Text

/-- Whether the character behind a text is escaped, given whether the first one of the text is. -/
def escapesFrom (escaped : Bool) (text : Text) : Bool :=
  text.foldl (fun escaped c => !escaped && c = '\\') escaped

def escapesNext (text : Text) : Bool :=
  text.escapesFrom false

def borders (text : Text) : List Nat :=
  (List.range text.length).filter fun place =>
    text[place]? = some '|' && !escapesNext (text.take place)

variable {text front : Text}

theorem escapesNext_append (clear : front.escapesNext = false) (text : Text) :
    (front ++ text).escapesNext = text.escapesNext := by
  rw [escapesNext, escapesFrom] at clear
  rw [escapesNext, escapesFrom, List.foldl_append, clear]
  rfl

theorem mem_borders_iff {place : Nat} : place ∈ text.borders ↔
    ∃ before behind, text = before ++ '|' :: behind ∧ before.length = place ∧
      before.escapesNext = false := by
  simp only [borders, List.mem_filter, List.mem_range, Bool.and_eq_true, decide_eq_true_eq,
    Bool.not_eq_true']
  constructor
  · rintro ⟨bound, pipe, clear⟩
    refine ⟨text.take place, text.drop (place + 1), ?_, List.length_take_of_le (by omega), clear⟩
    obtain ⟨_, here⟩ := List.getElem?_eq_some_iff.mp pipe
    rw [← here, List.getElem_cons_drop, List.take_append_drop]
  · rintro ⟨before, behind, rfl, rfl, clear⟩
    simp [clear]

theorem borders_eq_nil_iff : text.borders = [] ↔
    ∀ before behind, text = before ++ '|' :: behind → before.escapesNext = true := by
  rw [List.eq_nil_iff_forall_not_mem]
  constructor
  · intro none before behind split
    by_contra clear
    exact none before.length (mem_borders_iff.mpr ⟨before, behind, split, rfl, by simpa using clear⟩)
  · intro escaped place member
    obtain ⟨before, behind, split, _, clear⟩ := mem_borders_iff.mp member
    rw [escaped before behind split] at clear
    cases clear

theorem borders_append (clear : front.escapesNext = false) (text : Text) :
    (front ++ text).borders = front.borders ++ text.borders.map (front.length + ·) := by
  rw [borders, List.length_append, List.range_add, List.filter_append, List.filter_map]
  congr 1
  · apply List.filter_congr
    intro place inside
    have bound := List.mem_range.mp inside
    rw [List.getElem?_append_left bound, List.take_append_of_le_length (Nat.le_of_lt bound)]
  · apply congrArg
    apply List.filter_congr
    intro place _
    rw [Function.comp_apply, List.getElem?_append_right (Nat.le_add_right _ _),
      Nat.add_sub_cancel_left, List.take_length_add_append, escapesNext_append clear]

/-- A text in which every pipe is escaped, and which does not escape a pipe behind it. -/
structure Sealed (text : Text) : Prop where
  single : text.borders = []
  clear : text.escapesNext = false

theorem sealed_nil : Sealed [] :=
  ⟨rfl, rfl⟩

theorem Sealed.append (first : front.Sealed) (second : text.Sealed) : (front ++ text).Sealed where
  single := by
    rw [borders_append first.clear, first.single, second.single]
    rfl
  clear := by rw [escapesNext_append first.clear, second.clear]

theorem sealed_singleton {c : Char} (border : c ≠ '|') (plain : c ≠ '\\') : Sealed [c] where
  single := by simp [borders, border]
  clear := by simp [escapesNext, escapesFrom, plain]

theorem sealed_of_plain (plain : ∀ c ∈ text, c ≠ '|' ∧ c ≠ '\\') : text.Sealed := by
  induction text with
  | nil => exact sealed_nil
  | cons c rest ih =>
      obtain ⟨here, later⟩ := List.forall_mem_cons.mp plain
      exact (sealed_singleton here.1 here.2).append (ih later)

theorem sealed_of_space (white : ∀ c ∈ text, isSpace c = true) : text.Sealed := by
  apply sealed_of_plain
  intro c inside
  have space := white c inside
  constructor
  · rintro rfl
    cases space
  · rintro rfl
    cases space

theorem sealed_of_blank (blank : ∀ c ∈ text, isBlank c = true) : text.Sealed :=
  sealed_of_space fun c inside => isSpace_of_isBlank c (blank c inside)

/-- What is left without its padding begins with something else. -/
theorem head?_dropBlank (text : Text) : ∀ c ∈ (text.dropWhile isBlank).head?, isBlank c = false := by
  intro c first
  have stops := List.head?_dropWhile_not isBlank text
  rw [Option.mem_def.mp first] at stops
  simpa using stops

theorem Sealed.head? (closed : text.Sealed) : ∀ c ∈ text.head?, c ≠ '|' := by
  rintro c first rfl
  obtain ⟨rest, rfl⟩ := List.head?_eq_some_iff.mp first
  cases borders_eq_nil_iff.mp closed.single [] rest rfl

theorem Sealed.borders_pipe (closed : front.Sealed) (text : Text) :
    borders (front ++ '|' :: text) =
      front.length :: text.borders.map (front.length + 1 + ·) := by
  have border : escapesNext ['|'] = false := rfl
  have pipe : borders ('|' :: text) = 0 :: text.borders.map (1 + ·) := borders_append border text
  rw [borders_append closed.clear, closed.single, pipe]
  simp [Nat.add_assoc]

/-- A text without a border, or else what stands in front of its first border and behind it. -/
theorem exists_sealed (text : Text) :
    text.borders = [] ∨ ∃ front rest, text = front ++ '|' :: rest ∧ front.Sealed := by
  cases found : text.borders with
  | nil => exact Or.inl rfl
  | cons place others =>
      right
      obtain ⟨front, rest, rfl, here, clear⟩ :=
        mem_borders_iff.mp (found ▸ List.mem_cons_self : place ∈ text.borders)
      refine ⟨front, rest, rfl, ?_, clear⟩
      rw [borders_append clear] at found
      cases inner : front.borders with
      | nil => rfl
      | cons first more =>
          -- A border in front would come first.
          rw [inner, List.cons_append, List.cons.injEq] at found
          have member : first ∈ front.borders := inner ▸ List.mem_cons_self
          obtain ⟨before, behind, rfl, length, _⟩ := mem_borders_iff.mp member
          simp at here
          omega

end Text

end Gherkin
