import Gherkin.Text

/-!
Placeholders.

A placeholder is a name between angle brackets. The name is not empty, does not begin with white
space, and holds no angle bracket and no line break. A text falls into placeholders and literal
characters in one way only, and values put in for placeholders are not looked at again.
-/

namespace Gherkin

inductive Piece where
  | literal (c : Char)
  | placeholder (name : Text)
  deriving DecidableEq

namespace Piece

def text : Piece → Text
  | literal c => [c]
  | placeholder name => '<' :: name ++ ['>']

def isNameCharacter (c : Char) : Bool :=
  c ≠ '<' && c ≠ '>' && c ≠ '\r' && c ≠ '\n'

/-- The name that a text begins with, given that an opening bracket stands in front of it. -/
def name? (text : Text) : Option Text :=
  match text.takeWhile isNameCharacter, text.dropWhile isNameCharacter with
  | c :: name, '>' :: _ => if Text.isSpace c then none else some (c :: name)
  | _, _ => none

/-- The pieces of a text. What a placeholder covers are literals of the text after its opening
bracket, one for each character of the name and one for the closing bracket. -/
def split : Text → List Piece
  | [] => []
  | '<' :: rest =>
      match name? rest with
      | some name => placeholder name :: (split rest).drop (name.length + 1)
      | none => literal '<' :: split rest
  | c :: rest => literal c :: split rest

/-- A name without its opening bracket is a run of literals. -/
theorem split_of_name (name rest : Text) (fit : ∀ c ∈ name, isNameCharacter c = true) :
    split (name ++ '>' :: rest) = name.map literal ++ literal '>' :: split rest := by
  induction name with
  | nil => rfl
  | cons c more ih =>
      have inside := fit c List.mem_cons_self
      have notOpening : c ≠ '<' := by
        intro same
        subst same
        simp [isNameCharacter] at inside
      rw [List.cons_append, split]
      · simp [ih fun d member => fit d (List.mem_cons_of_mem c member)]
      · exact notOpening

/-- Skipping a name and its closing bracket leads to the pieces after them. -/
theorem drop_split_of_name (name rest : Text) (fit : ∀ c ∈ name, isNameCharacter c = true) :
    (split (name ++ '>' :: rest)).drop (name.length + 1) = split rest := by
  rw [split_of_name name rest fit, List.append_cons]
  exact List.drop_left' (by simp)

theorem name?_eq_some (text name : Text) (found : name? text = some name) :
    ∃ rest, text = name ++ '>' :: rest ∧ ∀ c ∈ name, isNameCharacter c = true := by
  unfold name? at found
  split at found
  · rename_i c more rest taken dropped
    split at found
    · cases found
    · cases found
      refine ⟨rest, ?_, ?_⟩
      · rw [← taken, ← dropped, List.takeWhile_append_dropWhile]
      · rw [← taken]
        exact List.all_eq_true.mp List.all_takeWhile
  · cases found

theorem flatMap_text_literal (chars : Text) : (chars.map literal).flatMap text = chars := by
  simp [List.flatMap_map, text]

theorem flatMap_text_split (source : Text) : (split source).flatMap text = source := by
  fun_induction split source with
  | case1 => rfl
  | case2 rest name found ih =>
      obtain ⟨after, same, fit⟩ := name?_eq_some rest name found
      subst same
      rw [split_of_name name after fit, List.flatMap_append, flatMap_text_literal,
        List.append_cancel_left_eq] at ih
      have tail : (split after).flatMap text = after := by simpa [text] using ih
      simp [text, drop_split_of_name name after fit, tail]
  | case3 rest found ih => simp [text, ih]
  | case4 c rest _ ih => simp [text, ih]

end Piece

structure ExampleRow where
  columns : List Text
  values : List Text
  deriving DecidableEq

namespace ExampleRow

/-- The value under the first column of a name. -/
def value? (row : ExampleRow) (name : Text) : Option Text :=
  ((row.columns.zip row.values).find? fun entry => entry.1 = name).map (·.2)

def fillPiece (row : ExampleRow) : Piece → Except Text Text
  | .literal c => .ok [c]
  | .placeholder name =>
      match row.value? name with
      | some value => .ok value
      | none => .error name

def fill (row : ExampleRow) (text : Text) : Except Text Text := do
  return (← (Piece.split text).mapM row.fillPiece).flatten

end ExampleRow

end Gherkin
