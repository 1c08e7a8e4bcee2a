import Gherkin.Proofs.Reading

/-!
The lines of a text.

A text falls into lines that end after each line feed, and `Text.line?` names one by its number. What
a reader works on are the same lines, with the break of each told apart from its content. `Laid`
describes the lists of lines that a text can fall into, and for these splitting and putting together
are inverse to each other. `Text.finish` counts characters to find where a text ends.
-/

namespace Gherkin

namespace Text

def lines : Text → List Text
  | [] => []
  | '\n' :: rest => ['\n'] :: lines rest
  | c :: rest =>
      match lines rest with
      | [] => [[c]]
      | line :: others => (c :: line) :: others

/-- The line with the given number. Lines are counted from one. -/
def line? (text : Text) : Nat → Option Text
  | 0 => none
  | index + 1 => text.lines[index]?

theorem getLast?_ne_of_cons {c d : Char} {rest : Text} (other : (c :: rest).getLast? ≠ some d) :
    rest.getLast? ≠ some d := by
  cases rest with
  | nil => simp
  | cons e more => simpa using other

end Text

namespace Line

theorem map_raw_splitFrom (number : Nat) (text : Text) :
    (splitFrom number text).map raw = text.lines := by
  fun_induction splitFrom number text with
  | case1 => rfl
  | case2 number rest ih => simp [Text.lines, raw, LineBreak.text, ih]
  | case3 number rest ih => simp [Text.lines, raw, LineBreak.text, ih]
  | case4 number c rest _ feed empty ih =>
      rw [empty] at ih
      rw [Text.lines, ← ih]
      · simp [raw, LineBreak.text]
      · exact feed
  | case5 number c rest _ feed line more found ih =>
      rw [found] at ih
      rw [Text.lines, ← ih]
      · simp [raw]
      · exact feed

theorem Consecutive.getElem?_of_mem {number : Nat} {lines : List Line}
    (numbered : Consecutive number lines) {line : Line} (member : line ∈ lines) :
    ∃ index, line.number = number + index ∧ lines[index]? = some line := by
  induction lines generalizing number with
  | nil => cases member
  | cons first rest ih =>
      rcases List.mem_cons.mp member with rfl | later
      · exact ⟨0, numbered.1, rfl⟩
      · obtain ⟨index, place, found⟩ := ih numbered.2 later
        exact ⟨index + 1, by omega, found⟩

/-- A line that a document is split into is the line of the text with its number. -/
theorem line?_of_mem {text : Text} {line : Line} (member : line ∈ split text) :
    text.line? line.number = some line.raw := by
  obtain ⟨index, place, found⟩ := (consecutive_split text).getElem?_of_mem member
  have number : line.number = index + 1 := by omega
  rw [number, Text.line?, ← map_raw_splitFrom 1 text, ← split, List.getElem?_map, found]
  rfl

/-- Lines numbered from the given number on. Only the last can lack a break, and then it is not
empty. A carriage return in front of a line feed belongs to the break. -/
inductive Laid : Nat → List Line → Prop where
  | nil (number : Nat) : Laid number []
  | last (number : Nat) {content : Text} (filled : content ≠ []) (single : '\n' ∉ content) :
      Laid number [⟨number, content, .none⟩]
  | broken (number : Nat) {content : Text} {ending : LineBreak} {rest : List Line}
      (broken : ending ≠ .none) (single : '\n' ∉ content)
      (plain : ending = .lf → content.getLast? ≠ some '\r') (later : Laid (number + 1) rest) :
      Laid number (⟨number, content, ending⟩ :: rest)

theorem laid_splitFrom (number : Nat) (text : Text) : Laid number (splitFrom number text) := by
  fun_induction splitFrom number text with
  | case1 number => exact .nil number
  | case2 number rest ih => exact .broken number (by simp) (by simp) (by simp) ih
  | case3 number rest ih => exact .broken number (by simp) (by simp) (by simp) ih
  | case4 number c rest _ feed empty ih =>
      have other : '\n' ≠ c := fun same => feed same.symm
      exact .last number (by simp) (by simpa using other)
  | case5 number c rest notBreak feed line more found ih =>
      have text := flatMap_raw_splitFrom number rest
      rw [found] at ih text
      have other : '\n' ≠ c := fun same => feed same.symm
      cases ih with
      | last _ filled single => exact .last number (by simp) (by simp [other, single])
      | @broken _ content ending _ ends single plain later =>
          apply Laid.broken number ends (by simp [other, single]) _ later
          intro lf final
          cases content with
          | nil =>
              -- A lone carriage return would have been taken for a part of the break.
              have carriage : c = '\r' := by simpa using final
              apply notBreak (more.flatMap raw) carriage
              rw [← text]
              simp [raw, lf, LineBreak.text]
          | cons d others =>
              apply plain lf
              simpa using final

theorem laid_split (text : Text) : Laid 1 (split text) :=
  laid_splitFrom 1 text

theorem splitFrom_broken (number : Nat) {content : Text} {ending : LineBreak} (ends : ending ≠ .none)
    (single : '\n' ∉ content) (plain : ending = .lf → content.getLast? ≠ some '\r') (rest : Text) :
    splitFrom number (content ++ ending.text ++ rest) =
      ⟨number, content, ending⟩ :: splitFrom (number + 1) rest := by
  induction content with
  | nil =>
      cases ending with
      | none => exact absurd rfl ends
      | lf => rfl
      | crlf => rfl
  | cons c more ih =>
      have later : '\n' ∉ more := fun inside => single (List.mem_cons_of_mem c inside)
      have inner : ending = .lf → more.getLast? ≠ some '\r' :=
        fun lf => Text.getLast?_ne_of_cons (plain lf)
      rw [List.cons_append, List.cons_append, splitFrom, ih later inner]
      · intro after carriage joined
        cases more with
        | nil =>
            cases ending with
            | none => exact ends rfl
            | lf => exact plain rfl (by simp [carriage])
            | crlf => simp [LineBreak.text] at joined
        | cons d others =>
            have feed : d = '\n' := by simpa using (List.cons.inj joined).1
            exact later (feed ▸ List.mem_cons_self)
      · intro feed
        exact single (feed ▸ List.mem_cons_self)

theorem splitFrom_last (number : Nat) {content : Text} (filled : content ≠ [])
    (single : '\n' ∉ content) : splitFrom number content = [⟨number, content, .none⟩] := by
  induction content with
  | nil => exact absurd rfl filled
  | cons c rest ih =>
      have later : '\n' ∉ rest := fun inside => single (List.mem_cons_of_mem c inside)
      have notFeed : c ≠ '\n' := fun feed => single (feed ▸ List.mem_cons_self)
      cases rest with
      | nil =>
          rw [splitFrom]
          · rfl
          · simp
          · exact notFeed
      | cons d more =>
          rw [splitFrom, ih (by simp) later]
          · intro after _ joined
            exact later ((List.cons.inj joined).1 ▸ List.mem_cons_self)
          · exact notFeed

/-- Splitting lines that are put together gives the lines back. -/
theorem Laid.splitFrom_eq {number : Nat} {lines : List Line} (laid : Laid number lines) :
    splitFrom number (lines.flatMap raw) = lines := by
  induction laid with
  | nil number => rfl
  | @last number content filled single =>
      have whole : [(⟨number, content, .none⟩ : Line)].flatMap raw = content := by
        simp [raw, LineBreak.text]
      rw [whole]
      exact splitFrom_last number filled single
  | broken number ends single plain _ ih =>
      rw [List.flatMap_cons, raw, splitFrom_broken number ends single plain, ih]

end Line

namespace Location

def past (place : Location) (c : Char) : Location :=
  if c = '\n' then ⟨place.line + 1, 1⟩ else place.shift 1

end Location

namespace Text

def finish (text : Text) : Location :=
  text.foldl Location.past ⟨1, 1⟩

theorem foldl_past {text : Text} (single : '\n' ∉ text) (place : Location) :
    text.foldl Location.past place = place.shift text.length := by
  induction text generalizing place with
  | nil => rfl
  | cons c rest ih =>
      have other : c ≠ '\n' := fun feed => single (feed ▸ List.mem_cons_self)
      have later : '\n' ∉ rest := fun inside => single (List.mem_cons_of_mem c inside)
      rw [List.foldl_cons, ih later, Location.past, if_neg other]
      simp [Location.shift, Nat.add_assoc, Nat.add_comm 1]

theorem dropBreak_append {content : Text} {ending : LineBreak} (single : '\n' ∉ content)
    (plain : ending = .lf → content.getLast? ≠ some '\r') :
    dropBreak (content ++ ending.text) = content := by
  induction content with
  | nil => cases ending <;> rfl
  | cons c more ih =>
      have later : '\n' ∉ more := fun inside => single (List.mem_cons_of_mem c inside)
      have inner : ending = .lf → more.getLast? ≠ some '\r' :=
        fun lf => getLast?_ne_of_cons (plain lf)
      rw [List.cons_append, dropBreak, ih later inner]
      · intro feed
        exact absurd (feed ▸ List.mem_cons_self) single
      · intro carriage joined
        cases more with
        | nil =>
            cases ending with
            | none => cases joined
            | lf => exact plain rfl (by simp [carriage])
            | crlf => cases joined
        | cons d others =>
            have feed : d = '\n' := (List.cons.inj joined).1
            exact later (feed ▸ List.mem_cons_self)

end Text

namespace Line

theorem dropBreak_of_laid {number : Nat} {lines : List Line} (laid : Laid number lines) {line : Line}
    (member : line ∈ lines) : line.raw.dropBreak = line.content := by
  induction laid with
  | nil => cases member
  | last number _ single =>
      rw [List.mem_singleton.mp member]
      exact Text.dropBreak_append single (by simp)
  | broken number _ single plain _ ih =>
      rcases List.mem_cons.mp member with rfl | later
      · exact Text.dropBreak_append single plain
      · exact ih later

theorem finish_of_laid {number : Nat} {lines : List Line} (laid : Laid number lines)
    (some : lines ≠ []) : (lines.flatMap raw).foldl Location.past ⟨number, 1⟩ = finish lines := by
  induction laid with
  | nil => exact absurd rfl some
  | @last number content _ single =>
      rw [List.flatMap_cons, List.flatMap_nil, List.append_nil, raw, LineBreak.text, List.append_nil,
        Text.foldl_past single]
      simp [finish, Location.shift, Nat.add_comm]
  | @broken number content ending rest ends single _ later ih =>
      have passed : (raw ⟨number, content, ending⟩).foldl Location.past ⟨number, 1⟩ =
          ⟨number + 1, 1⟩ := by
        rw [raw, List.foldl_append, Text.foldl_past single]
        cases ending with
        | none => exact absurd rfl ends
        | lf => rfl
        | crlf => rfl
      rw [List.flatMap_cons, List.foldl_append, passed]
      cases rest with
      | nil => cases ending <;> simp_all [finish]
      | cons next more => 
        rw [ih (List.cons_ne_nil _ _)]
        simp [finish]

/-- The lines of a text end where the text does. -/
theorem finish_split (text : Text) : finish (split text) = text.finish := by
  by_cases empty : text = []
  · rw [empty]
    rfl
  · have whole := flatMap_raw_split text
    have some : split text ≠ [] := by
      intro none
      rw [none] at whole
      exact empty whole.symm
    rw [← finish_of_laid (laid_split text) some, whole]
    rfl

end Line

end Gherkin
