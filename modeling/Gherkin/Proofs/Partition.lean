import Gherkin.Proofs.Fields
import Gherkin.Proofs.Phrases

/-!
Rows fall into their tokens.

A row is closed if it is a lone border, or if it ends with a border other than its first, the padding
behind it aside. These are the rows that have tokens. The tokens together are the row and the end of its
line, one after the other, with a border in front, borders and cells behind it, and no two cells in a row;
the padding in front of a cell belongs to the border there, but the first border has none.
-/

namespace Gherkin

open scoped Computability

namespace Row

/-- A row that is one border, or that ends with another one, perhaps with padding behind it. -/
def Closed (row : Text) : Prop :=
  row = ['|'] ∨ ∃ before padding, row = before ++ '|' :: padding ∧ before ≠ [] ∧
    before.escapesNext = false ∧ ∀ c ∈ padding, Text.isBlank c = true

structure Partition (start : Location) (ending row : Text) (tokens : List Token) :
    Prop where
  whole : tokens.flatMap (·.text) = row ++ ending
  opens : tokens.head? = some ⟨.pipe, ['|'], start⟩
  adjoin : tokens.IsChain fun left right => right.location = left.location.shift left.text.length
  closes : tokens.getLast? = some ⟨.eol, ending, start.shift row.length⟩
  shape : tokens ∈ single .pipe * ((1 + single .cell) * single .pipe)∗ * single .eol
  padding : ∀ front pipe later, tokens = front ++ pipe :: later → front ≠ [] → pipe.kind = .pipe →
    ∃ rest, row = front.flatMap (·.text) ++ '|' :: rest ∧
      pipe.text = '|' :: rest.takeWhile Text.isBlank
  cells : ∀ token ∈ tokens, token.kind = .cell → token.text.Sealed

namespace Cut

variable {text trailing : Text} {fields : List Field}

/-- A border with padding behind it cannot be in what trails. -/
theorem trailing_eq_nil (cut : Cut text fields trailing) {before padding : Text}
    (split : text = before ++ '|' :: padding) (clear : before.escapesNext = false)
    (blank : ∀ c ∈ padding, Text.isBlank c = true) : trailing = [] := by
  have borderless := Text.borders_eq_nil_iff.mp cut.unbordered
  rw [cut.text_eq] at split
  rcases List.append_eq_append_iff.mp split with ⟨inner, rfl, last⟩ | ⟨inner, whole, last⟩
  · rw [Text.escapesNext_append (Field.escapesNext_texts fields), borderless inner padding last] at clear
    cases clear
  · cases inner with
    | nil => cases borderless [] padding last.symm
    | cons c more =>
        -- What trails would be padding, but it begins with something else.
        obtain ⟨_, rfl⟩ := List.cons.inj last
        have filled : fields ≠ [] := by
          rintro rfl
          simp at whole
        cases trailing with
        | nil => rfl
        | cons d others =>
            have solid := cut.tight filled d rfl
            rw [blank d (List.mem_append_right _ List.mem_cons_self)] at solid
            cases solid

theorem closed_iff (cut : Cut text fields trailing) : Closed ('|' :: text) ↔ trailing = [] := by
  constructor
  · rintro (bare | ⟨before, padding, split, filled, clear, blank⟩)
    · have nothing : fields.flatMap Field.text ++ trailing = [] :=
        cut.text_eq ▸ (List.cons.inj bare).2
      exact (List.append_eq_nil_iff.mp nothing).2
    · obtain ⟨c, inner, rfl⟩ := List.exists_cons_of_ne_nil filled
      obtain ⟨rfl, later⟩ := List.cons.inj split
      rw [← List.singleton_append, Text.escapesNext_append rfl] at clear
      exact cut.trailing_eq_nil later clear blank
  · rintro rfl
    have whole := cut.text_eq
    rw [List.append_nil] at whole
    rcases List.eq_nil_or_concat fields with rfl | ⟨before, field, rfl⟩
    · exact Or.inl (by rw [whole]; rfl)
    · rw [List.concat_eq_append, List.flatMap_append, List.flatMap_singleton, Field.text] at whole
      refine Or.inr ⟨'|' :: (before.flatMap Field.text ++ field.cell), field.padding, by simp [whole],
        List.cons_ne_nil _ _, ?_, field.blank⟩
      rw [← List.singleton_append, Text.escapesNext_append rfl,
        Text.escapesNext_append (Field.escapesNext_texts before), field.closed.clear]

end Cut

theorem isChain_layout (location : Location) (parts : List Part) :
    (layout location parts).IsChain fun left right =>
      right.location = left.location.shift left.text.length := by
  induction parts generalizing location with
  | nil => exact .nil
  | cons part rest ih =>
      cases rest with
      | nil => exact .singleton _
      | cons next others => exact .cons_cons rfl (ih _)

namespace Field

variable {field : Field} {fields : List Field} {location : Location} {token : Token}

theorem eq_of_mem_layout_cellPart {text : Text} (member : token ∈ layout location (cellPart text)) :
    token.kind = .cell ∧ token.text = text := by
  rw [layout_cellPart] at member
  split at member
  · cases member
  · rw [List.mem_singleton.mp member]
    exact ⟨rfl, rfl⟩

theorem layout_parts_mem : layout location field.parts ∈ (1 + single .cell) * single .pipe := by
  rw [layout_parts]
  refine Language.append_mem_mul ?_ ⟨_, rfl, rfl⟩
  rw [layout_cellPart]
  split
  · exact Or.inl rfl
  · exact Or.inr ⟨_, rfl, rfl⟩

theorem layout_fields_mem (fields : List Field) (location : Location) :
    layout location (fields.flatMap parts) ∈ ((1 + single .cell) * single .pipe)∗ := by
  induction fields generalizing location with
  | nil => exact nil_mem_star
  | cons field others ih =>
      rw [List.flatMap_cons, layout_append]
      have more : (1 + single .cell) * single .pipe * ((1 + single .cell) * single .pipe)∗ ≤
          ((1 + single .cell) * single .pipe)∗ := mul_kstar_le_kstar
      exact more (Language.append_mem_mul layout_parts_mem (ih _))

theorem sealed_of_mem_layout (member : token ∈ layout location (fields.flatMap parts))
    (kind : token.kind = .cell) : token.text.Sealed := by
  induction fields generalizing location with
  | nil => cases member
  | cons field others ih =>
      rw [List.flatMap_cons, layout_append, layout_parts, List.mem_append, List.mem_append,
        List.mem_singleton] at member
      rcases member with (here | rfl) | later
      · exact (eq_of_mem_layout_cellPart here).2 ▸ field.closed
      · cases kind
      · exact ih later

end Field

/-- What does not occur in the front of a list is behind it. -/
theorem exists_append_of_notMem {α : Type} {first rest front later : List α} {item : α}
    (absent : item ∉ first) (split : first ++ rest = front ++ item :: later) :
    ∃ inner, front = first ++ inner ∧ rest = inner ++ item :: later := by
  rcases List.append_eq_append_iff.mp split with ⟨inner, whole, last⟩ | ⟨inner, whole, last⟩
  · exact ⟨inner, whole, last⟩
  · cases inner with
    | nil => exact ⟨[], by simpa using whole.symm, last.symm⟩
    | cons other more =>
        obtain ⟨rfl, _⟩ := List.cons.inj last
        exact absurd (by simp [whole]) absent

/-- Each border stands where the text has come to, and owns the padding behind it. -/
theorem Cut.padding_eq {text trailing : Text} {fields : List Field} (cut : Cut text fields trailing)
    {location : Location} {front later behind : List Token} {pipe : Token}
    (absent : pipe ∉ behind)
    (split : layout location (fields.flatMap Field.parts) ++ behind = front ++ pipe :: later)
    (kind : pipe.kind = .pipe) :
    ∃ rest, text = front.flatMap (·.text) ++ '|' :: rest ∧
      pipe.text = '|' :: rest.takeWhile Text.isBlank := by
  induction cut generalizing location front with
  | trailing =>
      have inside : pipe ∈ front ++ pipe :: later := by simp
      rw [← split] at inside
      exact absurd inside absent
  | @field field rest trailing fields tight cut ih =>
      rw [List.flatMap_cons, layout_append, Field.layout_parts] at split
      simp only [List.append_assoc, List.singleton_append] at split
      have solid : pipe ∉ layout location (cellPart field.cell) := by
        intro inside
        rw [(Field.eq_of_mem_layout_cellPart inside).1] at kind
        cases kind
      obtain ⟨inner, rfl, further⟩ := exists_append_of_notMem solid split
      rw [List.flatMap_append, texts_layout, flatMap_text_cellPart]
      cases inner with
      | nil =>
          obtain ⟨rfl, _⟩ := List.cons.inj further
          refine ⟨field.padding ++ rest, by simp [Field.text], ?_⟩
          -- The next field begins with something other than padding, so the border owns no more than its own.
          have stops : rest.takeWhile Text.isBlank = [] := by
            cases rest with
            | nil => rfl
            | cons c more => simp [tight c rfl]
          rw [List.takeWhile_append_of_pos field.blank, stops, List.append_nil]
      | cons border more =>
          obtain ⟨rfl, deeper⟩ := List.cons.inj further
          obtain ⟨left, whole, owned⟩ := ih deeper
          exact ⟨left, by simp [Field.text, whole], owned⟩

theorem partition_of_cut {text : Text} {fields : List Field} (cut : Cut text fields [])
    (start : Location) (ending : Text) :
    Partition start ending ('|' :: text)
      (layout start (⟨.pipe, ['|']⟩ :: fields.flatMap Field.parts ++ [⟨.eol, ending⟩])) := by
  have whole : text = fields.flatMap Field.text := by simpa using cut.text_eq
  have tokens := layout_of_cut cut start ending
  constructor
  case whole =>
    rw [texts_layout, List.flatMap_append, List.flatMap_cons, Field.texts_parts, ← whole]
    simp
  case opens => rfl
  case adjoin => exact isChain_layout _ _
  case closes => rw [tokens, ← List.cons_append, List.getLast?_concat, List.length_cons]
  case shape =>
    rw [tokens, ← List.cons_append, ← List.singleton_append]
    exact Language.append_mem_mul
      (Language.append_mem_mul ⟨_, rfl, rfl⟩ (Field.layout_fields_mem _ _)) ⟨_, rfl, rfl⟩
  case padding =>
    intro front pipe later split inner kind
    obtain ⟨first, more, rfl⟩ := List.exists_cons_of_ne_nil inner
    rw [tokens, List.cons_append] at split
    obtain ⟨rfl, further⟩ := List.cons.inj split
    -- The token behind the fields is the end of the line, and no border.
    have absent : pipe ∉ [(⟨.eol, ending, start.shift (text.length + 1)⟩ : Token)] := by
      rw [List.mem_singleton]
      rintro rfl
      cases kind
    obtain ⟨rest, joined, owned⟩ := cut.padding_eq absent further kind
    exact ⟨rest, by simp [joined], owned⟩
  case cells =>
    intro token member kind
    rw [tokens, List.mem_cons, List.mem_append, List.mem_singleton] at member
    rcases member with rfl | inside | rfl
    · cases kind
    · exact Field.sealed_of_mem_layout inside kind
    · cases kind

/-- A row has tokens just if it is closed, and they divide it. -/
theorem tokens_partition (start : Location) (ending rest : Text) :
    match tokens start ending ('|' :: rest) with
    | .ok tokens => Closed ('|' :: rest) ∧ Partition start ending ('|' :: rest) tokens
    | .error error => ¬ Closed ('|' :: rest) ∧ error = .unterminatedTableRow start.line := by
  obtain ⟨fields, trailing, cut⟩ := exists_fields rest
  rw [tokens_of_cut cut, cut.closed_iff]
  by_cases closed : trailing = []
  · subst closed
    exact ⟨rfl, partition_of_cut cut start ending⟩
  · rw [if_neg closed]
    exact ⟨closed, rfl⟩

end Row

end Gherkin
