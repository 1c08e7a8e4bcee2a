import Gherkin.Proofs.LineTokens

/-!
Where the tokens of a line stand.

`Spread` says of some tokens that they stand in a text one after the other, with gaps between them, and
that their columns are right. The tokens of each line outside doc strings are spread over its content.
Only the end of a tag line or a row is none of them: `Printed` says where it comes.
-/

namespace Gherkin

/-- Tokens that stand in a text one after the other, none of them empty. The text begins in the given
column. -/
inductive Spread : Nat → Text → List Token → Prop where
  | nil {column : Nat} {text : Text} : Spread column text []
  | cons {column : Nat} {text : Text} {token : Token} {tokens : List Token} (gap rest : Text)
      (split : text = gap ++ token.text ++ rest)
      (place : token.location.column = column + gap.length) (filled : token.text ≠ [])
      (later : Spread (token.location.column + token.text.length) rest tokens) :
      Spread column text (token :: tokens)

namespace Spread

variable {column : Nat} {text : Text} {tokens others : List Token} {token : Token}

theorem after {gap : Text} (spread : Spread (column + gap.length) text tokens) :
    Spread column (gap ++ text) tokens := by
  cases spread with
  | nil => exact .nil
  | cons inner rest split place filled later =>
      exact .cons (gap ++ inner) rest (by simp [split]) (by simp [place, Nat.add_assoc]) filled later

theorem take (spread : Spread column text (tokens ++ others)) : Spread column text tokens := by
  induction tokens generalizing column text with
  | nil => exact .nil
  | cons first rest ih =>
      cases spread with
      | cons gap rest split place filled later => exact .cons gap rest split place filled (ih later)

theorem filled (spread : Spread column text tokens) (member : token ∈ tokens) : token.text ≠ [] := by
  induction spread with
  | nil => cases member
  | cons _ _ _ _ filled _ ih =>
      rcases List.mem_cons.mp member with rfl | later
      · exact filled
      · exact ih later

theorem stands (spread : Spread column text tokens) (member : token ∈ tokens) :
    ∃ before behind, text = before ++ token.text ++ behind ∧
      token.location.column = column + before.length := by
  induction spread with
  | nil => cases member
  | @cons column text first tokens gap rest split place _ _ ih =>
      rcases List.mem_cons.mp member with rfl | later
      · exact ⟨gap, rest, split, place⟩
      · obtain ⟨before, behind, inner, found⟩ := ih later
        refine ⟨gap ++ first.text ++ before, behind, by simp [split, inner], ?_⟩
        rw [found, place, List.length_append, List.length_append]
        omega

theorem within (spread : Spread column text tokens) (member : token ∈ tokens) :
    0 < token.text.length ∧
      token.location.column + token.text.length ≤ column + text.length := by
  obtain ⟨before, behind, split, place⟩ := spread.stands member
  have length := congrArg List.length split
  simp only [List.length_append] at length
  exact ⟨List.length_pos_iff.mpr (spread.filled member), by omega⟩

theorem rises (spread : Spread column text tokens) :
    tokens.Pairwise fun left right => left.location.column < right.location.column := by
  induction spread with
  | nil => exact .nil
  | cons _ _ _ _ filled later ih =>
      refine .cons ?_ ih
      intro other member
      obtain ⟨before, _, _, found⟩ := later.stands member
      have width := List.length_pos_iff.mpr filled
      omega

end Spread

namespace Text

/-- A text is what trimming leaves, with white space on both sides. -/
theorem trim_append (text : Text) :
    ∃ behind, text = text.takeWhile isSpace ++ text.trim ++ behind := by
  obtain ⟨behind, split, _⟩ := dropTrailing_append isSpace text.trimStart
  refine ⟨behind, ?_⟩
  rw [List.append_assoc, trim, trimEnd, ← split, trimStart, List.takeWhile_append_dropWhile]

end Text

namespace Line

variable {line : Line} {tokens : List Token}

theorem content_eq (line : Line) :
    line.content = line.content.takeWhile Text.isSpace ++ line.body :=
  List.takeWhile_append_dropWhile.symm

theorem raw_eq (line : Line) :
    line.raw = line.content.takeWhile Text.isSpace ++ line.body ++ line.ending.text :=
  congrArg (· ++ line.ending.text) (content_eq line)

theorem column_start (line : Line) :
    line.start.column = 1 + (line.content.takeWhile Text.isSpace).length :=
  Nat.add_comm ..

/-- What is spread over the body of a line is spread over its content. -/
theorem spread_of_body (spread : Spread line.start.column line.body tokens) :
    Spread 1 line.content tokens := by
  rw [column_start] at spread
  rw [content_eq line]
  exact spread.after

theorem spread_comment (filled : line.body ≠ []) : Spread 1 line.content [line.commentToken] := by
  obtain ⟨behind, split⟩ := Text.trim_append line.content
  have solid : line.content.trim ≠ [] := by
    intro empty
    obtain ⟨c, rest, start⟩ := List.exists_cons_of_ne_nil filled
    have space := Text.of_dropTrailing_eq_nil Text.isSpace line.body empty c (by simp [start])
    rw [Text.head?_trimStart line.content c (by rw [← Line.body, start]; rfl)] at space
    cases space
  exact .cons _ behind split (Nat.add_comm ..) solid .nil

theorem spread_description (filled : line.body ≠ []) :
    Spread 1 line.content [⟨.descriptionLine, line.body, line.start⟩] := by
  apply spread_of_body
  exact .cons [] [] (by simp) rfl filled .nil

theorem spread_keyword (filled : line.body ≠ []) (kind : TokenKind) {width : Nat}
    (wide : 0 < width) : Spread 1 line.content (line.keywordTokens kind width) := by
  apply spread_of_body
  have keyword : line.body.take width ≠ [] := by
    simp [List.take_eq_nil_iff, filled, Nat.ne_of_gt wide]
  have named : Spread (line.start.column + (line.body.take width).length) (line.body.drop width)
      (nameTokens (line.start.shift width) (line.body.drop width)) := by
    unfold nameTokens
    split
    · exact .nil
    · rename_i solid
      -- A name leaves no room for the keyword to be cut short.
      have room : (line.body.take width).length = width := by
        apply List.length_take_of_le
        by_cases short : line.body.length ≤ width
        · rw [List.drop_eq_nil_of_le short] at solid
          exact absurd rfl solid
        · omega
      obtain ⟨behind, split⟩ := Text.trim_append (line.body.drop width)
      rw [room]
      exact .cons _ behind split rfl solid .nil
  exact .cons [] (line.body.drop width) (by simp) rfl keyword named

end Line

namespace Row

theorem part_ne_nil (state : State) (text : Text) (part : Part) (member : part ∈ (scan state text).2) :
    part.text ≠ [] := by
  induction text generalizing state with
  | nil => simp [scan] at member
  | cons c rest ih =>
      rw [scan] at member
      split at member
      · exact ih _ member
      · rcases List.mem_cons.mp member with rfl | later
        · simp
        · exact ih _ later

theorem spread_layout (start : Location) (parts : List Part) (filled : ∀ part ∈ parts, part.text ≠ []) :
    Spread start.column (parts.flatMap (·.text)) (layout start parts) := by
  induction parts generalizing start with
  | nil => exact .nil
  | cons part rest ih =>
      obtain ⟨first, others⟩ := List.forall_mem_cons.mp filled
      have later : Spread (start.column + part.text.length) (rest.flatMap fun part => part.text)
          (layout (start.shift part.text.length) rest) := ih (start.shift part.text.length) others
      exact .cons [] (rest.flatMap fun part => part.text) (by simp) rfl first later

theorem ne_nil_of_mem_parts (row : Text) (part : Part) (member : part ∈ ⟨.pipe, ['|']⟩ :: parts row) :
    part.text ≠ [] := by
  rcases List.mem_cons.mp member with rfl | later
  · simp
  · exact part_ne_nil .opening row part later

theorem kind_of_mem_layout (start : Location) (row : Text) (token : Token)
    (member : token ∈ layout start (⟨.pipe, ['|']⟩ :: parts row)) :
    token.kind ≠ .tag ∧ token.kind ≠ .eol := by
  have listed := List.mem_map_of_mem (f := fun token => token.kind) member
  rw [kinds_layout, List.map_cons] at listed
  rcases List.mem_cons.mp listed with first | later
  · simp [first]
  · obtain ⟨part, held, kind⟩ := List.mem_map.mp later
    rw [← kind]
    rcases kind_of_mem_scan .opening row part held with pipe | cell
    · simp [pipe]
    · simp [cell]

end Row

namespace Text

def Word.tag (number : Nat) (word : Word) : Token :=
  ⟨.tag, word.text, ⟨number, word.offset⟩⟩

theorem spread_wordsFrom (number column : Nat) (text : Text) :
    Spread column text ((wordsFrom column text).map (Word.tag number)) := by
  induction text generalizing column with
  | nil => exact .nil
  | cons c rest ih =>
      have later := ih (column + 1)
      cases found : wordsFrom (column + 1) rest with
      | nil =>
          rw [found] at later
          by_cases space : isSpace c = true
          · simp only [wordsFrom, found, if_pos space]
            exact .nil
          · simp only [wordsFrom, found, if_neg space]
            exact .cons [] rest rfl rfl (by simp [Word.tag]) .nil
      | cons word others =>
          rw [found] at later
          by_cases space : isSpace c = true
          · simp only [wordsFrom, found, if_pos space]
            have shifted : Spread (column + [c].length) rest _ := later
            exact shifted.after
          · by_cases next : word.offset = column + 1
            · simp only [wordsFrom, found, if_neg space, if_pos next]
              -- The word begins right behind the character, so there is no gap between them.
              cases later with
              | cons gap behind split place filled further =>
                  have here : word.offset = column + 1 + gap.length := place
                  have none : gap = [] := List.eq_nil_of_length_eq_zero (by omega)
                  have place : column + (c :: word.text).length = word.offset + word.text.length := by
                    simp only [List.length_cons]
                    omega
                  have text : rest = word.text ++ behind := by simpa [none, Word.tag] using split
                  have tail : Spread (column + (c :: word.text).length) behind _ := place ▸ further
                  exact .cons [] behind (congrArg (c :: ·) text) rfl (by simp [Word.tag]) tail
            · simp only [wordsFrom, found, if_neg space, if_neg next]
              exact .cons [] rest rfl rfl (by simp [Word.tag]) later

end Text

namespace Line

variable {line : Line} {tokens : List Token}

/-- The column of the end of a line whose last token before it is given. A tag line ends after its last
tag, whatever comes behind it. -/
def endColumn (line : Line) (last : Token) : Nat :=
  if last.kind = .tag then last.location.column + last.text.length else line.content.length + 1

inductive Printed (line : Line) : List Token → Prop where
  | bare {tokens : List Token} (spread : Spread 1 line.content tokens)
      (inner : ∀ token ∈ tokens, token.kind ≠ .eol) : Printed line tokens
  | ended {tokens : List Token} {last : Token} (spread : Spread 1 line.content (tokens ++ [last]))
      (inner : ∀ token ∈ tokens ++ [last], token.kind ≠ .eol) :
      Printed line (tokens ++ [last] ++
        [⟨.eol, line.ending.text, ⟨line.number, line.endColumn last⟩⟩])

theorem printed_row (read : Row.tokens line.start line.ending.text line.body = .ok tokens) :
    Printed line tokens := by
  obtain ⟨rest, body, _, rfl⟩ := Row.tokens_eq_ok _ _ _ _ read
  have whole : (⟨.pipe, ['|']⟩ :: Row.parts rest).flatMap (fun part => part.text) = line.body := by
    rw [List.flatMap_cons, Row.flatMap_text_parts, body]
    rfl
  have spread := Row.spread_layout line.start _ (Row.ne_nil_of_mem_parts rest)
  have inner := Row.kind_of_mem_layout line.start rest
  rw [whole] at spread
  obtain ⟨parts, border, split⟩ := (List.eq_nil_or_concat'
    (Row.layout line.start (⟨.pipe, ['|']⟩ :: Row.parts rest))).resolve_left (List.cons_ne_nil _ _)
  rw [split] at spread inner
  have column : line.start.column + line.body.length = line.endColumn border := by
    have length := congrArg List.length (content_eq line)
    have other := (inner border (by simp)).1
    rw [List.length_append] at length
    rw [endColumn, if_neg other, length, column_start]
    omega
  rw [Row.layout_append, whole, split, Row.layout, Row.layout, Location.shift, column]
  exact .ended (spread_of_body spread) fun token member => (inner token member).2

theorem printed_tags {rest : Text} (start : line.body = '@' :: rest)
    (read : line.tagTokens = .ok tokens) : Printed line tokens := by
  obtain ⟨words, last, split⟩ :=
    (List.eq_nil_or_concat' line.tagWords).resolve_left (tagWords_ne_nil line rest start)
  have spread : Spread 1 line.content ((words ++ [last]).map (Text.Word.tag line.number)) := by
    have all := Text.spread_wordsFrom line.number 1 line.content
    rw [← List.takeWhile_append_dropWhile (p := fun word => !startsComment word)
      (l := Text.wordsFrom 1 line.content), ← tagWords, split, List.map_append] at all
    exact all.take
  have inner : ∀ token ∈ (words ++ [last]).map (Text.Word.tag line.number), token.kind ≠ .eol := by
    intro token member
    obtain ⟨word, _, rfl⟩ := List.mem_map.mp member
    simp [Text.Word.tag]
  have column : line.columnAfter line.tagWords = line.endColumn (last.tag line.number) := by
    simp [columnAfter, split, endColumn, Text.Word.tag]
  rw [tagTokens_eq_ok line tokens read, column, split]
  rw [List.map_append] at spread inner
  rw [List.map_append]
  exact .ended spread inner

theorem printed_keyword (filled : line.body ≠ []) {kind : TokenKind} (other : kind ≠ .eol)
    {width : Nat} (wide : 0 < width) : Printed line (line.keywordTokens kind width) := by
  refine .bare (spread_keyword filled kind wide) ?_
  intro token member
  rcases kind_of_mem_keywordTokens member with same | name
  · rw [same]
    exact other
  · simp [name]

theorem mem_stepTable_of_shape {fenced : Bool} {dialect : Dialect} {surface : StepSurface}
    (shape : line.shape fenced dialect = .step surface) : surface ∈ dialect.stepTable := by
  have fits := fits_shape fenced dialect line
  rw [shape] at fits
  exact List.mem_of_find?_eq_some fits

theorem printed_tokens {fenced : Bool} {dialect : Dialect} (sound : dialect.WellFormed)
    (content : (line.shape fenced dialect).isContent = true)
    (read : line.tokens (line.shape fenced dialect) = .ok tokens) : Printed line tokens := by
  -- A line with content has at least one character behind its margin.
  have filled : line.body ≠ [] := by
    apply List.length_pos_iff.mp
    apply body_pos_of_shape fenced dialect
    intro blank
    rw [blank] at content
    cases content
  cases found : line.shape fenced dialect with
  | blank | comment | delimiter _ =>
      rw [found] at content
      cases content
  | row =>
      rw [found] at read
      exact printed_row read
  | tags =>
      obtain ⟨rest, start⟩ := body_of_shape_tags fenced dialect line found
      rw [found] at read
      exact printed_tags start read
  | block surface =>
      rw [found] at read
      cases read
      exact printed_keyword filled (by simp) (Nat.succ_pos _)
  | step surface =>
      have spelled := sound.text_ne_nil (mem_stepTable_of_shape found)
      rw [found] at read
      cases read
      exact printed_keyword filled (by simp)
        (Nat.lt_add_right _ (List.length_pos_iff.mpr spelled))
  | description =>
      rw [found] at read
      cases read
      exact .bare (spread_description filled) (by simp)

namespace Printed

variable {token : Token} (printed : Printed line tokens)

include printed

theorem stands (member : token ∈ tokens) (other : token.kind ≠ .eol) :
    ∃ before behind, line.content = before ++ token.text ++ behind ∧
      token.location.column = 1 + before.length := by
  cases printed with
  | bare spread _ => exact spread.stands member
  | ended spread _ =>
      rcases List.mem_append.mp member with own | final
      · exact spread.stands own
      · exact absurd (by rw [List.mem_singleton.mp final]) other

/-- Only the end of a line can stand behind its last character. -/
theorem within (member : token ∈ tokens) :
    token.location.column ≤ line.content.length ∨ token.kind = .eol ∧
      token.text = line.ending.text ∧ token.location.column ≤ line.content.length + 1 := by
  cases printed with
  | bare spread _ =>
      have room := spread.within member
      omega
  | @ended own last spread _ =>
      rcases List.mem_append.mp member with here | final
      · have room := spread.within here
        omega
      · have room := spread.within (List.mem_append_right own (List.mem_singleton.mpr rfl))
        rw [List.mem_singleton.mp final]
        refine Or.inr ⟨rfl, rfl, ?_⟩
        simp only [endColumn]
        split <;> omega

theorem rises : tokens.Pairwise fun left right => left.location.column < right.location.column := by
  cases printed with
  | bare spread _ => exact spread.rises
  | @ended own last spread _ =>
      refine List.pairwise_append.mpr ⟨spread.rises, List.pairwise_singleton _ _, ?_⟩
      intro left member right final
      have width := (spread.within (List.mem_append_right own (List.mem_singleton.mpr rfl))).1
      have room := spread.within member
      have order : left.location.column ≤ last.location.column := by
        rcases List.mem_append.mp member with before | same
        · exact Nat.le_of_lt ((List.pairwise_append.mp spread.rises).2.2 left before last (by simp))
        · rw [List.mem_singleton.mp same]
      rw [List.mem_singleton.mp final]
      simp only [endColumn]
      split <;> omega

end Printed

end Line

end Gherkin
