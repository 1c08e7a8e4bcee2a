import Gherkin.Proofs.Positions

/-!
Doc strings line by line.

A doc string begins behind a line that holds its delimiter alone and ends with the next line that does.
What stands in between is taken as it stands, whatever it looks like, less the indentation that the
delimiter has. The block of a doc string gives the lines, its tokens their texts, and numbers bring the
two together.
-/

namespace Gherkin

namespace Text

def IsDelimiter (line delimiter : Text) : Prop :=
  ∃ margin behind, line = margin ++ delimiter ++ behind ∧ ∀ c ∈ margin ++ behind, isSpace c = true

/-- The line less its longest front of spaces and tabs that is not longer than the limit. -/
def Unindented (limit : Nat) (line rest : Text) : Prop :=
  ∃ cut, line = cut ++ rest ∧ cut.length ≤ limit ∧ (∀ c ∈ cut, isBlank c = true) ∧
    ∀ longer, longer <+: line → longer.length ≤ limit → (∀ c ∈ longer, isBlank c = true) →
      longer.length ≤ cut.length

end Text

theorem DocString.unindented (limit : Nat) (line : Text) :
    line.Unindented limit (unindent limit line) := by
  fun_induction unindent limit line with
  | case1 => exact ⟨[], rfl, Nat.le_refl 0, by simp, fun _ _ short _ => short⟩
  | case2 => exact ⟨[], rfl, Nat.zero_le _, by simp, fun _ within _ _ => within.length_le⟩
  | case3 limit c rest blank ih =>
      obtain ⟨cut, split, short, blanks, longest⟩ := ih
      refine ⟨c :: cut, by rw [List.cons_append, ← split], Nat.succ_le_succ short,
        List.forall_mem_cons.mpr ⟨blank, blanks⟩, ?_⟩
      intro longer within limited all
      cases longer with
      | nil => exact Nat.zero_le _
      | cons d more =>
          have later := longest more (List.cons_prefix_cons.mp within).2 (Nat.le_of_succ_le_succ limited)
            (List.forall_mem_cons.mp all).2
          exact Nat.succ_le_succ later
  | case4 limit c rest solid =>
      refine ⟨[], rfl, Nat.zero_le _, by simp, ?_⟩
      intro longer within _ all
      cases longer with
      | nil => exact Nat.le_refl 0
      | cons d more =>
          have first := (List.forall_mem_cons.mp all).1
          rw [(List.cons_prefix_cons.mp within).1] at first
          exact absurd first solid

theorem Delimiter.solid (delimiter : Delimiter) :
    delimiter.text ≠ [] ∧ ∀ c ∈ delimiter.text, Text.isSpace c = false := by
  cases delimiter with
  | quotes | fence =>
      refine ⟨List.cons_ne_nil _ _, fun c inside => ?_⟩
      simp only [text, List.mem_cons, List.not_mem_nil, or_false, or_self] at inside
      rw [inside]
      rfl

theorem Delimiter.trimStart_append (delimiter : Delimiter) {margin : Text}
    (white : ∀ c ∈ margin, Text.isSpace c = true) (behind : Text) :
    (margin ++ delimiter.text ++ behind).trimStart = delimiter.text ++ behind := by
  rw [List.append_assoc, Text.trimStart, List.dropWhile_append_of_pos white]
  cases delimiter <;> rfl

theorem Line.trimStart_raw (line : Line) :
    line.raw.trimStart = line.body ++ line.ending.text ∨ line.raw.trimStart = [] := by
  rw [raw_eq, List.append_assoc, Text.trimStart,
    List.dropWhile_append_of_pos fun c inside => List.mem_takeWhile_imp inside]
  cases body : line.body with
  | nil =>
      exact Or.inr (List.dropWhile_eq_nil_iff.mpr fun c inside => line.ending.isSpace_of_mem inside)
  | cons c rest =>
      have first := Text.head?_trimStart line.content c (by rw [← Line.body, body]; rfl)
      exact Or.inl (List.dropWhile_cons_of_neg (by simp [first]))

theorem Line.fills_iff_isDelimiter {line : Line} {delimiter : Delimiter} :
    delimiter.fills line.body = true ↔ line.raw.IsDelimiter delimiter.text := by
  constructor
  · intro fills
    exact ⟨_, Line.raw_of_fills fills⟩
  · rintro ⟨margin, behind, whole, white⟩
    obtain ⟨filled, solid⟩ := delimiter.solid
    obtain ⟨indented, trailing⟩ := List.forall_mem_append.mp white
    have bare : line.raw.trimStart = delimiter.text ++ behind := by
      rw [whole, delimiter.trimStart_append indented]
    rw [Delimiter.fills_iff]
    rcases line.trimStart_raw with body | none
    · rcases List.append_eq_append_iff.mp (body.symm.trans bare) with
        ⟨more, split, ending⟩ | ⟨rest, split, same⟩
      · -- A delimiter does not reach into the line break.
        cases more with
        | nil => exact ⟨[], by simp [split], by simp⟩
        | cons c others =>
            have space : Text.isSpace c = true := line.ending.isSpace_of_mem (by simp [ending])
            rw [solid c (by simp [split])] at space
            cases space
      · exact ⟨rest, split, fun c inside => trailing c (by simp [same, inside])⟩
    · rw [none] at bare
      exact absurd (List.append_eq_nil_iff.mp bare.symm).1 filled

/-- A doc string as it stands in a text: behind a line with its delimiter its lines, and then the first
line that is its delimiter again. -/
structure DocString.StandsIn (text : Text) (doc : DocString) : Prop where
  delimiter : ∃ delimiter : Delimiter, doc.delimiter = delimiter.text
  opens : ∃ margin behind, text.line? doc.location.line = some (margin ++ doc.delimiter ++ behind) ∧
    margin.length = doc.indent ∧ ∀ c ∈ margin ++ behind, Text.isSpace c = true
  lines : ∀ (index : Nat) (within : index < doc.lines.length), ∃ line,
    text.line? (doc.location.line + index + 1) = some line ∧ ¬ line.IsDelimiter doc.delimiter ∧
      line.Unindented doc.indent doc.lines[index]
  closes : ∃ line, text.line? (doc.location.line + doc.lines.length + 1) = some line ∧
    line.IsDelimiter doc.delimiter

theorem Line.Consecutive.number_getElem {number index : Nat} {lines : List Line}
    (numbered : Consecutive number lines) (within : index < lines.length) :
    lines[index].number = number + index := by
  induction lines generalizing number index with
  | nil => cases within
  | cons line rest ih =>
      cases index with
      | zero => exact numbered.1
      | succ index =>
          have later := ih numbered.2 (Nat.lt_of_succ_lt_succ within)
          rw [List.getElem_cons_succ, later]
          omega

section Whole

variable {setup : Setup} {text : Text} {tokens : List Token} {last : Mode}
  {before inside behind : List Line} {opening closing : Line} {block : Block}

structure Block.Numbered (block : Block) (lines : List Line) (closing : Line) : Prop where
  inside : ∀ (index : Nat) (within : index < lines.length),
    lines[index].number = block.location.line + 1 + index
  closing : closing.number = block.location.line + 1 + lines.length

theorem Block.Takes.numbered
    (takes : block.Takes setup (.initial setup) before opening inside closing behind tokens last)
    (split : Line.split text = before ++ opening :: (inside ++ closing :: behind)) :
    block.Numbered inside closing := by
  have numbered := Line.consecutive_split text
  rw [split] at numbered
  obtain ⟨first, further⟩ := numbered.drop
  have start : block.location.line = 1 + before.length := by
    rw [takes.location]
    exact first
  constructor
  case inside =>
    intro index within
    rw [further.take.number_getElem within, start]
  case closing => rw [further.drop.1, start]

/-- The tokens of a doc string hold the lines of its block. -/
theorem raw_of_takes
    (reads : Mode.Reads setup (.initial setup) (Line.split text) tokens (.ok last))
    (takes : block.Takes setup (.initial setup) before opening inside closing behind tokens last)
    (split : Line.split text = before ++ opening :: (inside ++ closing :: behind))
    {lines : List Token} (verbatim : ∀ token ∈ lines, token ∈ tokens ∧ token.kind = .docStringLine)
    (whole : lines.map (·.location.line) =
      List.range' (block.location.line + 1) (block.stop - (block.location.line + 1))) :
    lines.map (·.text) = inside.map Line.raw := by
  have numbered := takes.numbered split
  have count := congrArg List.length whole
  rw [List.length_map, List.length_range', Block.stop, takes.closingLine, Option.getD_some,
    numbered.closing] at count
  apply List.ext_getElem
  · simp only [List.length_map]
    omega
  · intro index left right
    rw [List.length_map] at left right
    obtain ⟨member, kind⟩ := verbatim lines[index] (List.getElem_mem left)
    have inText : inside[index] ∈ Line.split text := by
      rw [split]
      simp
    have found := line?_of_reads reads member kind
    have stands := Line.line?_of_mem inText
    rw [number_of_range' whole left] at found
    rw [numbered.inside index right, found] at stands
    simpa using stands

/-- The lines of a block, less indentation, make up a doc string that stands in the text. -/
theorem standsIn_of_takes
    (takes : block.Takes setup (.initial setup) before opening inside closing behind tokens last)
    (split : Line.split text = before ++ opening :: (inside ++ closing :: behind)) :
    (DocString.mk (inside.map fun line => DocString.unindent (block.location.column - 1) line.raw)
      block.delimiter.text (block.location.column - 1) block.location).StandsIn text := by
  have numbered := takes.numbered split
  have stands : ∀ line ∈ Line.split text, text.line? line.number = some line.raw :=
    fun line member => Line.line?_of_mem member
  constructor
  case delimiter => exact ⟨block.delimiter, rfl⟩
  case opens =>
    obtain ⟨rest, whole, white⟩ := Line.raw_of_fills takes.opens
    have here := stands opening (by simp [split])
    rw [whole] at here
    exact ⟨_, rest, by rw [takes.location]; exact here, by rw [takes.location]; rfl, white⟩
  case lines =>
    intro index within
    have bound : index < inside.length := by simpa using within
    have here := stands inside[index] (by simp [split])
    rw [numbered.inside index bound, Nat.add_right_comm] at here
    refine ⟨inside[index].raw, here, ?_, ?_⟩
    · rw [← Line.fills_iff_isDelimiter]
      exact takes.differ _ (List.getElem_mem bound)
    · simp only [List.getElem_map]
      exact DocString.unindented _ _
  case closes =>
    have here := stands closing (by simp [split])
    rw [numbered.closing, Nat.add_right_comm] at here
    exact ⟨closing.raw, by simpa using here, Line.fills_iff_isDelimiter.mp takes.closes⟩

end Whole

/-- Every doc string of an accepted document holds the lines of a block in the text, less indentation,
and these lines mean nothing else. -/
theorem docStrings_verbatim (setup : Setup) (text : Text) (feature : Feature)
    (parsed : parse setup text = .ok feature) :
    ∀ doc ∈ feature.docStrings, doc.StandsIn text ∧
      ∃ (before inside behind : List Line) (opening closing : Line) (block : Block)
          (tokens : List Token) (last : Mode),
        tokenize setup text = .ok (tokens ++ [⟨.eof, [], text.finish⟩]) ∧
        Line.split text = before ++ opening :: (inside ++ closing :: behind) ∧
        block.Takes setup (.initial setup) before opening inside closing behind tokens last ∧
        doc.location = block.location ∧ doc.delimiter = block.delimiter.text ∧
        doc.lines = inside.map fun line => DocString.unindent doc.indent line.raw := by
  obtain ⟨tokens, last, reads, docs, _⟩ := sources_of_parse parsed
  intro doc held
  obtain ⟨block, known, lines, verbatim, whole, rfl⟩ := docs doc held
  obtain ⟨before, opening, inside, closing, behind, split, takes⟩ :=
    reads.run.1.takes_of_mem rfl known (by simp [Mode.initial])
  have taken : (lines.map fun token => DocString.unindent (block.location.column - 1) token.text) =
      inside.map fun line => DocString.unindent (block.location.column - 1) line.raw := by
    have same := congrArg (List.map (DocString.unindent (block.location.column - 1)))
      (raw_of_takes reads takes split verbatim whole)
    rw [List.map_map, List.map_map] at same
    exact same
  have lexed := (tokenize_of_reads_ok reads).1
  rw [Line.finish_split] at lexed
  rw [taken]
  exact ⟨standsIn_of_takes takes split, before, inside, behind, opening, closing, block, tokens, last,
    lexed, split, takes, rfl, rfl, rfl⟩

def disguisedText : Text :=
  "# language: en\nFeature: f\n  Scenario: s\n    Given a\n    \"\"\"\n    Scenario: x\n      @t | a # c\r\n\n  # language: fr\n\t\t```\n    \"\"\" \"\"\"\n  \"\"\" \n    And b\n".toList

theorem docStrings_verbatim_disguisedText :
    ∃ feature doc, parse .standard disguisedText = .ok feature ∧ feature.docStrings = [doc] ∧
      doc.lines = ["Scenario: x\n", "  @t | a # c\r\n", "\n", "# language: fr\n", "```\n",
        "\"\"\" \"\"\"\n"].map String.toList ∧
      doc.StandsIn disguisedText := by
  have outcome : (parse .standard disguisedText).toOption.map
      (fun feature => feature.docStrings.map (·.lines)) =
        some [["Scenario: x\n", "  @t | a # c\r\n", "\n", "# language: fr\n", "```\n",
          "\"\"\" \"\"\"\n"].map String.toList] := by decide +kernel
  obtain ⟨feature, parsed, lines⟩ := exists_of_outcome outcome
  obtain ⟨doc, rest, docs, same, none⟩ := List.map_eq_cons_iff.mp lines
  obtain rfl := List.map_eq_nil_iff.mp none
  have stands := (docStrings_verbatim .standard disguisedText feature parsed doc
    (by rw [docs]; exact List.mem_cons_self)).1
  exact ⟨feature, doc, parsed, docs, same, stands⟩

end Gherkin
