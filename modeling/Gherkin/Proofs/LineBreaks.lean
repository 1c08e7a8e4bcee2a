import Gherkin.Proofs.ChangedCases
import Gherkin.Proofs.Compilation
import Gherkin.Proofs.Lockstep
import Gherkin.Proofs.Provenance
import Mathlib.Data.List.TakeWhile

/-!
Line breaks.

A document with line feeds and the same document with a carriage return in front of each of them are
read alike: the break belongs to no text except that of a doc string. `parse_crlf` says that the
lines of doc strings are all that changes, in the feature and in its test cases, and that they still
spell the same content.
-/

namespace Gherkin

namespace Text

def crlf : Text → Text
  | [] => []
  | '\n' :: rest => '\r' :: '\n' :: crlf rest
  | c :: rest => c :: crlf rest

def lf : Text → Text
  | [] => []
  | '\r' :: '\n' :: rest => '\n' :: lf rest
  | c :: rest => c :: lf rest

def endCrlf : Text → Text
  | [] => []
  | ['\n'] => ['\r', '\n']
  | c :: rest => c :: endCrlf rest

theorem endCrlf_append (body : Text) : endCrlf (body ++ ['\n']) = body ++ ['\r', '\n'] := by
  induction body with
  | nil => rfl
  | cons c rest ih =>
      rw [List.cons_append, endCrlf, ih]
      · rfl
      · simp

theorem endCrlf_of_notMem {text : Text} (unbroken : '\n' ∉ text) : endCrlf text = text := by
  induction text with
  | nil => rfl
  | cons c rest ih =>
      rw [endCrlf, ih fun inside => unbroken (List.mem_cons_of_mem c inside)]
      intro same _
      exact unbroken (same ▸ List.mem_cons_self)

theorem lf_append {text : Text} (plain : '\r' ∉ text) (rest : Text) :
    lf (text ++ rest) = text ++ lf rest := by
  induction text with
  | nil => rfl
  | cons c more ih =>
      rw [List.cons_append, lf, ih fun inside => plain (List.mem_cons_of_mem c inside)]
      · rfl
      · intro _ same
        exact absurd (same ▸ List.mem_cons_self) plain

theorem dropBreak_crlf (body : Text) : dropBreak (body ++ ['\r', '\n']) = body := by
  induction body with
  | nil => rfl
  | cons c rest ih =>
      rw [List.cons_append, dropBreak, ih]
      · simp
      · intro _ same
        simpa using congrArg List.length same

theorem dropBreak_lf {body : Text} (plain : '\r' ∉ body) : dropBreak (body ++ ['\n']) = body := by
  induction body with
  | nil => rfl
  | cons c rest ih =>
      rw [List.cons_append, dropBreak, ih fun inside => plain (List.mem_cons_of_mem c inside)]
      · simp
      · intro same
        exact absurd (same ▸ List.mem_cons_self) plain

end Text

namespace Line

def crlf (line : Line) : Line :=
  { line with ending := if line.ending = .lf then .crlf else line.ending }

theorem splitFrom_crlf (number : Nat) {text : Text} (plain : '\r' ∉ text) :
    splitFrom number text.crlf = (splitFrom number text).map crlf := by
  fun_induction splitFrom number text with
  | case1 => rfl
  | case2 => exact absurd List.mem_cons_self plain
  | case3 number rest ih =>
      rw [Text.crlf, splitFrom, ih fun inside => plain (List.mem_cons_of_mem _ inside)]
      rfl
  | case4 number c rest other feed empty ih =>
      have notReturn : c ≠ '\r' := fun same => plain (same ▸ List.mem_cons_self)
      have later := ih fun inside => plain (List.mem_cons_of_mem _ inside)
      rw [empty] at later
      rw [Text.crlf, splitFrom, later]
      · rfl
      · exact fun _ same => absurd same notReturn
      · exact feed
      · exact feed
  | case5 number c rest other feed line more found ih =>
      have notReturn : c ≠ '\r' := fun same => plain (same ▸ List.mem_cons_self)
      have later := ih fun inside => plain (List.mem_cons_of_mem _ inside)
      rw [found] at later
      rw [Text.crlf, splitFrom, later]
      · rfl
      · exact fun _ same => absurd same notReturn
      · exact feed
      · exact feed

/-- A line feed ends the line it stands on. -/
theorem notMem_content (number : Nat) (text : Text) :
    ∀ line ∈ splitFrom number text, '\n' ∉ line.content := by
  fun_induction splitFrom number text with
  | case1 => simp
  | case2 number rest ih => exact List.forall_mem_cons.mpr ⟨by simp, ih⟩
  | case3 number rest ih => exact List.forall_mem_cons.mpr ⟨by simp, ih⟩
  | case4 number c rest other feed empty ih => simpa using fun same => feed same.symm
  | case5 number c rest other feed line more found ih =>
      rw [found] at ih
      obtain ⟨first, others⟩ := List.forall_mem_cons.mp ih
      refine List.forall_mem_cons.mpr ⟨?_, others⟩
      simpa using ⟨fun same => feed same.symm, first⟩

/-- Only the last line can lack a break. -/
theorem number_of_unbroken (number : Nat) (text : Text) :
    ∀ line ∈ splitFrom number text, line.ending = .none →
      line.number + 1 = number + (splitFrom number text).length := by
  fun_induction splitFrom number text with
  | case1 => simp
  | case2 number rest ih =>
      refine List.forall_mem_cons.mpr ⟨by simp, fun line member unbroken => ?_⟩
      rw [ih line member unbroken, List.length_cons, Nat.add_right_comm]
      rfl
  | case3 number rest ih =>
      refine List.forall_mem_cons.mpr ⟨by simp, fun line member unbroken => ?_⟩
      rw [ih line member unbroken, List.length_cons, Nat.add_right_comm]
      rfl
  | case4 number c rest other feed empty ih => simp
  | case5 number c rest other feed line more found ih =>
      rw [found] at ih
      exact List.forall_mem_cons.mpr (List.forall_mem_cons.mp ih)

theorem mem_text_of_mem_raw {text : Text} {line : Line} (member : line ∈ split text) {c : Char}
    (inside : c ∈ line.raw) : c ∈ text := by
  rw [← flatMap_raw_split text]
  exact List.mem_flatMap.mpr ⟨line, member, inside⟩

theorem ending_ne_crlf {line : Line} (plain : '\r' ∉ line.raw) : line.ending ≠ .crlf := by
  intro ending
  apply plain
  rw [raw, ending]
  exact List.mem_append_right _ List.mem_cons_self

theorem finish_crlf (lines : List Line) : finish (lines.map crlf) = finish lines := by
  rw [finish, finish, List.getLast?_map]
  cases lines.getLast? with
  | none => rfl
  | some line => cases ending : line.ending <;> simp [crlf, ending]

end Line

/-- A break is no indentation. -/
theorem DocString.unindent_append (count : Nat) (content : Text) {c : Char}
    (solid : Text.isBlank c = false) (rest : Text) :
    unindent count (content ++ c :: rest) = unindent count content ++ c :: rest := by
  fun_induction unindent count content with
  | case1 content => rfl
  | case2 count => simp [unindent, solid]
  | case3 count d content blank ih => rw [List.cons_append, unindent, if_pos blank, ih]
  | case4 count d content filled => rw [List.cons_append, unindent, if_neg filled]

def Change.crlf : Change where
  line := id
  indent := 0
  verbatim := Text.endCrlf

namespace Change

theorem tellsLine_crlf {line : Line} (plain : '\r' ∉ line.raw) (unbroken : '\n' ∉ line.content) :
    crlf.TellsLine line line.crlf where
  number := rfl
  content := ⟨[], rfl, rfl, by simp⟩
  verbatim count := by
    have verbatim : crlf.verbatim = Text.endCrlf := rfl
    have width : count + crlf.indent = count := rfl
    rw [verbatim, width, Line.raw, Line.raw]
    cases ending : line.ending with
    | none =>
        have whole : line.crlf.ending = .none := by simp [Line.crlf, ending]
        rw [whole, LineBreak.text, List.append_nil, List.append_nil, Text.endCrlf_of_notMem]
        · rfl
        · exact fun inside => unbroken ((DocString.unindent_suffix count _).subset inside)
    | lf =>
        have broken : line.crlf.ending = .crlf := by simp [Line.crlf, ending]
        rw [broken, LineBreak.text, LineBreak.text, DocString.unindent_append count _ rfl,
          DocString.unindent_append count _ rfl, Text.endCrlf_append]
        rfl
    | crlf => exact absurd ending (Line.ending_ne_crlf plain)

theorem location_crlf (location : Location) : crlf.location location = location :=
  rfl

theorem parsed_crlf (outcome : Except ParseError Feature) :
    crlf.parsed outcome = outcome.map crlf.feature := by
  match outcome with
  | .ok feature => rfl
  | .error (.grammar error) => rfl
  | .error (.lex error) => cases error <;> rfl

theorem compiled_crlf {α β : Type} (value : α → β) (outcome : Except CompileError α) :
    crlf.compiled value outcome = outcome.map value := by
  cases outcome <;> rfl

theorem parse_eq_crlf (setup : Setup) {text : Text} (plain : '\r' ∉ text) :
    parse setup text.crlf = crlf.parsed (parse setup text) := by
  have lines : Line.split text.crlf = (Line.split text).map Line.crlf := Line.splitFrom_crlf 1 plain
  apply crlf.parse_eq
  case rises => exact fun _ _ => Iff.rfl
  case alongside =>
      rw [lines]
      apply alongside_of_forall₂
      apply List.forall₂_map_right_iff.mpr
      apply List.forall₂_same.mpr
      intro line member
      apply tellsLine_crlf
      · exact fun inside => plain (Line.mem_text_of_mem_raw member inside)
      · exact Line.notMem_content 1 text line member
  case finish => rw [lines, Line.finish_crlf, location_crlf]

end Change

namespace Piece

section

variable {c : Char} (stops : isNameCharacter c = false) (other : c ≠ '>')

include stops other

theorem name?_append (text rest : Text) : name? (text ++ c :: rest) = name? text := by
  unfold name?
  cases dropped : text.dropWhile isNameCharacter with
  | nil =>
      have fit : ∀ d ∈ text, isNameCharacter d = true := List.dropWhile_eq_nil_iff.mp dropped
      rw [List.takeWhile_append_of_pos fit, List.dropWhile_append_of_pos fit,
        List.dropWhile_cons_of_neg (by simp [stops])]
      split
      · rename_i same
        exact absurd (List.cons.inj same).1 other
      · cases text.takeWhile isNameCharacter <;> rfl
  | cons d more =>
      have taken : (text ++ c :: rest).takeWhile isNameCharacter =
          text.takeWhile isNameCharacter := by
        rw [List.takeWhile_append, if_neg]
        intro whole
        have length := congrArg List.length
          (List.takeWhile_append_dropWhile (p := isNameCharacter) (l := text))
        rw [List.length_append, whole, dropped] at length
        simp at length
      have left : (text ++ c :: rest).dropWhile isNameCharacter = d :: (more ++ c :: rest) := by
        rw [List.dropWhile_append, dropped]
        rfl
      rw [taken, left]
      split <;> split <;> simp_all

/-- No placeholder reaches across a break. -/
theorem split_append (text rest : Text) :
    split (text ++ c :: rest) = split text ++ split (c :: rest) := by
  fun_induction split text with
  | case1 => rfl
  | case2 text name found ih =>
      obtain ⟨after, same, fit⟩ := name?_eq_some text name found
      have room : name.length + 1 ≤ (split text).length := by
        rw [same, split_of_name name after fit]
        simp
      rw [List.cons_append, split, name?_append stops other, found]
      dsimp only
      rw [ih, List.drop_append_of_le_length room, List.cons_append]
  | case3 text found ih =>
      rw [List.cons_append, split, name?_append stops other, found]
      dsimp only
      rw [ih, List.cons_append]
  | case4 d text differs ih =>
      rw [List.cons_append, split, ih, List.cons_append]
      exact differs

end

theorem split_append_break (text : Text) (ending : LineBreak) :
    split (text ++ ending.text) = split text ++ ending.text.map literal := by
  cases ending with
  | none => simp [LineBreak.text]
  | lf => exact split_append rfl (by decide) text []
  | crlf => exact split_append rfl (by decide) text ['\n']

end Piece

namespace ExampleRow

variable (row : ExampleRow) (text : Text)

theorem missing?_append_break (ending : LineBreak) :
    row.missing? (text ++ ending.text) = row.missing? text := by
  rw [missing?, Piece.split_append_break, List.findSome?_append]
  cases ending <;> simp [LineBreak.text, missing?]

theorem replace_append_break (ending : LineBreak) :
    row.replace (text ++ ending.text) = row.replace text ++ ending.text := by
  rw [replace, Piece.split_append_break, List.flatMap_append]
  cases ending <;> simp [LineBreak.text, replace]

theorem fill_endCrlf (body : Text) :
    row.fill (Text.endCrlf (body ++ ['\n'])) = (row.fill (body ++ ['\n'])).map Text.endCrlf := by
  have missing := row.missing?_append_break body
  have replaced := row.replace_append_break body
  rw [Text.endCrlf_append, fill_eq, fill_eq]
  have unbroken : row.missing? (body ++ ['\r', '\n']) = row.missing? (body ++ ['\n']) :=
    (missing .crlf).trans (missing .lf).symm
  have broken : row.replace (body ++ ['\r', '\n']) =
      Text.endCrlf (row.replace (body ++ ['\n'])) := by
    have feed : row.replace (body ++ ['\n']) = row.replace body ++ ['\n'] := replaced .lf
    rw [feed, Text.endCrlf_append]
    exact replaced .crlf
  rw [unbroken, broken]
  cases row.missing? (body ++ ['\n']) <;> rfl

/-- A text with values put in has characters of the text and of the values. -/
theorem mem_replace {c : Char} (inside : c ∈ row.replace text) :
    c ∈ text ∨ ∃ value ∈ row.values, c ∈ value := by
  obtain ⟨piece, held, present⟩ := List.mem_flatMap.mp inside
  have own : ∀ d ∈ piece.text, d ∈ text := by
    intro d there
    rw [← Piece.flatMap_text_split text]
    exact List.mem_flatMap.mpr ⟨piece, held, there⟩
  cases piece with
  | literal d => exact Or.inl (own c present)
  | placeholder name =>
      dsimp only at present
      cases found : row.value? name with
      | none =>
          rw [found] at present
          exact Or.inl (own c present)
      | some value =>
          rw [found] at present
          obtain ⟨entry, here, rfl⟩ := Option.map_eq_some_iff.mp found
          exact Or.inr ⟨entry.2, (List.of_mem_zip (List.mem_of_find?_eq_some here)).2, present⟩

end ExampleRow

def Text.PlainLine (line : Text) : Prop :=
  ∃ body, line = body ++ ['\n'] ∧ '\r' ∉ body

namespace DocString

def Plain (doc : DocString) : Prop :=
  ∀ line ∈ doc.lines, Text.PlainLine line

theorem lf_flatten {lines : List Text} (plain : ∀ line ∈ lines, Text.PlainLine line) (rest : Text) :
    Text.lf ((lines.map Text.endCrlf).flatten ++ rest) = lines.flatten ++ Text.lf rest := by
  induction lines with
  | nil => rfl
  | cons line others ih =>
      obtain ⟨⟨body, rfl, free⟩, later⟩ := List.forall_mem_cons.mp plain
      rw [List.map_cons, List.flatten_cons, List.flatten_cons, Text.endCrlf_append, List.append_assoc,
        List.append_assoc, Text.lf_append free, List.append_assoc]
      have feed : Text.lf (['\r', '\n'] ++ ((others.map Text.endCrlf).flatten ++ rest)) =
          '\n' :: Text.lf ((others.map Text.endCrlf).flatten ++ rest) := rfl
      rw [feed, ih later, List.append_cons, List.append_assoc]

theorem lf_content {doc : DocString} (plain : doc.Plain) :
    Text.lf (Change.crlf.docString doc).content = doc.content := by
  have lines : (Change.crlf.docString doc).lines = doc.lines.map Text.endCrlf := rfl
  rw [content, content, lines]
  unfold Plain at plain
  rcases List.eq_nil_or_concat doc.lines with empty | ⟨before, last, whole⟩
  · rw [empty]
    rfl
  · rw [List.concat_eq_append] at whole
    rw [whole] at plain ⊢
    obtain ⟨earlier, final⟩ := List.forall_mem_append.mp plain
    obtain ⟨body, rfl, free⟩ := final last List.mem_cons_self
    have clear : '\r' ∉ before.flatten ++ body := by
      intro inside
      rcases List.mem_append.mp inside with above | here
      · obtain ⟨line, member, present⟩ := List.mem_flatten.mp above
        obtain ⟨text, rfl, clean⟩ := earlier line member
        exact clean (by simpa using present)
      · exact free here
    have other : ((before ++ [body ++ ['\n']]).map Text.endCrlf).flatten =
        ((before.map Text.endCrlf).flatten ++ body) ++ ['\r', '\n'] := by
      simp [Text.endCrlf_append]
    have own : (before ++ [body ++ ['\n']]).flatten = (before.flatten ++ body) ++ ['\n'] := by simp
    have same := Text.lf_append free []
    rw [List.append_nil] at same
    rw [other, own, Text.dropBreak_crlf, Text.dropBreak_lf clear, lf_flatten earlier, same]
    exact congrArg _ (List.append_nil body)

theorem plain_replace {doc : DocString} (plain : doc.Plain) {row : ExampleRow}
    (values : ∀ value ∈ row.values, '\r' ∉ value) : (doc.replace row).Plain := by
  intro line member
  obtain ⟨source, held, rfl⟩ := List.mem_map.mp member
  obtain ⟨body, rfl, free⟩ := plain source held
  refine ⟨row.replace body, row.replace_append_break body .lf, ?_⟩
  intro inside
  rcases row.mem_replace body inside with own | ⟨value, given, present⟩
  · exact free own
  · exact values value given present

end DocString

/-- The only character that an escape brings in is the line feed. -/
theorem TableCell.mem_of_mem_unescape {text : Text} {c : Char} (inside : c ∈ unescape text)
    (other : c ≠ '\n') : c ∈ text := by
  fun_induction unescape text <;> grind

/-- A line of a doc string is a line of the document that has a break, less its indentation. -/
theorem exists_line_of_docString {setup : Setup} {text : Text} {feature : Feature}
    (parsed : parse setup text = .ok feature) :
    ∀ doc ∈ feature.docStrings, ∀ line ∈ doc.lines, ∃ source ∈ Line.split text,
      source.ending ≠ .none ∧ line = DocString.unindent (doc.location.column - 1) source.raw := by
  obtain ⟨tokens, last, reads, docs, _⟩ := sources_of_parse parsed
  obtain ⟨run, _⟩ := reads.run
  have numbered := Line.consecutive_split text
  have bounded := (Mode.bounded_initial setup).run run numbered
  intro doc member line held
  obtain ⟨block, known, lines, verbatim, whole, rfl⟩ := docs doc member
  obtain ⟨token, among, rfl⟩ := List.mem_map.mp held
  obtain ⟨present, kind⟩ := verbatim token among
  obtain ⟨source, listed, number, raw⟩ := run.line_of_verbatim present kind
  -- The closing delimiter has a line too, so this one is not the last.
  have before : source.number < block.stop := by
    have inside := List.mem_map_of_mem (f := fun token : Token => token.location.line) among
    rw [whole, List.mem_range'_1] at inside
    omega
  have stop := (bounded.closed block known).2.2
  refine ⟨source, listed, ?_, by rw [raw]⟩
  intro ends
  have final := Line.number_of_unbroken 1 text source listed ends
  rw [← Line.split] at final
  omega

section Documents

variable {setup : Setup} {text : Text} {feature : Feature} (parsed : parse setup text = .ok feature)
  (plain : '\r' ∉ text)

include parsed plain

theorem docStrings_plain : ∀ doc ∈ feature.docStrings, doc.Plain := by
  intro doc member line held
  obtain ⟨source, listed, broken, rfl⟩ := exists_line_of_docString parsed doc member line held
  have clear : '\r' ∉ source.raw := fun inside => plain (Line.mem_text_of_mem_raw listed inside)
  have ending : source.ending = .lf := by
    cases ends : source.ending with
    | none => exact absurd ends broken
    | lf => rfl
    | crlf => exact absurd ends (Line.ending_ne_crlf clear)
  have split : source.raw = source.content ++ ['\n'] := by
    rw [Line.raw, ending]
    rfl
  refine ⟨DocString.unindent (doc.location.column - 1) source.content, ?_, ?_⟩
  · rw [split]
    exact DocString.unindent_append _ _ rfl []
  · intro inside
    exact clear (Line.mem_raw_of_content ((DocString.unindent_suffix _ _).subset inside))

theorem exampleCells_plain : ∀ cell ∈ feature.exampleCells, '\r' ∉ cell.value := by
  obtain ⟨tokens, last, reads, _, cells⟩ := sources_of_parse parsed
  obtain ⟨run, _⟩ := reads.run
  intro cell member inside
  rcases cells cell member with empty | ⟨token, held, _, rfl⟩
  · rw [empty] at inside
    cases inside
  · have trimmed := TableCell.mem_of_mem_unescape inside (by decide)
    obtain ⟨dropped, split, _⟩ :=
      Text.dropTrailing_append Text.isBlank (token.text.dropWhile Text.isBlank)
    have present : '\r' ∈ token.text := by
      apply (List.dropWhile_sublist Text.isBlank).subset
      rw [split]
      exact List.mem_append_left dropped trimmed
    have read := run.mem_raw held present
    rw [Line.flatMap_raw_split] at read
    exact plain read

theorem testCases_plain {tests : List TestCase} (compiled : feature.compile = .ok tests) :
    ∀ test ∈ tests, ∀ doc ∈ test.docStrings, doc.Plain := by
  intro test member doc held
  rcases docString_of_compile compiled member held with own | ⟨source, among, row, values, rfl⟩
  · exact docStrings_plain parsed plain doc own
  · apply DocString.plain_replace (docStrings_plain parsed plain source among)
    intro value given
    obtain ⟨cell, listed, rfl⟩ := values value given
    exact exampleCells_plain parsed plain cell listed

theorem compile_eq_crlf :
    (Change.crlf.feature feature).compile =
      feature.compile.map (List.map Change.crlf.testCase) := by
  rw [Change.crlf.compile_eq_compiled, Change.compiled_crlf]
  intro doc member
  apply Change.crlf.fits_of_lines
  case lines =>
      intro line held row
      obtain ⟨body, rfl, _⟩ := docStrings_plain parsed plain doc member line held
      exact row.fill_endCrlf body
  case places => exact fun _ _ => rfl

end Documents

/-- Parsing a document with other line breaks yields the same error, or the same feature but for the
lines of doc strings, which end in the other break. The test cases differ in the same way, and the
content of every doc string differs in its breaks only. -/
theorem parse_crlf (setup : Setup) (text : Text) (plain : '\r' ∉ text) :
    parse setup text.crlf = (parse setup text).map Change.crlf.feature ∧
    ∀ feature, parse setup text = .ok feature →
      (Change.crlf.feature feature).compile =
        feature.compile.map (List.map Change.crlf.testCase) ∧
      ∀ doc ∈ feature.docStrings ++ (feature.compile.toOption.getD []).flatMap TestCase.docStrings,
        (∀ line ∈ doc.lines, ∃ body, line = body ++ ['\n'] ∧
          Change.crlf.verbatim line = body ++ ['\r', '\n']) ∧
        Text.lf (Change.crlf.docString doc).content = doc.content := by
  constructor
  · rw [Change.parse_eq_crlf setup plain, Change.parsed_crlf]
  · intro feature parsed
    refine ⟨compile_eq_crlf parsed plain, ?_⟩
    intro doc member
    have lines : doc.Plain := by
      rcases List.mem_append.mp member with own | derived
      · exact docStrings_plain parsed plain doc own
      · cases compiled : feature.compile with
        | error error =>
            rw [compiled] at derived
            cases derived
        | ok tests =>
            rw [compiled] at derived
            obtain ⟨test, listed, held⟩ := List.mem_flatMap.mp derived
            exact testCases_plain parsed plain compiled test listed doc held
    refine ⟨?_, DocString.lf_content lines⟩
    intro line held
    obtain ⟨body, rfl, _⟩ := lines line held
    exact ⟨body, rfl, Text.endCrlf_append body⟩

def outlineText : Text :=
  ("Feature: f\n  Scenario Outline: s\n    Given a\n      \"\"\"\n      <x>\n      \"\"\"\n" ++
    "    Examples:\n      | x |\n      | 1 |\n").toList

theorem parse_crlf_outlineText :
    '\r' ∉ outlineText ∧ ∃ feature, parse .standard outlineText = .ok feature ∧
      parse .standard outlineText.crlf = .ok (Change.crlf.feature feature) ∧
      (Change.crlf.feature feature).compile =
        feature.compile.map (List.map Change.crlf.testCase) := by
  have plain : '\r' ∉ outlineText := by decide +kernel
  obtain ⟨feature, parsed⟩ : ∃ feature, parse .standard outlineText = .ok feature :=
    exists_of_isOk (by decide +kernel)
  obtain ⟨same, further⟩ := parse_crlf .standard outlineText plain
  rw [parsed] at same
  exact ⟨plain, feature, parsed, same, (further feature parsed).1⟩

end Gherkin
