import Gherkin.Proofs.ChangedCases
import Gherkin.Proofs.Lockstep
import Gherkin.Proofs.Provenance
import Gherkin.Proofs.States

/-!
Lines that mean nothing.

A blank line or a comment can be put in front of any line of a document that is not inside a doc
string. `parse_insert` says that nothing changes except that what stands below moves down by one line:
in the feature, in its test cases, and in the error if there is one. The line must not be read as a
language header, which a comment can be as long as nothing but blank lines and comments stand above.
-/

namespace Gherkin

/-! A line that is put in stands between two texts, and each of them is read as it was. Only the lines below
are counted differently. -/

namespace Text

def AtLineStart (before : Text) : Prop :=
  before = [] ∨ before.getLast? = some '\n'

inductive Whole : Text → Prop where
  | nil : Whole []
  | line {content rest : Text} (single : '\n' ∉ content) (later : Whole rest) :
      Whole (content ++ '\n' :: rest)

theorem AtLineStart.whole {before : Text} (start : AtLineStart before) : Whole before := by
  induction before with
  | nil => exact .nil
  | cons c rest ih =>
      have last : (c :: rest).getLast? = some '\n' := by
        rcases start with empty | last
        · cases empty
        · exact last
      have later : rest ≠ [] → Whole rest := by
        intro filled
        obtain ⟨d, more, rfl⟩ := List.exists_cons_of_ne_nil filled
        exact ih (Or.inr (by simpa using last))
      by_cases feed : c = '\n'
      · have tail : Whole rest := by
          by_cases empty : rest = []
          · exact empty ▸ .nil
          · exact later empty
        exact feed ▸ (Whole.line List.not_mem_nil tail : Whole ([] ++ '\n' :: rest))
      · have filled : rest ≠ [] := by
          rintro rfl
          exact feed (by simpa using last)
        -- The character joins the line that the rest begins with.
        cases later filled with
        | nil => exact absurd rfl filled
        | @line content others single tail =>
            have longer : '\n' ∉ c :: content := by
              simpa using ⟨fun same => feed same.symm, single⟩
            exact Whole.line longer tail

end Text

namespace Line

/-- A carriage return at the end of a line belongs to the break. -/
theorem splitFrom_line (number : Nat) {content : Text} (single : '\n' ∉ content) :
    ∃ line : Line,
      (∀ rest, splitFrom number (content ++ '\n' :: rest) = line :: splitFrom (number + 1) rest) ∧
      line.number = number ∧ line.ending ≠ .none ∧
      (content = line.content ∨ content = line.content ++ ['\r']) := by
  induction content with
  | nil => exact ⟨⟨number, [], .lf⟩, fun _ => rfl, rfl, nofun, Or.inl rfl⟩
  | cons c more ih =>
      have notFeed : c ≠ '\n' := fun same => single (same ▸ List.mem_cons_self)
      have later : '\n' ∉ more := fun inside => single (List.mem_cons_of_mem c inside)
      by_cases last : c = '\r' ∧ more = []
      · obtain ⟨rfl, rfl⟩ := last
        exact ⟨⟨number, [], .crlf⟩, fun _ => rfl, rfl, nofun, Or.inr rfl⟩
      · obtain ⟨line, split, here, broken, held⟩ := ih later
        refine ⟨{ line with content := c :: line.content }, ?_, here, broken, ?_⟩
        · intro rest
          rw [List.cons_append, splitFrom, split]
          · intro tail same joined
            cases more with
            | nil => exact last ⟨same, rfl⟩
            | cons d others =>
                rw [List.cons_append, List.cons.injEq] at joined
                exact later (joined.1 ▸ List.mem_cons_self)
          · exact notFeed
        · rcases held with same | same
          · exact Or.inl (congrArg (c :: ·) same)
          · exact Or.inr (congrArg (c :: ·) same)

theorem splitFrom_append (number : Nat) {before : Text} (whole : before.Whole) (after : Text) :
    splitFrom number (before ++ after) =
      splitFrom number before ++ splitFrom (number + (splitFrom number before).length) after := by
  induction whole generalizing number with
  | nil => rfl
  | line single _ ih =>
      obtain ⟨line, split, _⟩ := splitFrom_line number single
      rw [List.append_assoc, List.cons_append, split, split, ih, List.length_cons, Nat.add_right_comm,
        Nat.add_assoc, List.cons_append]

theorem ending_ne_none (number : Nat) {before : Text} (whole : before.Whole) :
    ∀ line ∈ splitFrom number before, line.ending ≠ .none := by
  induction whole generalizing number with
  | nil => simp [splitFrom]
  | line single _ ih =>
      obtain ⟨line, split, _, broken, _⟩ := splitFrom_line number single
      rw [split]
      exact List.forall_mem_cons.mpr ⟨broken, ih (number + 1)⟩

def lower (line : Line) : Line :=
  { line with number := line.number + 1 }

theorem splitFrom_succ (number : Nat) (text : Text) :
    splitFrom (number + 1) text = (splitFrom number text).map lower := by
  fun_induction splitFrom number text with
  | case1 => rfl
  | case2 number rest ih => rw [splitFrom, ih]; rfl
  | case3 number rest ih => rw [splitFrom, ih]; rfl
  | case4 number c rest other feed empty ih =>
      rw [empty] at ih
      rw [splitFrom, ih]
      · rfl
      · exact other
      · exact feed
  | case5 number c rest other feed line more found ih =>
      rw [found] at ih
      rw [splitFrom, ih]
      · rfl
      · exact other
      · exact feed

theorem Consecutive.append {number : Nat} {lines others : List Line}
    (numbered : Consecutive number lines) (later : Consecutive (number + lines.length) others) :
    Consecutive number (lines ++ others) := by
  induction lines generalizing number with
  | nil => exact later
  | cons line rest ih =>
      refine ⟨numbered.1, ih numbered.2 ?_⟩
      rwa [Nat.add_right_comm, Nat.add_assoc]

theorem Consecutive.number_of_mem {number : Nat} {lines : List Line}
    (numbered : Consecutive number lines) {line : Line} (member : line ∈ lines) :
    number ≤ line.number ∧ line.number < number + lines.length := by
  induction lines generalizing number with
  | nil => cases member
  | cons first rest ih =>
      rw [List.length_cons]
      rcases List.mem_cons.mp member with rfl | later
      · rw [numbered.1]
        omega
      · have bounds := ih numbered.2 later
        omega

theorem finish_concat (lines : List Line) (last : Line) : finish (lines ++ [last]) = finish [last] := by
  rw [finish, List.getLast?_concat]
  rfl

theorem finish_of_broken {lines : List Line} (numbered : Consecutive 1 lines)
    (broken : ∀ line ∈ lines, line.ending ≠ .none) : finish lines = ⟨1 + lines.length, 1⟩ := by
  rw [finish]
  cases final : lines.getLast? with
  | none =>
      rw [List.getLast?_eq_none_iff.mp final]
      rfl
  | some line =>
      have number := number_of_getLast? 1 lines numbered line final
      have ends := broken line (List.mem_of_getLast? final)
      rw [← number]
      cases ending : line.ending with
      | none => exact absurd ending ends
      | lf => simp [ending]
      | crlf => simp [ending]

end Line

theorem Line.ignored_of_shape {fenced : Bool} {dialect : Dialect} {line : Line}
    (skipped : line.shape fenced dialect = .blank ∨ line.shape fenced dialect = .comment) :
    Text.Ignored line.content := by
  cases body : Text.trimStart line.content with
  | nil => exact Or.inl body
  | cons c rest =>
      by_cases comment : c = '#'
      · right
        rw [body, comment]
        rfl
      · rw [Line.shape, Line.body, body] at skipped
        grind [Line.keywordShape]

namespace Mode

variable {setup : Setup} {mode : Mode} {line : Line} {lines : List Line}

/-- The mode after some lines. A line with an error is passed like any other. -/
def through (setup : Setup) (mode : Mode) (lines : List Line) : Mode :=
  lines.foldl (fun mode line => (mode.read setup line).2) mode

theorem settled_read (settled : mode.Settled) (line : Line) : (mode.read setup line).2.Settled := by
  cases read : mode.read setup line with
  | mk result after =>
      cases result with
      | ok tokens => exact (step_of_read read).settled settled
      | error error =>
          obtain ⟨outside, rfl | rfl⟩ := read_eq_error read
          · exact settled
          · exact fun _ => rfl

/-- A line with content ends the headers. -/
theorem ignored_of_header (settled : mode.Settled)
    (allowed : (mode.read setup line).2.headerAllowed = true) :
    mode.headerAllowed = true ∧ Text.Ignored line.content := by
  cases inside : mode.opened with
  | some opening =>
      have kept : (mode.read setup line).2.headerAllowed = mode.headerAllowed := by
        simp only [Mode.read, inside, readVerbatim]
        split <;> rfl
      rw [kept, settled (by rw [inside]; rfl)] at allowed
      cases allowed
  | none =>
      simp only [Mode.read, inside] at allowed
      cases shape : line.shape setup.settings.fenced mode.dialect with
      | blank =>
          rw [shape] at allowed
          exact ⟨allowed, Line.ignored_of_shape (Or.inl shape)⟩
      | comment =>
          refine ⟨?_, Line.ignored_of_shape (Or.inr shape)⟩
          simp only [shape, readShaped, readComment] at allowed
          split at allowed
          · exact allowed
          · split at allowed
            · exact allowed
            · exact allowed
      | delimiter | row | tags | block | step | description => simp [shape, readShaped] at allowed

theorem ignored_of_through (settled : mode.Settled)
    (allowed : (mode.through setup lines).headerAllowed = true) :
    mode.headerAllowed = true ∧ ∀ line ∈ lines, Text.Ignored line.content := by
  induction lines generalizing mode with
  | nil => exact ⟨allowed, by simp⟩
  | cons line rest ih =>
      obtain ⟨still, others⟩ := ih (settled_read settled line) allowed
      obtain ⟨before, here⟩ := ignored_of_header settled still
      exact ⟨before, List.forall_mem_cons.mpr ⟨here, others⟩⟩

theorem Bounded.through {number : Nat} (bounded : Bounded number mode) (setup : Setup)
    (numbered : Line.Consecutive number lines) :
    Bounded (number + lines.length) (mode.through setup lines) := by
  induction lines generalizing mode number with
  | nil => exact bounded
  | cons line rest ih =>
      have later := ih (bounded_read setup bounded numbered.1) numbered.2
      rwa [Nat.add_right_comm, Nat.add_assoc] at later

theorem Reads.through {others : List Line} {tokens : List Token} {last : Mode}
    (reads : Reads setup mode (lines ++ others) tokens (.ok last)) :
    ∃ later, Reads setup (mode.through setup lines) others later (.ok last) := by
  induction lines generalizing mode tokens with
  | nil => exact ⟨tokens, reads⟩
  | cons line rest ih =>
      cases reads with
      | line read further =>
          rw [Mode.through, List.foldl_cons, read]
          exact ih further

/-- Every doc string is over before a line outside of them, or opens from there on. -/
theorem Reads.apart {number : Nat} {others : List Line} {tokens : List Token} {last : Mode}
    (reads : Reads setup mode (lines ++ others) tokens (.ok last)) (bounded : Bounded number mode)
    (numbered : Line.Consecutive number (lines ++ others))
    (outside : (mode.through setup lines).opened = none) :
    ∀ block ∈ last.closed,
      block.stop < number + lines.length ∨ number + lines.length ≤ block.location.line := by
  obtain ⟨later, further⟩ := reads.through
  obtain ⟨run, ended⟩ := further.run
  have earlier := bounded.through setup numbered.take
  obtain ⟨finished, fresh, split, idle, _, beyond⟩ := (run.grows ended numbered.drop).blocks
  intro block held
  rw [split, idle outside, List.append_nil] at held
  rcases List.mem_append.mp held with old | new
  · exact Or.inl (earlier.closed block old).2.2
  · exact Or.inr (beyond block new)

end Mode

namespace Text

theorem trim_return (text : Text) : trim (text ++ ['\r']) = trim text := by
  rw [trim, trim, trimStart, List.dropWhile_append]
  split
  · rename_i blank
    rw [trimStart, List.isEmpty_iff.mp blank]
    rfl
  · exact dropTrailing_concat _ rfl

theorem ignored_of_return {text : Text} (ignored : Ignored (text ++ ['\r'])) : Ignored text := by
  by_cases blank : trimStart text = []
  · exact Or.inl blank
  · have longer : trimStart (text ++ ['\r']) = trimStart text ++ ['\r'] := by
      unfold trimStart at blank ⊢
      rw [List.dropWhile_append, if_neg (by simpa using blank)]
    obtain ⟨c, rest, body⟩ := List.exists_cons_of_ne_nil blank
    rw [Ignored, longer, body] at ignored
    rw [Ignored, body]
    simpa using ignored

end Text

namespace Change

/-- Everything from the given line on moves down by one line. -/
def insertAt (number : Nat) : Change where
  line line := if number ≤ line then line + 1 else line
  indent := 0
  verbatim := id

variable {number : Nat}

theorem rises_insertAt (number : Nat) : (insertAt number).Rises := by
  intro first second
  simp only [insertAt]
  split <;> split <;> omega

theorem line_above {line : Nat} (above : line < number) : (insertAt number).line line = line :=
  if_neg (Nat.not_le.mpr above)

theorem line_below {line : Nat} (below : number ≤ line) : (insertAt number).line line = line + 1 :=
  if_pos below

theorem location_below {line : Nat} (below : number ≤ line) (column : Nat) :
    (insertAt number).location ⟨line, column⟩ = ⟨line + 1, column⟩ := by
  rw [location, line_below below]
  rfl

theorem tellsLine_above {line : Line} (above : line.number < number) :
    (insertAt number).TellsLine line line where
  number := (line_above above).symm
  content := ⟨[], rfl, rfl, by simp⟩
  verbatim _ := rfl

theorem tellsLine_below {line : Line} (below : number ≤ line.number) :
    (insertAt number).TellsLine line line.lower where
  number := (line_below below).symm
  content := ⟨[], rfl, rfl, by simp⟩
  verbatim _ := rfl

theorem alongside_insert {setup : Setup} {mode : Mode} {lines others : List Line} {extra : Line}
    (above : ∀ line ∈ lines, line.number < number) (below : ∀ line ∈ others, number ≤ line.number)
    (skips : (mode.through setup lines).Skips extra) :
    (insertAt number).Alongside setup mode (lines ++ others)
      (lines ++ extra :: others.map Line.lower) := by
  induction lines generalizing mode with
  | nil =>
      apply Alongside.extra skips
      apply alongside_of_forall₂
      apply List.forall₂_map_right_iff.mpr
      exact List.forall₂_same.mpr fun line member => tellsLine_below (below line member)
  | cons line rest ih =>
      obtain ⟨here, later⟩ := List.forall_mem_cons.mp above
      apply Alongside.line (tellsLine_above here)
      intro tokens after read
      apply ih later
      rw [Mode.through, List.foldl_cons, read] at skips
      exact skips

theorem finish_insert {lines others : List Line} {extra : Line}
    (numbered : Line.Consecutive 1 (lines ++ others))
    (broken : ∀ line ∈ lines, line.ending ≠ .none) (here : extra.number = 1 + lines.length)
    (ends : extra.ending ≠ .none) :
    Line.finish (lines ++ extra :: others.map Line.lower) =
      (insertAt (1 + lines.length)).location (Line.finish (lines ++ others)) := by
  rcases List.eq_nil_or_concat others with rfl | ⟨before, last, rfl⟩
  · rw [List.append_nil] at numbered
    have longer : Line.Consecutive 1 (lines ++ [extra]) := numbered.append ⟨here, trivial⟩
    have all : ∀ line ∈ lines ++ [extra], line.ending ≠ .none :=
      List.forall_mem_append.mpr ⟨broken, by simpa using ends⟩
    rw [List.append_nil, List.map_nil, Line.finish_of_broken longer all,
      Line.finish_of_broken numbered broken, location_below (Nat.le_refl _), List.length_append]
    rfl
  · have below : 1 + lines.length ≤ last.number :=
      (numbered.drop.number_of_mem (by simp : last ∈ before.concat last)).1
    have right : lines ++ extra :: (before.concat last).map Line.lower =
        (lines ++ extra :: before.map Line.lower) ++ [last.lower] := by simp
    have left : lines ++ before.concat last = (lines ++ before) ++ [last] := by simp
    rw [right, left, Line.finish_concat, Line.finish_concat]
    have beyond := Nat.le_succ_of_le below
    cases ending : last.ending with
    | none => simp [Line.finish, Line.lower, ending, location_below below]
    | lf => simp [Line.finish, Line.lower, ending, location_below beyond]
    | crlf => simp [Line.finish, Line.lower, ending, location_below beyond]

/-- A doc string lies wholly above the line or wholly below it. -/
theorem fits_insertAt {doc : DocString}
    (apart : doc.location.line + doc.lines.length < number ∨ number ≤ doc.location.line) :
    (insertAt number).Fits doc := by
  apply fits_of_lines
  case lines =>
      intro line _ row
      have kept : (insertAt number).verbatim line = line := rfl
      rw [kept]
      cases row.fill line <;> rfl
  case places =>
      intro index inside
      rcases apart with above | below
      · rw [line_above (by omega), line_above (by omega)]
      · rw [line_below (by omega), line_below (by omega)]
        omega

end Change

section Documents

variable {setup : Setup} {before content : Text} (start : before.AtLineStart)
  (outside : ((Mode.initial setup).through setup (Line.split before)).opened = none)

include start

theorem split_insert (after : Text) : Line.split (before ++ after) =
    Line.split before ++ Line.splitFrom (1 + (Line.split before).length) after :=
  Line.splitFrom_append 1 start.whole after

theorem consecutive_insert (after : Text) : Line.Consecutive 1
    (Line.split before ++ Line.splitFrom (1 + (Line.split before).length) after) := by
  rw [← split_insert start]
  exact Line.consecutive_splitFrom 1 _

include outside

theorem docStrings_apart {after : Text} {feature : Feature}
    (parsed : parse setup (before ++ after) = .ok feature) : ∀ doc ∈ feature.docStrings,
      doc.location.line + doc.lines.length < 1 + (Line.split before).length ∨
        1 + (Line.split before).length ≤ doc.location.line := by
  obtain ⟨tokens, last, reads, docs, _⟩ := sources_of_parse parsed
  rw [split_insert start] at reads
  have numbered := consecutive_insert start after
  have apart := reads.apart (Mode.bounded_initial setup) numbered outside
  have bounded := (Mode.bounded_initial setup).run reads.run.1 numbered
  intro doc member
  obtain ⟨block, known, lines, _, whole, rfl⟩ := docs doc member
  have count := congrArg List.length whole
  rw [List.length_map, List.length_range'] at count
  have opens := (bounded.closed block known).2.1
  rcases apart block known with above | below
  · left
    simp only [List.length_map]
    omega
  · exact Or.inr below

variable (single : '\n' ∉ content) (ignored : Text.Ignored content)
  (plain : (∀ line ∈ Line.split before, Text.Ignored line.content) →
    Line.headerLanguage? (Text.trim content) = none) (after : Text)

include single ignored plain

theorem exists_extra :
    ∃ extra : Line, extra.number = 1 + (Line.split before).length ∧ extra.ending ≠ .none ∧
      ((Mode.initial setup).through setup (Line.split before)).Skips extra ∧
      Line.split (before ++ content ++ '\n' :: after) = Line.split before ++ extra ::
        (Line.splitFrom (1 + (Line.split before).length) after).map Line.lower := by
  obtain ⟨extra, split, number, ending, held⟩ :=
    Line.splitFrom_line (1 + (Line.split before).length) single
  have same : Text.Ignored extra.content ∧ Text.trim extra.content = Text.trim content := by
    rcases held with rfl | rfl
    · exact ⟨ignored, rfl⟩
    · exact ⟨Text.ignored_of_return ignored, (Text.trim_return _).symm⟩
  refine ⟨extra, number, ending, ?_, ?_⟩
  · constructor
    case outside => exact outside
    case ignored => exact same.1
    case plain =>
        unfold Mode.header?
        split
        · rename_i allowed
          -- Headers are still allowed, so only blank lines and comments stand above.
          have settled : (Mode.initial setup).Settled := fun inside => nomatch inside
          rw [same.2]
          exact plain (Mode.ignored_of_through settled allowed).2
        · rfl
  · rw [List.append_assoc, split_insert start, split, Line.splitFrom_succ]

theorem parse_eq_insert :
    parse setup (before ++ content ++ '\n' :: after) =
      (Change.insertAt (1 + (Line.split before).length)).parsed (parse setup (before ++ after)) := by
  obtain ⟨extra, number, ending, skips, inserted⟩ :=
    exists_extra start outside single ignored plain after
  have numbered := consecutive_insert start after
  apply (Change.insertAt _).parse_eq (Change.rises_insertAt _)
  case alongside =>
      rw [inserted, split_insert start]
      apply Change.alongside_insert _ _ skips
      · exact fun line member => (numbered.take.number_of_mem member).2
      · exact fun line member => (numbered.drop.number_of_mem member).1
  case finish =>
      rw [inserted, split_insert start]
      exact Change.finish_insert numbered (Line.ending_ne_none 1 start.whole) number ending

end Documents

/-- A blank line or a comment put in front of a line outside doc strings moves everything from that
line on down by one line, and changes nothing else in the outcome of parsing and compiling. -/
theorem parse_insert (setup : Setup) (before after content : Text) (start : before.AtLineStart)
    (outside : ((Mode.initial setup).through setup (Line.split before)).opened = none)
    (single : '\n' ∉ content) (ignored : content.Ignored)
    (plain : (∀ line ∈ Line.split before, Text.Ignored line.content) →
      Line.headerLanguage? content.trim = none) :
    let change := Change.insertAt (1 + (Line.split before).length)
    parse setup (before ++ content ++ '\n' :: after) = change.parsed (parse setup (before ++ after)) ∧
    ∀ feature, parse setup (before ++ after) = .ok feature →
      (change.feature feature).compile =
        change.compiled (List.map change.testCase) feature.compile := by
  constructor
  · exact parse_eq_insert start outside single ignored plain after
  · intro feature parsed
    apply Change.compile_eq_compiled
    intro doc member
    exact Change.fits_insertAt (docStrings_apart start outside parsed doc member)

def stepText : Text :=
  "Feature: f\n  Scenario: s\n    Given a\n".toList

def noteBlock : Text :=
  "      \"\"\"\n      note\n      \"\"\"\n".toList

theorem parse_insert_stepText :
    ∃ feature, parse .standard (stepText ++ noteBlock) = .ok feature ∧
      parse .standard (stepText ++ "  # why".toList ++ '\n' :: noteBlock) =
        .ok ((Change.insertAt 4).feature feature) ∧
      ((Change.insertAt 4).feature feature).compile =
        (Change.insertAt 4).compiled (List.map (Change.insertAt 4).testCase) feature.compile := by
  obtain ⟨feature, parsed⟩ : ∃ feature, parse .standard (stepText ++ noteBlock) = .ok feature :=
    exists_of_isOk (by decide +kernel)
  have start : stepText.AtLineStart := Or.inr (by decide +kernel)
  have outside : ((Mode.initial .standard).through .standard (Line.split stepText)).opened = none := by
    decide +kernel
  have ignored : Text.Ignored "  # why".toList := Or.inr (by decide +kernel)
  have count : 1 + (Line.split stepText).length = 4 := by decide +kernel
  have inserted := parse_insert .standard stepText noteBlock "  # why".toList start outside
    (by decide +kernel) ignored (fun _ => by decide +kernel)
  rw [count] at inserted
  obtain ⟨same, further⟩ := inserted
  rw [parsed] at same
  exact ⟨feature, parsed, same, further feature parsed⟩

end Gherkin
