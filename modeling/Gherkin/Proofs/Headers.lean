import Gherkin.Proofs.Arrangement
import Gherkin.Proofs.Insertion
import Mathlib.Data.List.DropRight

/-!
Language headers.

Headers stand above the first line with content, and the last of them names the language of the whole
document; without one it is the language of the settings. `Line.headers` finds them by looking at the
lines alone. From the first line with content on, the dialect stays as it is, so the lines of keywords
and descriptions are all told apart by one dialect. A header for a language that is not registered ends
the reading.
-/

namespace Gherkin

/-- A comment that names a language: white space may stand around the word and the colon. -/
def HeaderForm (comment code : Text) : Prop :=
  ∃ left middle right,
    comment = "#".toList ++ left ++ ("language".toList ++ middle ++ (":".toList ++ right ++ code)) ∧
      (∀ c ∈ left ++ middle ++ right, Text.isSpace c = true) ∧
      code ≠ [] ∧ ∀ c ∈ code, Line.isCodeCharacter c = true

namespace Line

theorem isSpace_of_isCodeCharacter {c : Char} (code : isCodeCharacter c = true) :
    Text.isSpace c = false := by
  delta isCodeCharacter Char.isAlphanum Char.isAlpha Char.isUpper Char.isLower Char.isDigit at code
  simp only [Bool.or_eq_true, Bool.and_eq_true, decide_eq_true_eq, UInt32.le_iff_toNat_le,
    ge_iff_le] at code
  simp only [Text.isSpace, Text.spaceRanges, List.any_cons, List.any_nil, Bool.or_false,
    Bool.or_eq_false_iff, Bool.and_eq_false_iff, decide_eq_false_iff_not, Char.toNat]
  rcases code with (ranges | rfl) | rfl
  · change ((65 ≤ c.val.toNat ∧ c.val.toNat ≤ 90) ∨ (97 ≤ c.val.toNat ∧ c.val.toNat ≤ 122)) ∨
      (48 ≤ c.val.toNat ∧ c.val.toNat ≤ 57) at ranges
    omega
  · decide
  · decide

theorem trimStart_cons {c : Char} {rest : Text} (solid : Text.isSpace c = false) :
    Text.trimStart (c :: rest) = c :: rest := by
  rw [Text.trimStart, List.dropWhile_cons_of_neg (by simp [solid])]

theorem skip?_eq_some (word : String) (text rest : Text) :
    skip? word text = some rest ↔
      ∃ spaces, text = word.toList ++ spaces ++ rest ∧ (∀ c ∈ spaces, Text.isSpace c = true) ∧
        Text.trimStart rest = rest := by
  rw [skip?, Option.map_eq_some_iff]
  constructor
  · rintro ⟨whole, found, rfl⟩
    refine ⟨whole.takeWhile Text.isSpace, ?_, fun c => List.mem_takeWhile_imp, ?_⟩
    · rw [← List.isPrefixOf?_eq_some_iff_append_eq.mp found, List.append_assoc, Text.trimStart,
        List.takeWhile_append_dropWhile]
    · exact List.dropWhile_idempotent _ _
  · rintro ⟨spaces, rfl, white, trimmed⟩
    refine ⟨spaces ++ rest, ?_, ?_⟩
    · rw [List.append_assoc]
      exact List.isPrefixOf?_eq_some_iff_append_eq.mpr rfl
    · rw [Text.trimStart, List.dropWhile_append_of_pos white]
      exact trimmed

/-- The last part of a header: a code, and nothing but white space behind it. -/
theorem code_eq_some (rest code : Text) :
    (if rest.takeWhile isCodeCharacter ≠ [] ∧ (rest.dropWhile isCodeCharacter).all Text.isSpace then
      some (rest.takeWhile isCodeCharacter) else none) = some code ↔
      ∃ behind, rest = code ++ behind ∧ code ≠ [] ∧ (∀ c ∈ code, isCodeCharacter c = true) ∧
        ∀ c ∈ behind, Text.isSpace c = true := by
  rw [Option.ite_none_right_eq_some, Option.some.injEq]
  constructor
  · rintro ⟨⟨some, trailing⟩, rfl⟩
    exact ⟨rest.dropWhile isCodeCharacter, List.takeWhile_append_dropWhile.symm, some,
      fun c => List.mem_takeWhile_imp, List.all_eq_true.mp trailing⟩
  · rintro ⟨behind, rfl, some, plain, trailing⟩
    have none : behind.takeWhile isCodeCharacter = [] ∧ behind.dropWhile isCodeCharacter = behind := by
      cases behind with
      | nil => exact ⟨rfl, rfl⟩
      | cons c more =>
          have other : ¬ isCodeCharacter c = true := by
            intro code
            have solid := isSpace_of_isCodeCharacter code
            rw [trailing c List.mem_cons_self] at solid
            cases solid
          exact ⟨List.takeWhile_cons_of_neg other, List.dropWhile_cons_of_neg other⟩
    rw [List.takeWhile_append_of_pos plain, List.dropWhile_append_of_pos plain, none.1, none.2,
      List.append_nil]
    exact ⟨⟨some, List.all_eq_true.mpr trailing⟩, rfl⟩

theorem headerLanguage?_eq_some (comment code : Text) :
    headerLanguage? comment = some code ↔
      ∃ form behind, comment = form ++ behind ∧ HeaderForm form code ∧
        ∀ c ∈ behind, Text.isSpace c = true := by
  simp only [headerLanguage?, Option.bind_eq_bind, Option.bind_eq_some_iff, skip?_eq_some, code_eq_some]
  constructor
  · rintro ⟨_, ⟨left, rfl, white, -⟩, _, ⟨middle, rfl, blank, -⟩, _, ⟨right, rfl, bare, -⟩,
      behind, rfl, some, plain, trailing⟩
    refine ⟨_, behind, ?_, ⟨left, middle, right, rfl, ?_, some, plain⟩, trailing⟩
    · simp only [List.append_assoc]
    · simp only [List.mem_append]
      rintro c ((inside | inside) | inside)
      · exact white c inside
      · exact blank c inside
      · exact bare c inside
  · rintro ⟨_, behind, rfl, ⟨left, middle, right, rfl, white, some, plain⟩, trailing⟩
    simp only [List.mem_append] at white
    have solid : Text.trimStart (code ++ behind) = code ++ behind := by
      obtain ⟨c, more, rfl⟩ := List.exists_cons_of_ne_nil some
      exact trimStart_cons (isSpace_of_isCodeCharacter (plain c List.mem_cons_self))
    refine ⟨"language".toList ++ middle ++ (":".toList ++ right ++ (code ++ behind)),
      ⟨left, ?_, fun c inside => white c (.inl (.inl inside)), trimStart_cons rfl⟩,
      ":".toList ++ right ++ (code ++ behind),
      ⟨middle, rfl, fun c inside => white c (.inl (.inr inside)), trimStart_cons rfl⟩,
      code ++ behind, ⟨right, rfl, fun c inside => white c (.inr inside), solid⟩,
      behind, rfl, some, plain, trailing⟩
    simp only [List.append_assoc]

/-- The headers are the comments of the right form. -/
theorem headerLanguage?_trim (content code : Text) :
    headerLanguage? content.trim = some code ↔ HeaderForm content.trim code := by
  rw [headerLanguage?_eq_some]
  constructor
  · rintro ⟨form, behind, split, formed, trailing⟩
    rcases List.eq_nil_or_concat behind with rfl | ⟨before, c, rfl⟩
    · rw [split, List.append_nil]
      exact formed
    · -- A trimmed text does not end in white space.
      have ends : content.trim.getLast? = some c := by simp [split]
      have solid := Text.getLast?_dropTrailing _ _ _ ends
      rw [trailing c (by simp)] at solid
      cases solid
  · intro formed
    exact ⟨content.trim, [], by simp, formed, by simp⟩

end Line

instance (text : Text) : Decidable text.Ignored :=
  inferInstanceAs (Decidable (_ ∨ _))

structure Header where
  line : Nat
  code : Text
  deriving DecidableEq

namespace Line

theorem Consecutive.rises {number : Nat} {lines : List Line} (numbered : Consecutive number lines) :
    lines.Pairwise fun left right => left.number < right.number := by
  induction lines generalizing number with
  | nil => exact List.Pairwise.nil
  | cons line rest ih =>
      refine List.pairwise_cons.mpr ⟨?_, ih numbered.2⟩
      intro other member
      have below := (numbered.2.number_of_mem member).1
      have here := numbered.1
      omega

def opening (lines : List Line) : List Line :=
  lines.takeWhile fun line => Text.Ignored line.content

def header? (line : Line) : Option Header :=
  (headerLanguage? line.content.trim).map fun code => ⟨line.number, code⟩

def headers (lines : List Line) : List Header :=
  (opening lines).filterMap header?

def languageOr (language : Text) (lines : List Line) : Text :=
  ((headers lines).getLast?.map (·.code)).getD language

variable {line : Line} {lines : List Line}

theorem headers_of_content (content : ¬ Text.Ignored line.content) : headers (line :: lines) = [] := by
  simp [headers, opening, content]

theorem headers_of_ignored (ignored : Text.Ignored line.content) :
    headers (line :: lines) = line.header?.toList ++ headers lines := by
  rw [headers, opening, List.takeWhile_cons_of_pos (by simpa using ignored), List.filterMap_cons]
  cases line.header? <;> rfl

theorem languageOr_of_ignored {language : Text} (ignored : Text.Ignored line.content) :
    languageOr language (line :: lines) =
      languageOr ((line.header?.map (·.code)).getD language) lines := by
  rw [languageOr, headers_of_ignored ignored, languageOr]
  cases line.header? with
  | none => rfl
  | some header =>
      rw [Option.toList_some, List.singleton_append, List.getLast?_cons]
      cases (headers lines).getLast? <;> rfl

theorem languageOr_of_content {language : Text} (content : ¬ Text.Ignored line.content) :
    languageOr language (line :: lines) = language := by
  rw [languageOr, headers_of_content content]
  rfl

/-- Lines below the first one with content do not matter. -/
theorem languageOr_take {language : Text} {count : Nat} (reach : (opening lines).length ≤ count) :
    languageOr language (lines.take count) = languageOr language lines := by
  rw [languageOr, headers, opening, ← List.take_takeWhile, ← opening, List.take_of_length_le reach]
  rfl

theorem shape_of_ignored (fenced : Bool) (dialect : Dialect) (ignored : Text.Ignored line.content) :
    line.shape fenced dialect = .blank ∨ line.shape fenced dialect = .comment := by
  unfold shape body
  rcases ignored with blank | comment
  · rw [blank]
    exact Or.inl rfl
  · obtain ⟨rest, body⟩ := List.head?_eq_some_iff.mp comment
    rw [body]
    exact Or.inr rfl

end Line

namespace Mode

variable {setup : Setup} {mode after last : Mode} {line : Line} {lines : List Line}
  {tokens : List Token}

/-- From the first line with content on, no comment is a header. -/
theorem Step.keeps (step : Step setup mode line tokens after) (past : mode.headerAllowed = false) :
    after.headerAllowed = false ∧ after.language = mode.language ∧ after.dialect = mode.dialect := by
  cases step with
  | header _ _ _ _ names =>
      rw [header?, past] at names
      cases names
  | closing | verbatim | blank | comment => exact ⟨past, rfl, rfl⟩
  | opening | content => exact ⟨rfl, rfl, rfl⟩

theorem Run.keeps (run : Run setup mode lines tokens last) (past : mode.headerAllowed = false) :
    last.language = mode.language ∧ last.dialect = mode.dialect := by
  induction run with
  | nil => exact ⟨rfl, rfl⟩
  | cons step _ ih =>
      obtain ⟨still, language, dialect⟩ := step.keeps past
      obtain ⟨later, further⟩ := ih still
      exact ⟨later.trans language, further.trans dialect⟩

structure Fresh (mode : Mode) : Prop where
  allowed : mode.headerAllowed = true
  outside : mode.opened = none

theorem header?_of_fresh (fresh : mode.Fresh) : mode.header? line = line.header?.map (·.code) := by
  rw [header?, if_pos fresh.allowed, Line.header?, Option.map_map]
  exact Option.map_id'.symm

theorem Step.of_fresh (step : Step setup mode line tokens after) (fresh : mode.Fresh) :
    Text.Ignored line.content ∧ after.Fresh ∧
        after.language = (line.header?.map (·.code)).getD mode.language ∧
        (∀ header ∈ line.header?, (setup.registry.find? header.code).isSome = true) ∨
      ¬ Text.Ignored line.content ∧ after.headerAllowed = false ∧
        after.language = mode.language := by
  have content (other : line.shape setup.settings.fenced mode.dialect ≠ .blank)
      (further : line.shape setup.settings.fenced mode.dialect ≠ .comment) :
      ¬ Text.Ignored line.content := by
    intro ignored
    exact (Line.shape_of_ignored _ _ ignored).elim other further
  -- As long as headers are allowed, a line is ignored or it ends the opening comments.
  cases step with
  | closing _ inside | verbatim _ inside =>
      rw [fresh.outside] at inside
      cases inside
  | blank _ shape =>
      have fits := Line.fits_shape setup.settings.fenced mode.dialect line
      rw [shape] at fits
      have plain : line.header? = none := by
        rw [Line.header?, Text.trim, show Text.trimStart line.content = [] from fits]
        rfl
      rw [plain]
      exact Or.inl ⟨Or.inl fits, fresh, rfl, by simp⟩
  | comment _ shape plain =>
      rw [header?_of_fresh fresh, Option.map_eq_none_iff] at plain
      rw [plain]
      exact Or.inl ⟨Line.ignored_of_shape (Or.inr shape), fresh, rfl, by simp⟩
  | header language dialect _ shape names known =>
      rw [header?_of_fresh fresh] at names
      obtain ⟨header, found, rfl⟩ := Option.map_eq_some_iff.mp names
      rw [found]
      refine Or.inl ⟨Line.ignored_of_shape (Or.inr shape), ⟨fresh.allowed, fresh.outside⟩, rfl, ?_⟩
      rintro other ⟨⟩
      rw [known]
      rfl
  | opening delimiter _ shape =>
      exact Or.inr ⟨content (by simp [shape]) (by simp [shape]), rfl, rfl⟩
  | content _ _ filled _ =>
      refine Or.inr ⟨content ?_ ?_, rfl, rfl⟩
      · intro blank
        rw [blank] at filled
        cases filled
      · intro comment
        rw [comment] at filled
        cases filled

/-- The language at the end is the one of the last header. -/
theorem Run.language (run : Run setup mode lines tokens last) (fresh : mode.Fresh) :
    last.language = Line.languageOr mode.language lines := by
  induction run with
  | nil => rfl
  | cons step later ih =>
      rcases step.of_fresh fresh with ⟨ignored, still, names, _⟩ | ⟨content, past, same⟩
      · rw [Line.languageOr_of_ignored ignored, ← names]
        exact ih still
      · rw [Line.languageOr_of_content content, ← same]
        exact (later.keeps past).1

/-- Among lines without content only a header can hold an error. -/
theorem error_of_fresh {error : LexError} (read : mode.read setup line = (.error error, after))
    (fresh : mode.Fresh) (ignored : Text.Ignored line.content) :
    ∃ header, line.header? = some header ∧ setup.registry.find? header.code = none ∧
      error = .unknownLanguage header.line header.code := by
  rw [Mode.read, fresh.outside] at read
  rcases Line.shape_of_ignored setup.settings.fenced mode.dialect ignored with blank | comment
  · simp only [blank, readShaped] at read
    cases read
  · simp only [comment, readShaped, readComment, header?_of_fresh fresh] at read
    cases found : line.header? with
    | none =>
        rw [found] at read
        cases read
    | some header =>
        rw [found] at read
        simp only [Option.map_some] at read
        split at read
        · rename_i unknown
          have place : header.line = line.number := by
            obtain ⟨_, _, rfl⟩ := Option.map_eq_some_iff.mp found
            rfl
          cases read
          exact ⟨header, rfl, unknown, by rw [place]⟩
        · cases read

/-- The first header for an unknown language ends the reading. -/
theorem Reads.unknown {result : Except LexError Mode} (reads : Reads setup mode lines tokens result)
    (fresh : mode.Fresh) {header : Header}
    (first : (Line.headers lines).find? (fun header => (setup.registry.find? header.code).isNone) =
      some header) : result = .error (.unknownLanguage header.line header.code) := by
  induction reads with
  | done => cases first
  | @fails _ _ line _ rest read =>
      by_cases ignored : Text.Ignored line.content
      · obtain ⟨own, found, unknown, rfl⟩ := error_of_fresh read fresh ignored
        rw [Line.headers_of_ignored ignored, found] at first
        simp only [Option.toList_some, List.singleton_append, unknown, Option.isNone_none,
          List.find?_cons_of_pos, Option.some.injEq] at first
        rw [first]
      · rw [Line.headers_of_content ignored] at first
        cases first
  | line read _ ih =>
      rcases (step_of_read read).of_fresh fresh with ⟨ignored, still, _, known⟩ | ⟨content, _⟩
      · apply ih still
        rw [Line.headers_of_ignored ignored, List.find?_append] at first
        rw [← first, Option.or_eq_right_of_none]
        apply List.find?_eq_none.mpr
        intro own listed unknown
        have registered := known own (Option.mem_toList.mp listed)
        rw [Option.isNone_iff_eq_none.mp unknown] at registered
        cases registered
      · rw [Line.headers_of_content content] at first
        cases first

end Mode

/-! Only a line without a mark of its own depends on the dialect. So a token of such a line shows which
dialect it was read in. -/

/-- What a dialect makes of a line that bears no mark of its own: a token that stands at the start of
the line is a block keyword if the dialect has one there, else a step keyword if it has one there, else
the whole line. -/
def Dialect.Tells (dialect : Dialect) (line : Line) (token : Token) : Prop :=
  token.location = line.start ∧
    match dialect.block? line.body, dialect.step? line.body with
    | some surface, _ => token.kind = .block surface.keyword ∧ token.text = line.body.take surface.width
    | none, some surface => token.kind = .step ∧ token.text = line.body.take surface.width
    | none, none => token.kind = .descriptionLine ∧ token.text = line.body

def TokenKind.isTold : TokenKind → Bool
  | block _ | step | descriptionLine => true
  | _ => false

namespace Line

variable {line : Line} {fenced : Bool} {dialect : Dialect}

theorem tokens_keywordShape {tokens : List Token} {token : Token}
    (read : line.tokens (keywordShape dialect line.body) = .ok tokens) (member : token ∈ tokens)
    (told : token.kind.isTold = true) : dialect.Tells line token := by
  -- The name behind a keyword is not told by a dialect, so the token is the keyword.
  have first (kind : TokenKind) (width : Nat) (among : token ∈ line.keywordTokens kind width) :
      token = ⟨kind, line.body.take width, line.start⟩ := by
    rcases List.mem_cons.mp among with here | named
    · exact here
    · rcases nameTokens_cases (line.start.shift width) (line.body.drop width) with none | one
      · rw [none] at named
        cases named
      · rw [one, List.mem_singleton] at named
        rw [named] at told
        cases told
  unfold keywordShape at read
  unfold Dialect.Tells
  cases block : dialect.block? line.body with
  | some surface =>
      simp only [block] at read
      cases read
      rw [first _ _ member]
      exact ⟨rfl, rfl, rfl⟩
  | none =>
      cases step : dialect.step? line.body with
      | some surface =>
          simp only [block, step] at read
          cases read
          rw [first _ _ member]
          exact ⟨rfl, rfl, rfl⟩
      | none =>
          simp only [block, step] at read
          cases read
          rw [List.mem_singleton.mp member]
          exact ⟨rfl, rfl, rfl⟩

theorem tells_of_tokens {tokens : List Token} {token : Token}
    (read : line.tokens (line.shape fenced dialect) = .ok tokens) (member : token ∈ tokens)
    (told : token.kind.isTold = true) : dialect.Tells line token := by
  unfold shape at read
  split at read
  · cases read
    cases member
  · rename_i c rest body
    split at read
    · cases read
      rw [List.mem_singleton.mp member] at told
      cases told
    · split at read
      · cases read
        cases member
      · split at read
        · rcases Row.kind_of_mem_tokens read member with kind | kind | kind <;>
            (rw [kind] at told; cases told)
        · split at read
          · rw [tagTokens_eq_ok line tokens read] at member
            rcases List.mem_append.mp member with tag | ending
            · obtain ⟨word, _, rfl⟩ := List.mem_map.mp tag
              cases told
            · rw [List.mem_singleton.mp ending] at told
              cases told
          · rw [← body] at read
            exact tokens_keywordShape read member told

end Line

namespace Mode

variable {setup : Setup} {mode last : Mode} {lines : List Line} {tokens : List Token}

/-- One dialect tells all lines of a document apart, the one in force at its end. -/
theorem Run.tells (run : Run setup mode lines tokens last) {token : Token} (member : token ∈ tokens)
    (told : token.kind.isTold = true) : ∃ line ∈ lines, last.dialect.Tells line token := by
  induction run with
  | nil => cases member
  | @cons _ _ _ line rest _ _ step later ih =>
      rcases List.mem_append.mp member with here | there
      · refine ⟨line, List.mem_cons_self, ?_⟩
        cases step with
        | closing | blank | opening => cases here
        | verbatim | comment | header =>
            rw [List.mem_singleton.mp here] at told
            cases told
        | content _ _ _ read =>
            rw [(later.keeps rfl).2]
            exact Line.tells_of_tokens read here told
      · obtain ⟨line, held, tells⟩ := ih there
        exact ⟨line, List.mem_cons_of_mem _ held, tells⟩

theorem Run.registered (run : Run setup mode lines tokens last) (registered : Registered setup mode) :
    Registered setup last := by
  induction run with
  | nil => exact registered
  | cons step _ ih => exact ih (step.registered registered)

/-- Reading the first lines only is a run as well. -/
theorem Reads.run_take (reads : Reads setup mode lines tokens (.ok last)) (count : Nat) :
    ∃ early, Run setup mode (lines.take count) early (mode.through setup (lines.take count)) := by
  induction lines generalizing mode tokens count with
  | nil => exact ⟨[], by rw [List.take_nil]; exact .nil mode⟩
  | cons line rest ih =>
      cases count with
      | zero => exact ⟨[], .nil mode⟩
      | succ count =>
          cases reads with
          | line read further =>
              obtain ⟨early, run⟩ := ih further count
              rw [List.take_succ_cons, Mode.through, List.foldl_cons, read]
              exact ⟨_, .cons (step_of_read read) run⟩

theorem fresh_initial (setup : Setup) : (initial setup).Fresh :=
  ⟨rfl, rfl⟩

end Mode

def Text.headers (text : Text) : List Header :=
  Line.headers (Line.split text)

/-- The language of a document: the one its last header names, or else that of the settings. -/
def Text.language (setup : Setup) (text : Text) : Text :=
  (text.headers.getLast?.map (·.code)).getD setup.settings.language

namespace Text

theorem mem_headers (text : Text) (header : Header) :
    header ∈ text.headers ↔ ∃ line ∈ Line.opening (Line.split text), line.number = header.line ∧
      HeaderForm line.content.trim header.code := by
  rw [headers, Line.headers, List.mem_filterMap]
  constructor
  · rintro ⟨line, held, found⟩
    obtain ⟨code, named, rfl⟩ := Option.map_eq_some_iff.mp found
    exact ⟨line, held, rfl, (Line.headerLanguage?_trim _ _).mp named⟩
  · rintro ⟨line, held, number, formed⟩
    refine ⟨line, held, ?_⟩
    rw [Line.header?, (Line.headerLanguage?_trim _ _).mpr formed, Option.map_some, number]

theorem headers_rise (text : Text) :
    text.headers.Pairwise fun left right => left.line < right.line := by
  have numbers : (Line.split text).Pairwise fun left right => left.number < right.number :=
    (Line.consecutive_split text).rises
  have above := numbers.sublist (List.takeWhile_sublist fun line => Text.Ignored line.content)
  refine above.filterMap Line.header? ?_
  intro line other less header found further listed
  obtain ⟨_, _, rfl⟩ := Option.map_eq_some_iff.mp found
  obtain ⟨_, _, rfl⟩ := Option.map_eq_some_iff.mp listed
  exact less

end Text

section Reading

variable {setup : Setup} {text : Text} {tokens : List Token} {last : Mode}
  (reads : Mode.Reads setup (.initial setup) (Line.split text) tokens (.ok last))

include reads

theorem language_of_reads : last.language = text.language setup :=
  reads.run.1.language (Mode.fresh_initial setup)

theorem registered_of_reads : setup.registry.find? (text.language setup) = some last.dialect := by
  rw [← language_of_reads reads]
  exact reads.run.1.registered setup.known

theorem language_of_take {count : Nat} (reach : (Line.opening (Line.split text)).length ≤ count) :
    ((Mode.initial setup).through setup ((Line.split text).take count)).language =
        text.language setup ∧
      ((Mode.initial setup).through setup ((Line.split text).take count)).dialect = last.dialect := by
  obtain ⟨early, run⟩ := reads.run_take count
  have same : _ = Text.language setup text :=
    (run.language (Mode.fresh_initial setup)).trans (Line.languageOr_take reach)
  refine ⟨same, ?_⟩
  have known := run.registered setup.known
  rw [Mode.Registered, same, registered_of_reads reads] at known
  exact (Option.some.inj known).symm

end Reading

/-- One dialect serves a whole document, and the last header selects it. The headers are the comments
of the right form above the first line with content, from top to bottom. -/
theorem one_dialect (setup : Setup) (text : Text) :
    (∀ header, header ∈ text.headers ↔ ∃ line ∈ Line.opening (Line.split text),
      line.number = header.line ∧ HeaderForm line.content.trim header.code) ∧
    text.headers.Pairwise (fun left right => left.line < right.line) ∧
    (∀ tokens, tokenize setup text = .ok tokens →
      (Reader.afterDocument setup text).language = text.language setup ∧
      ∃ dialect, setup.registry.find? (text.language setup) = some dialect ∧
        (∀ token ∈ tokens, token.kind.isTold = true →
          ∃ line ∈ Line.split text, dialect.Tells line token) ∧
        (∀ count, (Line.opening (Line.split text)).length ≤ count →
          ((Mode.initial setup).through setup ((Line.split text).take count)).language =
              text.language setup ∧
            ((Mode.initial setup).through setup ((Line.split text).take count)).dialect = dialect) ∧
        ∀ feature, parse setup text = .ok feature → feature.language = text.language setup) ∧
    ∀ header, text.headers.find? (fun header => (setup.registry.find? header.code).isNone) =
        some header →
      tokenize setup text = .error (.unknownLanguage header.line header.code) := by
  refine ⟨text.mem_headers, text.headers_rise, ?_, ?_⟩
  · intro tokens lexed
    obtain ⟨own, last, reads, rfl⟩ := reads_of_tokenize_ok lexed
    obtain ⟨_, done, _⟩ := tokenize_of_reads_ok reads
    have after : (Reader.afterDocument setup text).language = text.language setup := by
      rw [Reader.language, done.reached]
      exact language_of_reads reads
    refine ⟨after, last.dialect, registered_of_reads reads, ?_, fun count => language_of_take reads, ?_⟩
    · intro token member told
      rcases List.mem_append.mp member with real | final
      · exact reads.run.1.tells real told
      · rw [List.mem_singleton.mp final] at told
        cases told
    · intro feature parsed
      obtain ⟨_, _, _, derived⟩ := derives_of_parse parsed
      cases derived
      exact after
  · intro header first
    obtain ⟨own, result, reads⟩ := Mode.exists_reads setup (.initial setup) (Line.split text)
    obtain rfl := reads.unknown (Mode.fresh_initial setup) first
    exact tokenize_of_reads_error reads

def frenchText : Text :=
  "# language: de\n\n  #language :fr \nFonctionnalité: f\n  Feature: x\n# language: de\n  Scénario: s\n".toList

def strangeText : Text :=
  "# language: fr\n# language: xx\n# language: yy\nFeature: f\n".toList

theorem one_dialect_samples :
    (∃ feature, parse .standard frenchText = .ok feature ∧ feature.language = "fr".toList ∧
      (Reader.afterDocument .standard frenchText).language = "fr".toList) ∧
      tokenize .standard strangeText = .error (.unknownLanguage 2 "xx".toList) := by
  have named : frenchText.language .standard = "fr".toList := by decide +kernel
  obtain ⟨feature, parsed⟩ : ∃ feature, parse .standard frenchText = .ok feature :=
    exists_of_isOk (by decide +kernel)
  constructor
  · obtain ⟨tokens, lexed⟩ := exists_tokens_of_parse parsed
    obtain ⟨language, _, _, _, _, own⟩ := (one_dialect .standard frenchText).2.2.1 tokens lexed
    rw [named] at language own
    exact ⟨feature, parsed, own feature parsed, language⟩
  · exact (one_dialect .standard strangeText).2.2.2 ⟨2, "xx".toList⟩ (by decide +kernel)

end Gherkin
