/-!
Texts.

Documents are read as lists of characters, each one a Unicode scalar value, so a length is a
number of characters and a column is a length plus one. White space is the Unicode property
`White_Space`; the separators U+001C to U+001F and the zero width characters do not have it.

Everything recurses on the list of characters. Trimming at the end works from the right: a
character survives when it is kept itself or when something after it was kept.
-/

namespace Gherkin

abbrev Text := List Char

namespace Text

/-- The code points with the property `White_Space`, as ascending ranges with both ends
included. -/
def spaceRanges : List (Nat × Nat) :=
  [(0x0009, 0x000D), (0x0020, 0x0020), (0x0085, 0x0085), (0x00A0, 0x00A0), (0x1680, 0x1680),
   (0x2000, 0x200A), (0x2028, 0x2029), (0x202F, 0x202F), (0x205F, 0x205F), (0x3000, 0x3000)]

def isSpace (c : Char) : Bool :=
  spaceRanges.any fun range => range.1 ≤ c.toNat && c.toNat ≤ range.2

/-- Padding inside table rows and doc strings is made of these two characters only. -/
def isBlank (c : Char) : Bool :=
  c = ' ' || c = '\t'

theorem isSpace_of_isBlank (c : Char) (blank : isBlank c = true) : isSpace c = true := by
  simp only [isBlank, Bool.or_eq_true, decide_eq_true_eq] at blank
  rcases blank with space | tab
  · subst space; rfl
  · subst tab; rfl

def trimStart (text : Text) : Text :=
  text.dropWhile isSpace

def dropTrailing (p : Char → Bool) : Text → Text
  | [] => []
  | c :: rest =>
      match dropTrailing p rest with
      | [] => if p c then [] else [c]
      | kept => c :: kept

def trimEnd (text : Text) : Text :=
  dropTrailing isSpace text

def trim (text : Text) : Text :=
  trimEnd (trimStart text)

def indentation (text : Text) : Nat :=
  (text.takeWhile isSpace).length

def bytes : Text → Nat
  | [] => 0
  | c :: rest => c.utf8Size + bytes rest

/-- A maximal run of characters that are not white space, with the number of characters in
front of it. -/
structure Word where
  offset : Nat
  text : Text
  deriving DecidableEq

/-- Splits a text into words when its first character has the given offset. A character joins
the word after it exactly when that word starts at the next offset. -/
def wordsFrom (offset : Nat) : Text → List Word
  | [] => []
  | c :: rest =>
      let later := wordsFrom (offset + 1) rest
      if isSpace c then later
      else match later with
        | [] => [⟨offset, [c]⟩]
        | word :: others =>
            if word.offset = offset + 1 then ⟨offset, c :: word.text⟩ :: others
            else ⟨offset, [c]⟩ :: later

def join (separator : Text) (texts : List Text) : Text :=
  (texts.intersperse separator).flatten

def dropBreak : Text → Text
  | [] => []
  | ['\n'] => []
  | ['\r', '\n'] => []
  | c :: rest => c :: dropBreak rest

theorem dropTrailing_append (p : Char → Bool) (text : Text) :
    ∃ dropped, text = dropTrailing p text ++ dropped ∧ ∀ c ∈ dropped, p c = true := by
  induction text with
  | nil => exact ⟨[], rfl, by simp⟩
  | cons c rest ih =>
      obtain ⟨dropped, split, all⟩ := ih
      rw [dropTrailing]
      cases kept : dropTrailing p rest with
      | nil =>
          rw [kept, List.nil_append] at split
          by_cases hit : p c = true
          · refine ⟨c :: rest, by simp [hit], ?_⟩
            intro d member
            rcases List.mem_cons.mp member with here | there
            · exact here ▸ hit
            · exact all d (split ▸ there)
          · exact ⟨dropped, by simp [hit, split], all⟩
      | cons d more =>
          exact ⟨dropped, by rw [split, kept]; simp, all⟩

theorem of_dropTrailing_eq_nil (p : Char → Bool) (text : Text) (empty : dropTrailing p text = []) :
    ∀ c ∈ text, p c = true := by
  obtain ⟨dropped, split, all⟩ := dropTrailing_append p text
  rw [empty, List.nil_append] at split
  rw [split]
  exact all

theorem getLast?_dropTrailing (p : Char → Bool) (text : Text) (c : Char)
    (last : (dropTrailing p text).getLast? = some c) : p c = false := by
  induction text with
  | nil => simp [dropTrailing] at last
  | cons d rest ih =>
      rw [dropTrailing] at last
      cases kept : dropTrailing p rest with
      | nil =>
          by_cases hit : p d = true
          · simp [kept, hit] at last
          · simp only [kept, hit] at last
            cases last
            simpa using hit
      | cons e more =>
          rw [kept] at ih
          simp only [kept] at last
          exact ih (by simpa using last)

theorem dropTrailing_eq_self (p : Char → Bool) (text : Text)
    (kept : ∀ c, text.getLast? = some c → p c = false) : dropTrailing p text = text := by
  induction text with
  | nil => rfl
  | cons c rest ih =>
      cases rest with
      | nil => simp [dropTrailing, kept c (by simp)]
      | cons d more =>
          have tail := ih fun e last => kept e (by simpa using last)
          rw [dropTrailing, tail]

theorem dropTrailing_concat {p : Char → Bool} (text : Text) {c : Char} (dropped : p c = true) :
    dropTrailing p (text ++ [c]) = dropTrailing p text := by
  induction text with
  | nil => simp [dropTrailing, dropped]
  | cons d rest ih => rw [List.cons_append, dropTrailing, dropTrailing, ih]

theorem dropTrailing_idem (p : Char → Bool) (text : Text) :
    dropTrailing p (dropTrailing p text) = dropTrailing p text :=
  dropTrailing_eq_self p _ (getLast?_dropTrailing p text)

theorem head?_trimStart (text : Text) (c : Char) (first : (trimStart text).head? = some c) :
    isSpace c = false := by
  have fact := List.head?_dropWhile_not isSpace text
  rw [trimStart] at first
  rw [first] at fact
  simpa using fact

theorem head?_dropTrailing (p : Char → Bool) (text : Text) (c : Char)
    (first : (dropTrailing p text).head? = some c) : text.head? = some c := by
  obtain ⟨dropped, split, _⟩ := dropTrailing_append p text
  rw [split]
  cases kept : dropTrailing p text with
  | nil => simp [kept] at first
  | cons d more => simpa [kept] using first

def quoteCharacter : Char → Text
  | '"' => ['\\', '"']
  | '\\' => ['\\', '\\']
  | '\t' => ['\\', 't']
  | '\r' => ['\\', 'r']
  | '\n' => ['\\', 'n']
  | c => [c]

/-- A text between quotes. Quotes, backslashes, tabs and line breaks in it are escaped. -/
def quoted (text : Text) : Text :=
  ['"'] ++ text.flatMap quoteCharacter ++ ['"']

end Text

end Gherkin
