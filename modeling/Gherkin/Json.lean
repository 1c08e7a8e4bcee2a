import Gherkin.Text

/-!
JSON texts.

Dialect tables are exchanged as JSON. The reader is strict: no comments, no trailing commas, no
text after the value, no unescaped control characters. Strings may spell characters as UTF-16
units. A string whose units do not pair up is still JSON, but it spells no text, so `Json.string`
holds `none` for it and whoever needs the text fails.

A scanner takes a text and gives what it found with the text after it.
-/

namespace Gherkin

inductive Json where
  | null
  | bool (value : Bool)
  | number (literal : Text)
  | string (text : Option Text)
  | array (items : List Json)
  | object (members : List (Option Text × Json))

namespace Json

def isFiller (c : Char) : Bool :=
  c = ' ' || c = '\t' || c = '\n' || c = '\r'

def skipFiller (text : Text) : Text :=
  text.dropWhile isFiller

/-- One character of a string as written: itself, or a numbered UTF-16 unit. -/
inductive Glyph where
  | plain (c : Char)
  | unit (code : Nat)

def hexDigit? (c : Char) : Option Nat :=
  if '0' ≤ c ∧ c ≤ '9' then some (c.toNat - '0'.toNat)
  else if 'a' ≤ c ∧ c ≤ 'f' then some (c.toNat - 'a'.toNat + 10)
  else if 'A' ≤ c ∧ c ≤ 'F' then some (c.toNat - 'A'.toNat + 10)
  else none

def hexCode? (a b c d : Char) : Option Nat := do
  let a ← hexDigit? a
  let b ← hexDigit? b
  let c ← hexDigit? c
  let d ← hexDigit? d
  some (((a * 16 + b) * 16 + c) * 16 + d)

def escape? : Char → Option Char
  | '"' => some '"'
  | '\\' => some '\\'
  | '/' => some '/'
  | 'b' => some '\x08'
  | 'f' => some '\x0c'
  | 'n' => some '\n'
  | 'r' => some '\r'
  | 't' => some '\t'
  | _ => none

def glyphs : Text → Option (List Glyph × Text)
  | [] => none
  | '"' :: rest => some ([], rest)
  | '\\' :: 'u' :: a :: b :: c :: d :: rest => do
      let code ← hexCode? a b c d
      let (more, rest) ← glyphs rest
      some (.unit code :: more, rest)
  | '\\' :: c :: rest => do
      let c ← escape? c
      let (more, rest) ← glyphs rest
      some (.plain c :: more, rest)
  | c :: rest => do
      if c.toNat < 0x20 then none
      let (more, rest) ← glyphs rest
      some (.plain c :: more, rest)

def isHighSurrogate (code : Nat) : Bool :=
  0xD800 ≤ code && code < 0xDC00

def isLowSurrogate (code : Nat) : Bool :=
  0xDC00 ≤ code && code < 0xE000

/-- The text that glyphs spell. A high surrogate needs a low one right after it, and a low one
stands nowhere else. -/
def spell : List Glyph → Option Text
  | [] => some []
  | .plain c :: rest => (spell rest).map (c :: ·)
  | .unit code :: rest =>
      if isHighSurrogate code then
        match rest with
        | .unit low :: rest =>
            if isLowSurrogate low then
              let point := 0x10000 + (code - 0xD800) * 0x400 + (low - 0xDC00)
              (spell rest).map (Char.ofNat point :: ·)
            else none
        | _ => none
      else if isLowSurrogate code then none
      else (spell rest).map (Char.ofNat code :: ·)

def digits (text : Text) : Option (Text × Text) :=
  match text.takeWhile Char.isDigit with
  | [] => none
  | run => some (run, text.dropWhile Char.isDigit)

def wholePart : Text → Option (Text × Text)
  | '0' :: rest => some (['0'], rest)
  | text => digits text

def fractionPart : Text → Option (Text × Text)
  | '.' :: rest => do
      let (run, rest) ← digits rest
      some ('.' :: run, rest)
  | text => some ([], text)

def signPart : Text → Text × Text
  | '+' :: rest => (['+'], rest)
  | '-' :: rest => (['-'], rest)
  | text => ([], text)

def exponentPart : Text → Option (Text × Text)
  | c :: rest =>
      if c = 'e' ∨ c = 'E' then do
        let (sign, rest) := signPart rest
        let (run, rest) ← digits rest
        some (c :: sign ++ run, rest)
      else some ([], c :: rest)
  | [] => some ([], [])

def minusPart : Text → Text × Text
  | '-' :: rest => (['-'], rest)
  | text => ([], text)

def numeral (text : Text) : Option (Text × Text) := do
  let (minus, rest) := minusPart text
  let (whole, rest) ← wholePart rest
  let (fraction, rest) ← fractionPart rest
  let (exponent, rest) ← exponentPart rest
  some (minus ++ whole ++ fraction ++ exponent, rest)

/-! Values nest, so the scanner of a value and those of its elements and members call one another. Each call
uses up fuel. -/

def word (spelling : String) (value : Json) (text : Text) : Option (Json × Text) :=
  (spelling.toList.isPrefixOf? text).map (value, ·)

mutual

/-- Scans a value. The fuel bounds the number of calls; twice the length of the text, and two
more, is always enough. -/
def value : Nat → Text → Option (Json × Text)
  | 0, _ => none
  | fuel + 1, text =>
      match skipFiller text with
      | '"' :: rest => do
          let (run, rest) ← glyphs rest
          some (.string (spell run), rest)
      | '[' :: rest =>
          match skipFiller rest with
          | ']' :: rest => some (.array [], rest)
          | rest => do
              let (items, rest) ← elements fuel rest
              some (.array items, rest)
      | '\x7b' :: rest =>
          match skipFiller rest with
          | '\x7d' :: rest => some (.object [], rest)
          | rest => do
              let (entries, rest) ← members fuel rest
              some (.object entries, rest)
      | 'n' :: rest => word "ull" .null rest
      | 't' :: rest => word "rue" (.bool true) rest
      | 'f' :: rest => word "alse" (.bool false) rest
      | rest => do
          let (literal, rest) ← numeral rest
          some (.number literal, rest)

def elements : Nat → Text → Option (List Json × Text)
  | 0, _ => none
  | fuel + 1, text => do
      let (item, rest) ← value fuel text
      match skipFiller rest with
      | ',' :: rest =>
          let (items, rest) ← elements fuel rest
          some (item :: items, rest)
      | ']' :: rest => some ([item], rest)
      | _ => none

def members : Nat → Text → Option (List (Option Text × Json) × Text)
  | 0, _ => none
  | fuel + 1, text =>
      match skipFiller text with
      | '"' :: rest => do
          let (key, rest) ← glyphs rest
          match skipFiller rest with
          | ':' :: rest =>
              let (item, rest) ← value fuel rest
              match skipFiller rest with
              | ',' :: rest =>
                  let (entries, rest) ← members fuel rest
                  some ((spell key, item) :: entries, rest)
              | '\x7d' :: rest => some ([(spell key, item)], rest)
              | _ => none
          | _ => none
      | _ => none

end

def parse (text : Text) : Option Json := do
  let (json, rest) ← value (2 * text.length + 2) text
  if (skipFiller rest).isEmpty then some json else none

def text? : Json → Option Text
  | string text => text
  | _ => none

def texts? : Json → Option (List Text)
  | array items => items.mapM text?
  | _ => none

def members? : Json → Option (List (Text × Json))
  | object members => members.mapM fun member => member.1.map (·, member.2)
  | _ => none

end Json

end Gherkin
