import Gherkin.Line.Tokens
import Mathlib.Data.List.Chain

/-!
The tokens of one line.

A line with content yields a keyword and perhaps a name, some tags and their end, the borders and
cells of a row and their end, or a single token. Which kinds can stand side by side is a table;
`OnLine` says that some tokens keep to it and to their line, and `onLine_tokens` that every
line does. The number of tokens is bounded by the length of the line.
-/

namespace Gherkin

namespace TokenKind

/-- Whether a token of the first kind can be followed by one of the second on the same line. -/
def precedes : TokenKind → TokenKind → Bool
  | tag, tag | tag, eol => true
  | pipe, cell | pipe, pipe | pipe, eol | cell, pipe => true
  | block _, name | step, name => true
  | _, _ => false

def opensLine : TokenKind → Bool
  | name | cell | eol => false
  | _ => true

/-- Nothing follows the end of a document, so it closes no line either. -/
def closesLine : TokenKind → Bool
  | tag | pipe | cell | eof => false
  | _ => true

def isContent : TokenKind → Bool
  | docStringLine | comment | eof => false
  | _ => true

end TokenKind

structure OnLine (number : Nat) (tokens : List Token) : Prop where
  line : ∀ token ∈ tokens, token.location.line = number
  chain : (tokens.map (·.kind)).IsChain fun left right => left.precedes right = true
  head : ∀ kind ∈ (tokens.map (·.kind)).head?, kind.opensLine = true
  last : ∀ kind ∈ (tokens.map (·.kind)).getLast?, kind.closesLine = true

theorem onLine_singleton (number : Nat) (token : Token) (here : token.location.line = number)
    (opens : token.kind.opensLine = true) (closes : token.kind.closesLine = true) :
    OnLine number [token] where
  line other member := by
    rw [List.mem_singleton.mp member]
    exact here
  chain := List.IsChain.singleton _
  head kind first := by
    cases first
    exact opens
  last kind final := by
    cases final
    exact closes

namespace Row

def State.kind : State → TokenKind
  | opening => .pipe
  | border => .pipe
  | cell _ => .cell

theorem State.kind_next (state : State) (c : Char) : (state.next c).kind = state.kind := by
  cases state <;> rfl

theorem State.kind_enter (c : Char) : (State.enter c).kind = kindOf c := by
  by_cases pipe : c = '|' <;> simp [State.enter, kindOf, State.kind, pipe]

/-- A cell ends only in front of an unescaped pipe, so two cells never touch. -/
theorem State.precedes_of_not_takes (state : State) (c : Char) (stops : ¬ state.takes c = true) :
    state.kind.precedes (kindOf c) = true := by
  by_cases pipe : c = '|'
  · cases state <;> simp [State.kind, kindOf, pipe, TokenKind.precedes]
  · cases state with
    | opening => simp [State.kind, kindOf, pipe, TokenKind.precedes]
    | border => simp [State.kind, kindOf, pipe, TokenKind.precedes]
    | cell escaped => simp [State.takes, pipe] at stops

theorem isChain_scan (state : State) (text : Text) :
    (state.kind :: (scan state text).2.map (·.kind)).IsChain
      fun left right => left.precedes right = true := by
  induction text generalizing state with
  | nil => exact List.IsChain.singleton _
  | cons c rest ih =>
      rw [scan]
      split
      · have later := ih (state.next c)
        rwa [State.kind_next] at later
      · rename_i stops
        have later := ih (State.enter c)
        rw [State.kind_enter] at later
        exact List.IsChain.cons_cons (State.precedes_of_not_takes state c stops) later

theorem kind_of_mem_scan (state : State) (text : Text) (part : Part)
    (member : part ∈ (scan state text).2) : part.kind = .pipe ∨ part.kind = .cell := by
  induction text generalizing state with
  | nil => simp [scan] at member
  | cons c rest ih =>
      rw [scan] at member
      split at member
      · exact ih _ member
      · rcases List.mem_cons.mp member with here | later
        · subst here
          by_cases pipe : c = '|' <;> simp [kindOf, pipe]
        · exact ih _ later

theorem length_scan_le (state : State) (text : Text) :
    (scan state text).2.length ≤ text.length := by
  induction text generalizing state with
  | nil => simp [scan]
  | cons c rest ih =>
      rw [scan]
      split
      · exact Nat.le_succ_of_le (ih _)
      · exact Nat.succ_le_succ (ih _)

theorem kinds_layout (location : Location) (parts : List Part) :
    (layout location parts).map (·.kind) = parts.map (·.kind) := by
  induction parts generalizing location with
  | nil => rfl
  | cons part rest ih => simp [layout, ih]

theorem layout_append (location : Location) (first second : List Part) :
    layout location (first ++ second) = layout location first ++
      layout (location.shift (first.flatMap (·.text)).length) second := by
  induction first generalizing location with
  | nil => rfl
  | cons part rest ih => simp [layout, ih, Location.shift, Nat.add_assoc]

theorem texts_layout (location : Location) (parts : List Part) :
    (layout location parts).flatMap (·.text) = parts.flatMap (·.text) := by
  induction parts generalizing location with
  | nil => rfl
  | cons part rest ih => simp [layout, ih]

theorem length_layout (location : Location) (parts : List Part) :
    (layout location parts).length = parts.length := by
  simpa using congrArg List.length (kinds_layout location parts)

theorem line_of_mem_layout (location : Location) (parts : List Part) (token : Token)
    (member : token ∈ layout location parts) : token.location.line = location.line := by
  induction parts generalizing location with
  | nil => simp [layout] at member
  | cons part rest ih =>
      rcases List.mem_cons.mp member with here | later
      · rw [here]
      · exact ih (location.shift part.text.length) later

/-- The tokens of a row, with its opening border and its end around the parts between. -/
theorem tokens_eq_ok (start : Location) (ending row : Text) (tokens : List Token)
    (closed : Row.tokens start ending row = .ok tokens) :
    ∃ rest, row = '|' :: rest ∧ (∀ part, (parts rest).getLast? = some part → part.kind ≠ .cell) ∧
      tokens = layout start (⟨.pipe, ['|']⟩ :: parts rest ++ [⟨.eol, ending⟩]) := by
  unfold Row.tokens at closed
  split at closed
  · rename_i rest
    split at closed
    · cases closed
    · rename_i notCell
      refine ⟨rest, rfl, ?_, (Except.ok.inj closed).symm⟩
      rintro ⟨kind, text⟩ last same
      subst same
      exact notCell text last
  · cases closed

theorem onLine_tokens (start : Location) (ending row : Text) (tokens : List Token)
    (closed : Row.tokens start ending row = .ok tokens) : OnLine start.line tokens := by
  obtain ⟨rest, _, notCell, same⟩ := tokens_eq_ok start ending row tokens closed
  subst same
  have kinds : (layout start (⟨.pipe, ['|']⟩ :: parts rest ++ [⟨.eol, ending⟩])).map (·.kind) =
      .pipe :: (parts rest).map (·.kind) ++ [.eol] := by
    simp [kinds_layout]
  refine ⟨fun token member => line_of_mem_layout _ _ token member, ?_, ?_, ?_⟩
  · rw [kinds]
    refine List.isChain_append.mpr ⟨isChain_scan .opening rest, List.IsChain.singleton _, ?_⟩
    intro kind final after ends
    have closes : kind = .pipe := by
      rw [List.getLast?_cons] at final
      cases last : (parts rest).getLast? with
      | none => simpa [last] using final.symm
      | some part =>
          have member := List.mem_of_getLast? last
          have found : part.kind = kind := by simpa [last] using final
          rcases kind_of_mem_scan _ _ part member with pipe | cell
          · exact found.symm.trans pipe
          · exact absurd cell (notCell part last)
    cases ends
    rw [closes]
    rfl
  · rw [kinds]
    simp [TokenKind.opensLine]
  · rw [kinds, List.getLast?_concat]
    rintro kind ⟨⟩
    rfl

theorem kind_of_mem_tokens {start : Location} {ending row : Text} {tokens : List Token}
    (closed : Row.tokens start ending row = .ok tokens) {token : Token} (member : token ∈ tokens) :
    token.kind = .pipe ∨ token.kind = .cell ∨ token.kind = .eol := by
  obtain ⟨rest, _, _, same⟩ := tokens_eq_ok start ending row tokens closed
  have listed : token.kind ∈ tokens.map (·.kind) := List.mem_map_of_mem member
  rw [same, kinds_layout] at listed
  obtain ⟨part, held, kind⟩ := List.mem_map.mp listed
  rw [← kind]
  simp only [List.cons_append, List.mem_cons, List.mem_append, List.not_mem_nil, or_false] at held
  rcases held with border | inner | eol
  · exact Or.inl (by rw [border])
  · exact (kind_of_mem_scan _ _ part inner).imp_right Or.inl
  · exact Or.inr (Or.inr (by rw [eol]))

theorem isContent_tokens (start : Location) (ending row : Text) (tokens : List Token)
    (closed : Row.tokens start ending row = .ok tokens) (token : Token) (member : token ∈ tokens) :
    token.kind.isContent = true := by
  rcases kind_of_mem_tokens closed member with pipe | cell | eol
  · rw [pipe]; rfl
  · rw [cell]; rfl
  · rw [eol]; rfl

theorem length_tokens_le (start : Location) (ending row : Text) (tokens : List Token)
    (closed : Row.tokens start ending row = .ok tokens) : tokens.length ≤ row.length + 1 := by
  obtain ⟨rest, split, _, same⟩ := tokens_eq_ok start ending row tokens closed
  have bound := length_scan_le .opening rest
  rw [same, length_layout, split]
  simp only [List.length_append, List.length_cons, List.length_nil]
  exact Nat.succ_le_succ (Nat.succ_le_succ bound)

end Row

namespace Text

theorem length_wordsFrom_le (offset : Nat) (text : Text) :
    (wordsFrom offset text).length ≤ text.length := by
  induction text generalizing offset with
  | nil => simp [wordsFrom]
  | cons c rest ih =>
      have later := ih (offset + 1)
      simp only [wordsFrom, List.length_cons]
      split
      · omega
      · split
        · simp
        · rename_i word others found
          split
          · rw [found] at later
            exact Nat.le_succ_of_le later
          · exact Nat.succ_le_succ later

/-- The first word begins where the white space in front of the text ends. -/
theorem head?_wordsFrom (offset : Nat) (text : Text) (c : Char) (rest : Text)
    (start : text.trimStart = c :: rest) :
    ∃ word others, wordsFrom offset text = word :: others ∧ word.text.head? = some c := by
  induction text generalizing offset with
  | nil => simp [trimStart] at start
  | cons d more ih =>
      by_cases space : isSpace d = true
      · have inner : trimStart more = c :: rest := by simpa [trimStart, space] using start
        obtain ⟨word, others, found, first⟩ := ih (offset + 1) inner
        exact ⟨word, others, by simp [wordsFrom, space, found], first⟩
      · have same : d = c := by
          simp [trimStart, space] at start
          exact start.1
        subst same
        rw [wordsFrom, if_neg space]
        split
        · exact ⟨⟨offset, [d]⟩, [], rfl, rfl⟩
        · rename_i word others _
          split
          · exact ⟨⟨offset, d :: word.text⟩, others, rfl, rfl⟩
          · exact ⟨⟨offset, [d]⟩, _, rfl, rfl⟩

end Text

namespace Line

theorem tagTokens_eq_ok (line : Line) (tokens : List Token) (legal : line.tagTokens = .ok tokens) :
    tokens = line.tagWords.map (fun word => ⟨.tag, word.text, ⟨line.number, word.offset⟩⟩) ++
      [⟨.eol, line.ending.text, ⟨line.number, line.columnAfter line.tagWords⟩⟩] := by
  unfold tagTokens at legal
  split at legal
  · cases legal
  · exact (Except.ok.inj legal).symm

theorem tagWords_ne_nil (line : Line) (rest : Text) (start : line.body = '@' :: rest) :
    line.tagWords ≠ [] := by
  obtain ⟨word, others, found, first⟩ := Text.head?_wordsFrom 1 line.content '@' rest start
  have kept : startsComment word = false := by simp [startsComment, first]
  simp [tagWords, found, kept]

theorem isChain_tags (count : Nat) :
    (List.replicate (count + 1) TokenKind.tag ++ [TokenKind.eol]).IsChain
      fun left right => left.precedes right = true := by
  induction count with
  | zero => exact List.isChain_pair.mpr rfl
  | succ count ih =>
      rw [List.replicate_succ, List.cons_append]
      rw [List.replicate_succ, List.cons_append] at ih ⊢
      exact List.IsChain.cons_cons rfl ih

theorem onLine_tagTokens (line : Line) (tokens : List Token) (rest : Text)
    (start : line.body = '@' :: rest) (legal : line.tagTokens = .ok tokens) :
    OnLine line.number tokens := by
  have same := tagTokens_eq_ok line tokens legal
  have some := tagWords_ne_nil line rest start
  obtain ⟨first, later, words⟩ := List.exists_cons_of_ne_nil some
  have kinds : tokens.map (·.kind) = List.replicate (later.length + 1) .tag ++ [.eol] := by
    rw [same, words]
    simp [List.replicate_succ, Function.comp_def, List.map_const']
  refine ⟨?_, ?_, ?_, ?_⟩
  · intro token member
    rw [same] at member
    rcases List.mem_append.mp member with tag | eol
    · obtain ⟨word, _, made⟩ := List.mem_map.mp tag
      rw [← made]
    · rw [List.mem_singleton.mp eol]
  · rw [kinds]
    exact isChain_tags later.length
  · rw [kinds]
    rintro kind ⟨⟩
    rfl
  · rw [kinds, List.getLast?_concat]
    rintro kind ⟨⟩
    rfl

theorem length_tagTokens_le (line : Line) (tokens : List Token)
    (legal : line.tagTokens = .ok tokens) : tokens.length ≤ line.content.length + 1 := by
  have words := Text.length_wordsFrom_le 1 line.content
  have taken := (List.takeWhile_sublist (l := Text.wordsFrom 1 line.content)
    fun word => !startsComment word).length_le
  rw [tagTokens_eq_ok line tokens legal, List.length_append, List.length_map]
  exact Nat.succ_le_succ (Nat.le_trans taken words)

theorem nameTokens_cases (location : Location) (rest : Text) :
    nameTokens location rest = [] ∨
      nameTokens location rest = [⟨.name, rest.trim, location.shift rest.indentation⟩] := by
  unfold nameTokens
  split
  · exact Or.inl rfl
  · exact Or.inr rfl

theorem onLine_keywordTokens (line : Line) (kind : TokenKind) (width : Nat)
    (keyword : kind.precedes .name = true) (opens : kind.opensLine = true)
    (closes : kind.closesLine = true) :
    OnLine line.number (line.keywordTokens kind width) := by
  unfold keywordTokens
  rcases nameTokens_cases (line.start.shift width) (line.body.drop width) with alone | named
  · rw [alone]
    exact onLine_singleton line.number _ rfl opens closes
  · rw [named]
    refine ⟨?_, List.isChain_pair.mpr keyword, ?_, ?_⟩
    · intro token member
      rcases List.mem_pair.mp member with first | second
      · rw [first]; rfl
      · rw [second]; rfl
    · rintro other ⟨⟩
      exact opens
    · rintro other ⟨⟩
      rfl

theorem kind_of_mem_keywordTokens {line : Line} {kind : TokenKind} {width : Nat} {token : Token}
    (member : token ∈ line.keywordTokens kind width) : token.kind = kind ∨ token.kind = .name := by
  rcases List.mem_cons.mp member with first | named
  · rw [first]
    exact Or.inl rfl
  · rcases nameTokens_cases (line.start.shift width) (line.body.drop width) with none | one
    · rw [none] at named
      cases named
    · rw [one, List.mem_singleton] at named
      rw [named]
      exact Or.inr rfl

theorem length_keywordTokens_le (line : Line) (kind : TokenKind) (width : Nat) :
    (line.keywordTokens kind width).length ≤ 2 := by
  unfold keywordTokens
  rcases nameTokens_cases (line.start.shift width) (line.body.drop width) with alone | named
  · rw [alone]
    exact Nat.le_succ 1
  · rw [named]
    exact Nat.le_refl 2

end Line

/-! Whatever the shape of a line, its tokens begin the line with a kind that may, and go on with kinds that
may follow. -/

def Shape.Fits (fenced : Bool) (dialect : Dialect) (body : Text) : Shape → Prop
  | blank => body = []
  | comment => ∃ rest, body = '#' :: rest
  | delimiter kind => Delimiter.opening? fenced body = some kind
  | row => ∃ rest, body = '|' :: rest
  | tags => ∃ rest, body = '@' :: rest
  | block surface => dialect.block? body = some surface
  | step surface => dialect.step? body = some surface
  | description => True

namespace Line

theorem length_body_le (line : Line) : line.body.length ≤ line.content.length :=
  (List.dropWhile_sublist Text.isSpace).length_le

/-- What is no comment, delimiter, row or tag line is told by its keyword. -/
theorem fits_keywordShape (fenced : Bool) (dialect : Dialect) (body : Text) :
    (keywordShape dialect body).Fits fenced dialect body := by
  unfold keywordShape
  split
  · assumption
  · split
    · assumption
    · trivial

theorem fits_shape (fenced : Bool) (dialect : Dialect) (line : Line) :
    (line.shape fenced dialect).Fits fenced dialect line.body := by
  unfold shape
  split
  · rename_i empty
    exact empty
  · rename_i c rest body
    rw [body]
    split
    · rename_i comment
      exact ⟨rest, comment ▸ rfl⟩
    · split
      · rename_i found
        exact found
      · split
        · rename_i border
          exact ⟨rest, border ▸ rfl⟩
        · split
          · rename_i tag
            exact ⟨rest, tag ▸ rfl⟩
          · exact fits_keywordShape fenced dialect (c :: rest)

/-- A tag line begins with a tag. -/
theorem body_of_shape_tags (fenced : Bool) (dialect : Dialect) (line : Line)
    (tags : line.shape fenced dialect = .tags) : ∃ rest, line.body = '@' :: rest := by
  have fits := fits_shape fenced dialect line
  rw [tags] at fits
  exact fits

theorem body_pos_of_shape (fenced : Bool) (dialect : Dialect) (line : Line)
    (filled : line.shape fenced dialect ≠ .blank) : 0 < line.body.length := by
  unfold shape at filled
  split at filled
  · exact absurd rfl filled
  · rename_i body
    rw [body]
    exact Nat.succ_pos _

end Line

def Shape.isContent : Shape → Bool
  | blank | comment | delimiter _ => false
  | _ => true

namespace Line

theorem onLine_tokens (fenced : Bool) (dialect : Dialect) (line : Line) (tokens : List Token)
    (content : (line.shape fenced dialect).isContent = true)
    (read : line.tokens (line.shape fenced dialect) = .ok tokens) : OnLine line.number tokens := by
  cases found : line.shape fenced dialect with
  | blank | comment | delimiter _ => simp [found, Shape.isContent] at content
  | row =>
      rw [found] at read
      exact Row.onLine_tokens line.start line.ending.text line.body tokens read
  | tags =>
      obtain ⟨rest, start⟩ := body_of_shape_tags fenced dialect line found
      rw [found] at read
      exact onLine_tagTokens line tokens rest start read
  | block surface =>
      rw [found] at read
      cases read
      exact onLine_keywordTokens line _ _ rfl rfl rfl
  | step surface =>
      rw [found] at read
      cases read
      exact onLine_keywordTokens line _ _ rfl rfl rfl
  | description =>
      rw [found] at read
      cases read
      exact onLine_singleton line.number _ rfl rfl rfl

theorem isContent_tokens (shape : Shape) (line : Line) (tokens : List Token)
    (content : shape.isContent = true) (read : line.tokens shape = .ok tokens)
    (token : Token) (member : token ∈ tokens) : token.kind.isContent = true := by
  -- Block keywords and step keywords yield tokens of the same form.
  have keyword : ∀ kind width, kind.isContent = true →
      token ∈ line.keywordTokens kind width → token.kind.isContent = true := by
    intro kind width fit held
    rcases kind_of_mem_keywordTokens held with same | name
    · rw [same]
      exact fit
    · rw [name]
      rfl
  cases shape with
  | blank | comment | delimiter _ => cases content
  | row => exact Row.isContent_tokens _ _ _ tokens read token member
  | tags =>
      rw [tagTokens_eq_ok line tokens read] at member
      rcases List.mem_append.mp member with tag | ending
      · obtain ⟨word, _, made⟩ := List.mem_map.mp tag
        rw [← made]
        rfl
      · rw [List.mem_singleton.mp ending]
        rfl
  | block surface =>
      cases read
      exact keyword _ _ rfl member
  | step surface =>
      cases read
      exact keyword _ _ rfl member
  | description =>
      cases read
      rw [List.mem_singleton.mp member]
      rfl

theorem length_tokens_le (fenced : Bool) (dialect : Dialect) (line : Line) (tokens : List Token)
    (read : line.tokens (line.shape fenced dialect) = .ok tokens) :
    tokens.length ≤ line.content.length + 1 := by
  have body := length_body_le line
  cases found : line.shape fenced dialect with
  | row =>
      rw [found] at read
      have row := Row.length_tokens_le line.start line.ending.text line.body tokens read
      omega
  | tags =>
      rw [found] at read
      exact length_tagTokens_le line tokens read
  | block surface =>
      have some := body_pos_of_shape fenced dialect line (by simp [found])
      rw [found] at read
      cases read
      have pair := length_keywordTokens_le line (.block surface.keyword) surface.width
      omega
  | step surface =>
      have some := body_pos_of_shape fenced dialect line (by simp [found])
      rw [found] at read
      cases read
      have pair := length_keywordTokens_le line .step surface.width
      omega
  | blank | comment | delimiter _ | description =>
      rw [found] at read
      cases read
      simp

end Line

end Gherkin
