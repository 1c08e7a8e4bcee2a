import Gherkin.Proofs.Laziness
import Gherkin.Proofs.Productions

/-!
Documents read to their end.

A transcript is a cursor's view of a document whose tokens have all been read. What is left of it
at any time is a tail of its tokens, never empty before its end has been consumed. On such tails the
questions of the grammar are equations about lists. The lines of a doc string come one after
another, so a doc string that opens between a token and the next one can be read off the tokens as
a whole.
-/

namespace Gherkin

structure Transcript where
  reader : Reader
  limit : Nat
  tokens : List Token
  layout : Layout reader.mode.blocks tokens
  enough : tokens.length ≤ limit + 1
  nonempty : tokens ≠ []

namespace Transcript

def ofTokens {setup : Setup} {text : Text} {tokens : List Token}
    (lexed : tokenize setup text = .ok tokens) : Transcript where
  reader := .afterDocument setup text
  limit := (Reader.start setup text).size
  tokens := uncommented tokens
  layout := by
    obtain ⟨read, last, reads, rfl⟩ := reads_of_tokenize_ok lexed
    obtain ⟨_, done, _⟩ := tokenize_of_reads_ok reads
    rw [done.reached, blocks_of_outside last done.outside, uncommented_append]
    exact layout_of_reads reads
  enough := by
    obtain ⟨read, last, reads, rfl⟩ := reads_of_tokenize_ok lexed
    have bound := (Reader.holds_start setup text reads).length_le
    apply Nat.le_trans (List.length_filter_le _ _)
    rw [List.length_append]
    exact Nat.succ_le_succ bound
  nonempty := by
    obtain ⟨read, last, reads, rfl⟩ := reads_of_tokenize_ok lexed
    simp [uncommented]

variable (script : Transcript)

def blocks : List Block :=
  script.reader.mode.blocks

def cursor (tokens : List Token) : Cursor where
  reader := script.reader
  ahead := tokens
  limit := script.limit

/-- Tokens that can be left before the end has been consumed. -/
structure Remains (tokens : List Token) : Prop where
  suffix : tokens <:+ script.tokens
  nonempty : tokens ≠ []

theorem remains_tokens : script.Remains script.tokens :=
  ⟨List.suffix_refl _, script.nonempty⟩

namespace Remains

variable {script : Transcript} {tokens rest : List Token} {token left right : Token}

theorem of_suffix (remains : script.Remains tokens) (shorter : rest <:+ tokens) (nonempty : rest ≠ []) :
    script.Remains rest :=
  ⟨shorter.trans remains.suffix, nonempty⟩

/-- Only the last token ends the document. -/
theorem tail (remains : script.Remains (token :: rest)) (other : token.kind ≠ .eof) :
    script.Remains rest := by
  apply remains.of_suffix (List.suffix_cons token rest)
  rintro rfl
  obtain ⟨before, joined⟩ := remains.suffix
  refine other (script.layout.ends token ?_)
  rw [← joined, List.getLast?_concat]
  rfl

theorem length_le (remains : script.Remains tokens) : tokens.length ≤ script.limit + 1 :=
  Nat.le_trans remains.suffix.length_le script.enough

theorem exists_cons (remains : script.Remains tokens) : ∃ token rest, tokens = token :: rest :=
  List.exists_cons_of_ne_nil remains.nonempty

theorem mem (remains : script.Remains tokens) (member : token ∈ tokens) : token ∈ script.tokens :=
  remains.suffix.subset member

theorem joins (remains : script.Remains (left :: right :: rest)) : Joins left right :=
  (List.isChain_cons_cons.mp (script.layout.chain.suffix remains.suffix)).1

theorem rises (remains : script.Remains (left :: right :: rest)) : Mode.Rises left right :=
  (List.pairwise_cons.mp (script.layout.rises.sublist remains.suffix.sublist)).1 right
    List.mem_cons_self

/-- A token that does not close its line is followed on the line. -/
theorem precedes (remains : script.Remains (left :: right :: rest))
    (unfinished : left.kind.closesLine = false ∨ right.kind.opensLine = false) :
    left.location.line = right.location.line ∧ left.kind.precedes right.kind = true := by
  rcases remains.joins with same | ⟨closes, opens⟩
  · exact same
  · rcases unfinished with unclosed | inner
    · rw [unclosed] at closes
      cases closes
    · rw [inner] at opens
      cases opens

theorem eq_nil_of_eof (remains : script.Remains (token :: rest)) (ends : token.kind = .eof) :
    rest = [] := by
  cases rest with
  | nil => rfl
  | cons next more =>
      have precedes := (remains.precedes (.inl (by rw [ends]; rfl))).2
      rw [ends] at precedes
      cases precedes

/-- Some token belongs to no tag line, since the last one does not. -/
theorem exists_after_tags (remains : script.Remains tokens) :
    ∃ token, tokens.find? (fun token => !Parse.inTags token) = some token := by
  refine Option.isSome_iff_exists.mp (List.find?_isSome.mpr ?_)
  have last := List.getLast?_eq_getLast_of_ne_nil remains.nonempty
  refine ⟨tokens.getLast remains.nonempty, List.getLast_mem remains.nonempty, ?_⟩
  have ends : (tokens.getLast remains.nonempty).kind = .eof := by
    apply script.layout.ends _
    obtain ⟨before, joined⟩ := remains.suffix
    rw [← joined, List.getLast?_append, last]
    rfl
  simp [Parse.inTags, ends]

end Remains

theorem peek_cursor (token : Token) (rest : List Token) :
    Parse.peek (script.cursor (token :: rest)) = (.ok token, script.cursor (token :: rest)) :=
  Parse.peek_cons _ token rest rfl

theorem advance_cursor (token : Token) (rest : List Token) :
    Parse.advance (script.cursor (token :: rest)) = (.ok token, script.cursor rest) := by
  rw [Parse.advance_apply, peek_cursor]
  rfl

theorem takeIf_cursor (kind : TokenKind) (token : Token) (rest : List Token) :
    Parse.takeIf kind (script.cursor (token :: rest)) =
      if token.kind = kind then (.ok (some token), script.cursor rest)
      else (.ok none, script.cursor (token :: rest)) := by
  rw [Parse.takeIf_apply, peek_cursor]
  rfl

theorem expect_cursor (kind : TokenKind) (expected : String) (token : Token) (rest : List Token) :
    Parse.expect kind expected (script.cursor (token :: rest)) =
      if token.kind = kind then (.ok token, script.cursor rest)
      else (.error (.grammar ⟨token.location, expected, token.describe⟩), script.cursor rest) := by
  rw [Parse.expect_apply, peek_cursor]
  rfl

theorem kindAfterTags_cursor {tokens : List Token} {token : Token}
    (found : tokens.find? (fun token => !Parse.inTags token) = some token) :
    Parse.kindAfterTags (script.cursor tokens) = (.ok token.kind, script.cursor tokens) := by
  have ahead : (script.cursor tokens).ahead.find? (fun token => !Parse.inTags token) = some token :=
    found
  rw [Parse.kindAfterTags_apply, ahead]

/-- A line of a doc string that comes next belongs to a block after the given one. -/
def Beyond (block : Block) (tokens : List Token) : Prop :=
  ∀ token ∈ tokens.head?, token.kind = .docStringLine → block.stop < token.location.line

variable {script} {block : Block}

/-- The lines of a block from `line` on, when the token `left` comes before them. -/
theorem lines_of_block (known : block ∈ script.blocks) (count line : Nat) (left : Token)
    (tokens : List Token) (remains : script.Remains (left :: tokens))
    (further : script.Remains tokens) (inside : block.location.line < line)
    (ends : line + count = block.stop) (passed : left.location.line < line)
    (reached : ∀ token ∈ tokens.head?, line ≤ token.location.line) :
    ∃ lines rest, tokens = lines ++ rest ∧ (∀ token ∈ lines, token.kind = .docStringLine) ∧
      lines.map (·.location.line) = List.range' line count ∧ Beyond block rest ∧
      script.Remains rest := by
  obtain ⟨right, rest, rfl⟩ := further.exists_cons
  obtain ⟨before, split⟩ := remains.suffix
  obtain ⟨within, after⟩ := script.layout.next_line split.symm known inside passed
    (reached right rfl)
  induction count generalizing line left right rest before with
  | zero =>
      refine ⟨[], right :: rest, rfl, by simp, rfl, ?_, further⟩
      rintro token ⟨⟩
      exact after ends
  | succ count ih =>
      obtain ⟨verbatim, here⟩ := within (by omega)
      have later := further.tail (by simp [verbatim])
      obtain ⟨next, more, rfl⟩ := later.exists_cons
      have beyond := further.rises.2 (Or.inl verbatim)
      obtain ⟨start, joined⟩ := further.suffix
      obtain ⟨inner, outer⟩ := script.layout.next_line joined.symm known
        (Nat.lt_succ_of_lt inside) (by omega) (by omega)
      obtain ⟨lines, rest, same, allVerbatim, numbers, past, left⟩ :=
        ih (line + 1) right (by omega) (by omega) (by omega) next more further later
          (by rintro token ⟨⟩; omega) start joined inner outer
      refine ⟨right :: lines, rest, by rw [same]; rfl, ?_, ?_, past, left⟩
      · exact List.forall_mem_cons.mpr ⟨verbatim, allVerbatim⟩
      · rw [List.map_cons, here, numbers, List.range'_succ]

theorem closing_cursor (known : block ∈ script.blocks) :
    (script.reader.blockAt? block.location.line).bind (·.closingLine) = some block.stop := by
  have found : script.reader.blockAt? block.location.line = some block := by
    cases found : script.reader.blockAt? block.location.line with
    | none =>
        have absent := List.find?_eq_none.mp found block known
        simp at absent
    | some other =>
        have member : other ∈ script.blocks := List.mem_of_find?_eq_some found
        have same : other.location.line = block.location.line := by
          simpa using List.find?_some found
        have closes := (script.layout.closed block known).2
        have otherCloses := (script.layout.closed other member).2
        rw [script.layout.block_unique known member (Nat.le_refl _) (by omega) (by omega) (by omega)]
  rw [found]
  exact (script.layout.closed block known).1

theorem docStringLine_cursor (known : block ∈ script.blocks) (indent : Nat) (token : Token)
    (rest : List Token) :
    Parse.docStringLine block indent (script.cursor (token :: rest)) =
      if token.kind = .docStringLine ∧ token.location.line ≤ block.stop then
        (.ok (some (DocString.unindent indent token.text)), script.cursor rest)
      else (.ok none, script.cursor (token :: rest)) := by
  rw [Parse.docStringLine, Parse.bind_apply, peek_cursor]
  simp only
  rw [Parse.bind_apply, Parse.reader_apply]
  simp only [cursor, closing_cursor known, Option.mem_some_iff, forall_eq']
  split
  · rw [Parse.bind_apply, ← cursor, advance_cursor]
    rfl
  · rfl

/-- A doc string takes all lines of its block. -/
theorem docString_cursor (known : block ∈ script.blocks) {lines rest : List Token}
    (verbatim : ∀ token ∈ lines, token.kind = .docStringLine)
    (within : ∀ token ∈ lines, token.location.line ≤ block.stop) (beyond : Beyond block rest)
    (remains : script.Remains (lines ++ rest)) (left : rest ≠ []) :
    Parse.docString block (script.cursor (lines ++ rest)) =
      (.ok ⟨lines.map fun token => DocString.unindent (block.location.column - 1) token.text,
        block.delimiter.text, block.location.column - 1, block.location⟩, script.cursor rest) := by
  have repeats : Parse.Repeats
      (stateless (Parse.docStringLine block (block.location.column - 1))) ()
      (script.cursor (lines ++ rest))
      (lines.map fun token => DocString.unindent (block.location.column - 1) token.text)
      (script.cursor rest) := by
    clear remains
    induction lines with
    | nil =>
        obtain ⟨token, rest, rfl⟩ := List.exists_cons_of_ne_nil left
        refine .stop ((Parse.stateless_eq_ok _ _ _ _ _).mpr ?_)
        rw [List.nil_append, docStringLine_cursor known, if_neg]
        · rfl
        · rintro ⟨kind, inside⟩
          -- A doc string line behind the block lies below its end.
          have after := beyond token rfl kind
          omega
    | cons token lines ih =>
        obtain ⟨kind, verbatim⟩ := List.forall_mem_cons.mp verbatim
        obtain ⟨inside, within⟩ := List.forall_mem_cons.mp within
        refine .next ((Parse.stateless_eq_ok _ _ (some (_, ())) _ _).mpr ?_) (ih verbatim within)
        rw [List.cons_append, docStringLine_cursor known, if_pos ⟨kind, inside⟩]
        rfl
  have count := remains.length_le
  have positive := List.length_pos_iff.mpr left
  rw [List.length_append] at count
  rw [Parse.docString, Parse.bind_apply, Parse.many_apply,
    Parse.collectFrom_of_repeats repeats _ (by simp only [cursor, List.length_map]; omega)]
  rfl

/-- The doc string that opens after a token and before the next one is read off the tokens. -/
theorem docString_opened (known : block ∈ script.blocks) {name : Token} {tokens : List Token}
    (remains : script.Remains (name :: tokens)) (further : script.Remains tokens)
    (after : name.location.line < block.location.line)
    (before : ∀ token ∈ tokens.head?, block.location.line < token.location.line) :
    ∃ doc rest, Parse.docString block (script.cursor tokens) = (.ok doc, script.cursor rest) ∧
      DerivesDocString block tokens doc rest ∧ script.Remains rest := by
  have closes := (script.layout.closed block known).2
  obtain ⟨lines, rest, rfl, verbatim, numbers, beyond, left⟩ := lines_of_block known
    (block.stop - (block.location.line + 1)) (block.location.line + 1) name tokens remains further
    (Nat.lt_succ_self _) (by omega) (Nat.lt_succ_of_lt after) before
  have within : ∀ token ∈ lines, token.location.line ≤ block.stop := by
    intro token member
    have listed : token.location.line ∈ lines.map (·.location.line) :=
      List.mem_map_of_mem member
    rw [numbers, List.mem_range'_1] at listed
    omega
  exact ⟨_, rest, docString_cursor known verbatim within beyond further left.nonempty,
    .intro verbatim numbers, left⟩

end Transcript

end Gherkin
