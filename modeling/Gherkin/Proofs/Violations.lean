import Gherkin.Proofs.Culprits
import Gherkin.Proofs.Faults

/-!
Where the grammar stops.

One verdict for each parser of the grammar. Tables come first, as their rows are read by what the
neighbours of a border can be, and a table of examples is the one part that can be passed with a fault in
it. All other parts are put together as the grammar puts them together. What results is that a document
that fails has been a document up to the place of its error, or up to a table with a doubled column.
-/

namespace Gherkin

open scoped Computability

namespace Supply

section Cells

variable {supply : Supply} {cursor : Cursor} {tokens : List Token} {pipe : Token}

theorem Shows.advance {token : Token} (shows : supply.Shows cursor (token :: tokens))
    (proper : token.kind ≠ .eof) :
    ∃ after, Parse.advance cursor = (.ok token, after) ∧ supply.Shows after tokens := by
  have looked := shows.peek
  rw [Parse.advance_apply]
  generalize Parse.peek cursor = answer at looked
  cases looked with
  | token split shown ahead =>
      cases split
      exact ⟨_, rfl, shown.consume ahead proper⟩
  | failure none => cases none

/-- Behind a border stands a cell with its own border, or another border, or the row ends. -/
theorem Shows.cell (border : Location) (shows : supply.Shows cursor tokens)
    (within : pipe :: tokens <:+ supply.tokens) (opens : pipe.kind = .pipe) :
    ∃ found rest after, Parse.cell border cursor = (.ok found, after) ∧ supply.Shows after rest ∧
      Transcript.TakesCell border tokens found rest := by
  obtain ⟨next, more, rfl, _, precedes⟩ := exists_next within (Or.inr (Or.inl opens))
  rw [opens] at precedes
  have given := shows.takeIf (show TokenKind.cell ≠ .eof by decide)
  rw [Parse.cell_apply, Parse.bind_apply]
  generalize Parse.takeIf .cell cursor = answer at given
  cases given with
  | taken split filled shown =>
      cases split
      obtain ⟨last, behind, rfl, _, closes⟩ := exists_next ((List.suffix_cons _ _).trans within)
        (Or.inr (Or.inr filled))
      -- Only a border follows a cell.
      have border : last.kind = .pipe := by
        rw [filled] at closes
        cases same : last.kind <;> simp_all [TokenKind.precedes]
      obtain ⟨after, advanced, further⟩ := shown.advance (by simp [border])
      simp only [Parse.bind_apply, advanced, border, ↓reduceIte]
      exact ⟨_, behind, after, rfl, further, .filled filled border⟩
  | declined split other shown =>
      cases split
      have bare : next.kind = .pipe ∨ next.kind = .eol := by
        cases same : next.kind <;> simp_all [TokenKind.precedes]
      obtain ⟨after, advanced, further⟩ :=
        shown.advance (by rcases bare with kind | kind <;> simp [kind])
      simp only [Parse.bind_apply, advanced]
      rcases bare with closes | ends
      · simp only [closes, ↓reduceIte]
        exact ⟨_, more, after, rfl, further, .empty closes⟩
      · simp only [ends, reduceCtorEq, ↓reduceIte]
        exact ⟨_, more, after, rfl, further, .ending ends⟩
  | failure none => cases none

/-- There is fuel for every cell, and a row that has begun is read to its end. -/
theorem Shows.cells (border : Location) (shows : supply.Shows cursor tokens)
    (within : pipe :: tokens <:+ supply.tokens) (opens : pipe.kind = .pipe) (fuel : Nat)
    (enough : tokens.length ≤ fuel) :
    ∃ cells used rest after, Parse.collectFrom Parse.cell fuel border cursor = (.ok cells, after) ∧
      tokens = used ++ rest ∧ supply.Shows after rest ∧ Clear rest ∧
      ∀ others, DerivesCells border (used ++ others) cells others := by
  induction fuel generalizing cursor tokens pipe border with
  | zero =>
      obtain ⟨next, more, rfl, _⟩ := exists_next within (Or.inr (Or.inl opens))
      cases enough
  | succ fuel ih =>
      obtain ⟨found, rest, after, run, shown, takes⟩ := shows.cell border within opens
      rw [Parse.collectFrom_succ, run]
      have inside := (List.suffix_cons pipe tokens).trans within
      -- A cell takes its border, which is then the one that the next cell stands behind.
      cases takes with
      | @ending eol _ ends =>
          have clear := clear_of_within inside (by simp [ends]) (by simp [ends])
          exact ⟨[], [eol], rest, after, rfl, rfl, shown, clear, fun _ => .ending ends⟩
      | @empty next _ closes =>
          simp only [List.length_cons] at enough
          obtain ⟨cells, used, last, final, others, rfl, further, clear, derived⟩ :=
            ih next.location shown inside closes (by omega)
          refine ⟨_ :: cells, next :: used, last, final, ?_, rfl, further, clear,
            fun rest => .empty closes (derived rest)⟩
          simp only [Parse.bind_apply, others]
          rfl
      | @filled cell next _ holds closes =>
          simp only [List.length_cons] at enough
          obtain ⟨cells, used, last, final, others, rfl, further, clear, derived⟩ :=
            ih next.location shown ((List.suffix_cons cell _).trans inside) closes (by omega)
          refine ⟨_ :: cells, cell :: next :: used, last, final, ?_, rfl, further, clear,
            fun rest => .filled holds closes (derived rest)⟩
          simp only [Parse.bind_apply, others]
          rfl

end Cells

section Tables

variable {supply : Supply} {cursor : Cursor} {tokens : List Token}

inductive RowTaken (supply : Supply) (width : Option Nat) (tokens : List Token) :
    Except ParseError (Option (TableRow × Option Nat)) × Cursor → Prop where
  | declined {after : Cursor} (shows : supply.Shows after tokens)
      (stops : ∀ token ∈ tokens.head?, token.kind ≠ .pipe) :
      RowTaken supply width tokens (.ok none, after)
  | taken {row : TableRow} {used rest : List Token} {after : Cursor} (split : tokens = used ++ rest)
      (shows : supply.Shows after rest) (clear : Clear rest)
      (derived : ∀ others, DerivesRow (used ++ others) row others)
      (fits : width.getD row.cells.length = row.cells.length) :
      RowTaken supply width tokens (.ok (some (row, some row.cells.length)), after)
  | failure {error : ParseError} {after : Cursor} (strikes : supply.Strikes error tokens)
      (border : ∀ token ∈ tokens.head?, token.kind = .pipe) :
      RowTaken supply width tokens (.error error, after)

theorem Shows.row (width : Option Nat) (shows : supply.Shows cursor tokens) :
    supply.RowTaken width tokens (Parse.row width cursor) := by
  have within := shows.within
  have given := shows.takeIf (show TokenKind.pipe ≠ .eof by decide)
  rw [Parse.row, Parse.bind_apply]
  generalize Parse.takeIf .pipe cursor = answer at given
  cases given with
  | @taken pipe more after split opens shown =>
      subst split
      obtain ⟨cells, used, rest, last, run, rfl, further, clear, derived⟩ :=
        shown.cells pipe.location within opens (after.limit + 1) shown.length_le
      simp only
      rw [Parse.bind_apply, Parse.collect_apply, run]
      simp only
      split
      · rename_i fits
        exact .taken (List.cons_append ..).symm further clear
          (fun others => .intro opens (derived others)) fits
      · refine .failure (.grammar _ rfl) ?_
        rintro first ⟨⟩
        exact opens
  | declined split other shown =>
      subst split
      refine .declined shown ?_
      rintro first ⟨⟩
      exact other
  | failure none failed =>
      subst none
      exact .failure (.lex failed) (by simp)

def Spells (width : Option Nat) (used : List Token) (rows : List TableRow) : Prop :=
  Transcript.Even width rows ∧ ∀ rest, Many DerivesRow (used ++ rest) rows rest

theorem spells_nil (width : Option Nat) : Spells width [] [] :=
  ⟨⟨width.getD 0, by rintro given ⟨⟩; rfl, by simp⟩, fun _ => .nil⟩

theorem spells_cons {width : Option Nat} {row : TableRow} {rows : List TableRow}
    {used others : List Token} (derived : ∀ rest, DerivesRow (used ++ rest) row rest)
    (fits : width.getD row.cells.length = row.cells.length)
    (spelled : Spells (some row.cells.length) others rows) :
    Spells width (used ++ others) (row :: rows) := by
  refine ⟨Transcript.even_cons.mpr ⟨fits, spelled.1⟩, fun rest => ?_⟩
  rw [List.append_assoc]
  exact .cons (derived _) (spelled.2 rest)

inductive Rowed (supply : Supply) (width : Option Nat) (tokens : List Token) :
    Except ParseError (List TableRow) × Cursor → Prop where
  | success {rows : List TableRow} {used rest : List Token} {after : Cursor}
      (split : tokens = used ++ rest) (shows : supply.Shows after rest) (clear : Clear rest)
      (spelled : Spells width used rows) : Rowed supply width tokens (.ok rows, after)
  | failure {error : ParseError} {rows : List TableRow} {used rest : List Token} {after : Cursor}
      (split : tokens = used ++ rest) (spelled : Spells width used rows)
      (strikes : supply.Strikes error rest) (border : ∀ token ∈ rest.head?, token.kind = .pipe) :
      Rowed supply width tokens (.error error, after)

theorem Shows.rows (width : Option Nat) (shows : supply.Shows cursor tokens) (clear : Clear tokens)
    (fuel : Nat) : supply.Rowed width tokens (Parse.collectFrom Parse.row fuel width cursor) := by
  induction fuel generalizing cursor tokens width with
  | zero => exact .success rfl shows clear (spells_nil width)
  | succ fuel ih =>
      have given := shows.row width
      rw [Parse.collectFrom_succ]
      generalize Parse.row width cursor = answer at given
      cases given with
      | declined shown => exact .success rfl shown clear (spells_nil width)
      | @taken row used rest after split shown fresh derived fits =>
          subst split
          have others := ih (some row.cells.length) shown fresh
          simp only [Parse.bind_apply]
          generalize Parse.collectFrom Parse.row fuel _ after = answer at others
          cases others with
          | success split further final spelled =>
              subst split
              exact .success (List.append_assoc ..).symm further final (spells_cons derived fits spelled)
          | failure split spelled strikes border =>
              subst split
              exact .failure (List.append_assoc ..).symm (spells_cons derived fits spelled) strikes border
      | failure strikes border => exact .failure rfl (spells_nil width) strikes border

inductive Filled (supply : Supply) (tokens : List Token) :
    Except ParseError DataTable × Cursor → Prop where
  | success {table : DataTable} {used rest : List Token} {after : Cursor}
      (split : tokens = used ++ rest) (shows : supply.Shows after rest) (clear : Clear rest)
      (derived : ∀ others, DerivesTable (used ++ others) table others) :
      Filled supply tokens (.ok table, after)
  | outset {error : ParseError} {after : Cursor} (strikes : supply.Strikes error tokens) :
      Filled supply tokens (.error error, after)
  | failure {error : ParseError} {table : DataTable} {used rest : List Token} {after : Cursor}
      (split : tokens = used ++ rest) (derived : ∀ others, DerivesTable (used ++ others) table others)
      (strikes : supply.Strikes error rest) (border : ∀ token ∈ rest.head?, token.kind = .pipe) :
      Filled supply tokens (.error error, after)

theorem Spells.table {row : TableRow} {rows : List TableRow} {used : List Token}
    (spelled : Spells none used (row :: rows)) (rest : List Token) :
    DerivesTable (used ++ rest) ⟨row :: rows, row.location⟩ rest :=
  Transcript.derivesTable_of_rows (spelled.2 rest) spelled.1

theorem Spells.eq_nil {width : Option Nat} {used : List Token} (spelled : Spells width used []) :
    used = [] := by
  have none := spelled.2 []
  rw [List.append_nil] at none
  cases none
  rfl

theorem Shows.table {pipe : Token} (shows : supply.Shows cursor (pipe :: tokens))
    (opens : pipe.kind = .pipe) : supply.Filled (pipe :: tokens) (Parse.table cursor) := by
  have clear : Clear (pipe :: tokens) := by
    rintro first ⟨⟩
    simp [opens]
  have given := shows.rows none clear (cursor.limit + 1)
  rw [Parse.table, Parse.bind_apply, Parse.collect_apply]
  generalize run : Parse.collectFrom Parse.row _ none cursor = answer at given
  cases given with
  | @success rows used rest after split shown fresh spelled =>
      cases rows with
      | nil =>
          -- The border begins a row.
          have row := shows.row none
          rw [Parse.declined_of_collectFrom_nil run] at row
          cases row with
          | declined _ stops => exact absurd opens (stops pipe rfl)
      | cons row rows => exact .success split shown fresh spelled.table
  | @failure error rows used rest after split spelled strikes border =>
      cases rows with
      | nil =>
          obtain rfl := spelled.eq_nil
          exact .outset (split ▸ strikes)
      | cons row rows => exact .failure split spelled.table strikes border

end Tables

section Arguments

variable {α : Type} {supply : Supply} {taken viable : Language Token}

/-- After a look the next token is known. -/
theorem verdict_peek {next : Token → Parse α} (begins : [] ∈ viable)
    (tail : ∀ cursor token rest, supply.Shows cursor (token :: rest) → Clear (token :: rest) →
      supply.Outcome (token :: rest) taken viable (next token cursor)) :
    supply.Verdict (Parse.peek >>= next) taken viable := by
  intro cursor tokens shows clear
  have looked := shows.peek
  rw [Parse.bind_apply]
  generalize Parse.peek cursor = answer at looked
  cases looked with
  | @token token rest more after split shown ahead =>
      subst split
      exact tail after token rest shown clear
  | failure none failed =>
      subst none
      exact .fault (fault_of_lex failed begins)

theorem obeys_docStringLine (block : Block) (indent : Nat) :
    supply.Obeys (Parse.docStringLine block indent) (1 + single .docStringLine) := by
  refine verdict_peek (le_begun (Or.inl rfl)) ?_
  intro cursor token rest shows clear
  rw [Parse.bind_apply, Parse.reader_apply]
  simp only
  split
  · rename_i here
    obtain ⟨after, advanced, further⟩ := shows.advance (by simp [here.1])
    rw [Parse.bind_apply, advanced]
    exact .success rfl further
      (clear_of_within shows.within (by simp [here.1]) (by simp [here.1])) (Or.inr ⟨token, here.1, rfl⟩)
  · exact .success rfl shows clear (Or.inl rfl)

theorem kind_of_mem_star {kind : TokenKind} {word : List Token} (member : word ∈ (single kind)∗) :
    ∀ token ∈ word, token.kind = kind := by
  obtain ⟨parts, rfl, each⟩ := Language.mem_kstar.mp member
  intro token inside
  obtain ⟨part, listed, here⟩ := List.mem_flatten.mp inside
  obtain ⟨only, same, rfl⟩ := each part listed
  rw [List.mem_singleton.mp here]
  exact same

theorem docStringLines_le : (single .docStringLine)∗ ≤ phrases DerivesShownArgument := by
  intro word member
  have verbatim := kind_of_mem_star member
  exact ⟨some (.docString ⟨[], [], 0, ⟨0, 0⟩⟩), fun _ => .docString _ verbatim⟩

theorem obeys_docString (block : Block) :
    supply.Obeys (Parse.docString block) (phrases DerivesShownArgument) :=
  Obeys.mono (obeys_map (obeys_many (obeys_docStringLine block _)) _) docStringLines_le

theorem nil_mem_argument : [] ∈ phrases DerivesShownArgument :=
  ⟨none, fun _ => .absent⟩

theorem obeys_argument (line : Nat) :
    supply.Obeys (Parse.argument line) (phrases DerivesShownArgument) := by
  refine verdict_peek (nil_mem_begun nil_mem_argument) ?_
  intro cursor token rest shows clear
  rw [Parse.bind_apply, Parse.reader_apply]
  simp only
  cases cursor.reader.blockOpenedIn? (line + 1) token.location.line with
  | some block => exact obeys_map (obeys_docString block) _ cursor _ shows clear
  | none =>
      simp only
      split
      · rename_i opens
        have given := shows.table opens
        rw [Parse.bind_apply]
        generalize Parse.table cursor = answer at given
        cases given with
        | success split shown fresh derived =>
            exact .success split shown fresh ⟨_, fun others => .table (derived others)⟩
        | outset strikes =>
            exact .fault ⟨rfl, nil_mem_begun nil_mem_argument, Or.inl rfl, strikes⟩
        | failure split derived strikes =>
            refine .fault ⟨split, le_begun ?_, Or.inl rfl, strikes⟩
            exact ⟨_, fun others => .table (derived others)⟩
      · exact .success rfl shows clear nil_mem_argument

end Arguments

/-! A conjunction needs a step before it, so the phrases that can be completed depend on the role of the last
step. -/

section Steps

variable {supply : Supply}

def stepSeries (dialect : Dialect) (previous : Option StepKeyword) : Language Token :=
  {word | ∀ earlier : List StepKeyword, earlier.find? (fun other => !other.isConjunction) = previous →
    word ∈ phrases ((Grammar.shown dialect).DerivesSteps earlier)}

def stepBeginnings (dialect : Dialect) (previous : Option StepKeyword) : Language Token :=
  {word | ∀ earlier : List StepKeyword, earlier.find? (fun other => !other.isConjunction) = previous →
    word ∈ begun (phrases ((Grammar.shown dialect).DerivesSteps earlier))}

theorem nil_mem_stepSeries (dialect : Dialect) (previous : Option StepKeyword) :
    [] ∈ stepSeries dialect previous :=
  fun earlier _ => nil_mem_steps earlier

theorem nil_mem_stepBeginnings (dialect : Dialect) (previous : Option StepKeyword) :
    [] ∈ stepBeginnings dialect previous :=
  fun earlier _ => nil_mem_begun (nil_mem_steps earlier)

theorem find?_of_resolve {previous : Option StepKeyword} {keyword role : StepKeyword}
    {earlier : List StepKeyword} (resolved : keyword.resolve previous = some role)
    (known : earlier.find? (fun other => !other.isConjunction) = previous) :
    (keyword :: earlier).find? (fun other => !other.isConjunction) = some role := by
  rw [Transcript.find?_role, known, resolved]

def stepRests : Language Token :=
  single .name * phrases DerivesShownArgument

section Taken

variable {dialect : Dialect} {previous : Option StepKeyword} {keyword role : StepKeyword}
  {token : Token} {others : List Token} (opens : token.kind = .step)
  (spelled : dialect.stepKeyword? token.text = some keyword)
  (resolved : keyword.resolve previous = some role)

include opens spelled resolved

/-- A step goes in front of those that see its role. -/
theorem cons_step (rest : others ∈ stepRests) {earlier : List StepKeyword}
    (known : earlier.find? (fun other => !other.isConjunction) = previous) :
    {token :: others} * phrases ((Grammar.shown dialect).DerivesSteps (keyword :: earlier)) ≤
      phrases ((Grammar.shown dialect).DerivesSteps earlier) := by
  have plays := find?_of_resolve resolved known
  intro word member
  obtain ⟨_, rfl, later, listed, rfl⟩ := Language.mem_mul.mp member
  obtain ⟨name, named, own, takes, rfl⟩ := Language.mem_mul.mp rest
  apply steps_le opens spelled plays
  refine Language.mem_mul.mpr ⟨[token], rfl, name ++ (own ++ later), ?_, by simp⟩
  exact Language.append_mem_mul named (Language.append_mem_mul takes listed)

theorem mul_stepSeries_le (rest : others ∈ stepRests) :
    {token :: others} * stepSeries dialect (some role) ≤ stepSeries dialect previous := by
  intro word member earlier known
  have plays := find?_of_resolve resolved known
  obtain ⟨first, here, later, listed, rfl⟩ := Language.mem_mul.mp member
  exact cons_step opens spelled resolved rest known (Language.append_mem_mul here (listed _ plays))

theorem mul_stepBeginnings_le (rest : others ∈ stepRests) :
    {token :: others} * stepBeginnings dialect (some role) ≤ stepBeginnings dialect previous := by
  intro word member earlier known
  have plays := find?_of_resolve resolved known
  obtain ⟨first, here, later, listed, rfl⟩ := Language.mem_mul.mp member
  apply begun_mono (cons_step opens spelled resolved rest known)
  exact mul_begun_le (Language.append_mem_mul here (listed _ plays))

theorem mem_stepBeginnings (rest : others ∈ begun stepRests) :
    token :: others ∈ stepBeginnings dialect previous := by
  intro earlier known
  obtain ⟨more, whole⟩ := rest
  refine ⟨more, cons_step opens spelled resolved whole known ?_⟩
  refine Language.mem_mul.mpr ⟨_, rfl, [], nil_mem_steps _, by simp⟩

end Taken

theorem item_step (previous : Option StepKeyword) {cursor : Cursor} {tokens : List Token}
    (shows : supply.Shows cursor tokens) (clear : Clear tokens) :
    supply.Item tokens (stepSeries supply.dialect) (stepBeginnings supply.dialect) previous
      (Parse.step previous cursor) := by
  have within := shows.within
  have given := shows.takeIf (show TokenKind.step ≠ .eof by decide)
  rw [Parse.step, Parse.bind_apply]
  generalize Parse.takeIf .step cursor = answer at given
  cases given with
  | @taken token rest after split opens shown =>
      subst split
      simp only
      rw [Parse.bind_apply, Parse.reader_apply]
      simp only [shown.dialect]
      cases resolved : (supply.dialect.stepKeyword? token.text).bind (·.resolve previous) with
      | none => exact .fault (fault_of_token (nil_mem_stepBeginnings _ _) rfl)
      | some role =>
          obtain ⟨keyword, spelled, resolved⟩ := Option.bind_eq_some_iff.mp resolved
          have fresh := clear_of_within within (by simp [opens]) (by simp [opens])
          -- Behind the keyword a step is a sequence of parsers that obey their languages. The parser is put
          -- in that shape, so that the fault of the part is the fault of the step.
          have behind : supply.Obeys (Parse.expect .name "a step name" >>= fun name =>
              Parse.argument token.location.line >>= fun argument =>
                pure (⟨token.text, role, name.text, argument, token.location⟩ : Step)) stepRests :=
            obeys_bind (obeys_expect (by decide) (by decide) (by decide) _)
              (fun name => obeys_map (obeys_argument _) _) nil_mem_argument
          have given := behind after rest shown fresh
          have shape : (Parse.expect .name "a step name" >>= fun name =>
              Parse.argument token.location.line >>= fun argument =>
                pure (some ((⟨token.text, role, name.text, argument, token.location⟩ : Step),
                  some role))) =
              ((Parse.expect .name "a step name" >>= fun name =>
                Parse.argument token.location.line >>= fun argument =>
                  pure (⟨token.text, role, name.text, argument, token.location⟩ : Step)) >>=
                fun step => pure (some (step, some role))) := by
            simp only [bind_assoc, pure_bind]
          simp only [shape]
          rw [Parse.bind_apply]
          generalize (Parse.expect .name "a step name" >>= _) after = answer at given
          cases given with
          | success split further final member =>
              subst split
              exact .next (List.cons_append ..).symm further final
                (mul_stepSeries_le opens spelled resolved member)
                (mul_stepBeginnings_le opens spelled resolved member)
          | @fault error last used spoilt left given =>
              refine .fault ⟨?_, mem_stepBeginnings opens spelled resolved given.begun,
                given.spoils.append [token], given.strikes⟩
              rw [given.split, List.cons_append]
  | declined split other shown =>
      exact .last (List.nil_append tokens).symm shown clear (nil_mem_stepSeries _ _)
  | failure none failed =>
      subst none
      exact .fault (fault_of_lex failed (nil_mem_stepBeginnings _ _))

theorem obeys_steps :
    supply.Obeys Parse.steps (phrases ((Grammar.shown supply.dialect).DerivesSteps [])) := by
  intro cursor tokens shows clear
  rw [Parse.steps, Parse.collect_apply]
  have given := verdict_collectFrom (stepSeries supply.dialect) (stepBeginnings supply.dialect)
    (nil_mem_stepSeries _) (fun previous _ _ => item_step previous) (cursor.limit + 1) none
  exact given.mono (fun _ member => member [] rfl) (fun _ member => member [] rfl) cursor tokens
    shows clear

end Steps

section Examples

variable {supply : Supply} {cursor : Cursor} {tokens : List Token}

inductive Columned (supply : Supply) (tokens : List Token) :
    Except ParseError DataTable × Cursor → Prop where
  | regular {answer : Except ParseError DataTable × Cursor}
      (given : supply.Outcome tokens distinctTables (begun distinctTables) answer) :
      Columned supply tokens answer
  | spoilt {error : ParseError} {table : DataTable} {header : TableRow} {spoilt rest : List Token}
      {after : Cursor} (split : tokens = spoilt ++ rest) (doubled : SpeltDoubled spoilt table header)
      (strikes : supply.Strikes error rest) (border : ∀ token ∈ rest.head?, token.kind = .pipe) :
      Columned supply tokens (.error error, after)

/-- The least table has one row without cells. -/
theorem exists_mem_distinctTables : ∃ word, word ∈ distinctTables := by
  refine ⟨[⟨.pipe, [], ⟨0, 0⟩⟩, ⟨.eol, [], ⟨0, 0⟩⟩], ⟨[⟨[], ⟨0, 0⟩⟩], ⟨0, 0⟩⟩, fun rest => ⟨?_, ?_⟩⟩
  · exact .intro (.cons (.intro rfl (.ending rfl)) .nil) (by simp)
  · rintro header ⟨⟩
    exact List.nodup_nil

theorem exists_header {table : DataTable} {rest : List Token}
    (derived : DerivesTable tokens table rest) : ∃ header, table.rows.head? = some header := by
  cases derived
  exact ⟨_, rfl⟩

/-- A doubled column stands on the line of the header, and so on that of the first border. -/
theorem line_of_repeated {table : DataTable} {rest : List Token} {header : TableRow}
    {cell : TableCell} {pipe : Token} (within : pipe :: tokens <:+ supply.tokens)
    (derived : DerivesTable (pipe :: tokens) table rest) (first : table.rows.head? = some header)
    (listed : cell ∈ header.cells) : cell.location.line = pipe.location.line := by
  cases derived with
  | intro filled _ =>
      cases filled with
      | cons row _ =>
          cases first
          cases row with
          | intro opens cells => exact cells.sameLine opens rfl (supply.chain.suffix within) cell listed

theorem mem_of_repeatedAfter? {seen : List Text} {cells : List TableCell} {cell : TableCell}
    (found : TableRow.repeatedAfter? seen cells = some cell) : cell ∈ cells := by
  induction cells generalizing seen with
  | nil => cases found
  | cons first others ih =>
      rw [TableRow.repeatedAfter?] at found
      split at found
      · cases found
        exact List.mem_cons_self
      · exact List.mem_cons_of_mem _ (ih found)

theorem Shows.examplesTable (shows : supply.Shows cursor tokens) :
    supply.Columned tokens (Parse.examplesTable cursor) := by
  obtain ⟨word, inhabited⟩ := exists_mem_distinctTables
  have looked := shows.peek
  rw [Parse.examplesTable, Parse.bind_apply]
  generalize Parse.peek cursor = answer at looked
  cases looked with
  | failure none failed =>
      subst none
      exact .regular (.fault (fault_of_lex failed (nil_mem_begun inhabited)))
  | @token pipe rest more after split shown ahead =>
      subst split
      have within := shown.within
      simp only
      split
      · rename_i opens
        have given := shown.table opens
        rw [Parse.bind_apply]
        generalize Parse.table after = answer at given
        cases given with
        | @success table used left last split further fresh derived =>
            have here := derived left
            rw [← split] at here
            obtain ⟨header, first⟩ := exists_header here
            simp only [first, Option.bind_some]
            cases repeated : header.repeated? with
            | none =>
                refine .regular (.success split further fresh ⟨table, fun others => ⟨derived others, ?_⟩⟩)
                intro other known
                rw [Option.mem_def, first] at known
                cases known
                exact (Transcript.repeated?_eq_none header).mp repeated
            -- A table with a column twice is refused at its header.
            | some cell =>
                have line := line_of_repeated within here first (mem_of_repeatedAfter? repeated)
                exact .regular (.fault (fault_of_token (nil_mem_begun inhabited) line))
        | outset strikes =>
            exact .regular (.fault ⟨rfl, nil_mem_begun inhabited, Or.inl rfl, strikes⟩)
        | @failure error table used left last split derived strikes border =>
            obtain ⟨header, first⟩ := exists_header (derived [])
            -- A row has the wrong width, and the header is not checked any more. So the table may name a
            -- column twice.
            by_cases distinct : header.values.Nodup
            · refine .regular (.fault ⟨split, le_begun ⟨table, fun others => ⟨derived others, ?_⟩⟩,
                Or.inl rfl, strikes⟩)
              intro other known
              rw [Option.mem_def, first] at known
              cases known
              exact distinct
            · exact .spoilt split ⟨derived, first, distinct⟩ strikes border
      · exact .regular (.fault (fault_of_token (nil_mem_begun inhabited) rfl))

/-- The heading stands right before the table, so it shows what the table is for. -/
theorem obeys_examplesTable {α : Type} (function : Heading → DataTable → α) :
    supply.Obeys (Parse.heading .examples Parse.optionalName >>= fun heading =>
      Parse.examplesTable >>= fun table => pure (function heading table))
      (phrases (DerivesHeading .examples DerivesOptionalName) * distinctTables) := by
  obtain ⟨word, inhabited⟩ := exists_mem_distinctTables
  intro cursor tokens shows clear
  have given := obeys_heading .examples obeys_optionalName nil_mem_optionalName cursor tokens shows clear
  rw [Parse.bind_apply]
  generalize Parse.heading .examples Parse.optionalName cursor = answer at given
  cases given with
  | @success heading after used rest split shown fresh member =>
      subst split
      have given := shown.examplesTable
      simp only [Parse.bind_apply]
      generalize Parse.examplesTable after = answer at given
      cases given with
      | regular given =>
          refine Outcome.behind ?_ member le_rfl mul_begun_le
          cases given with
          | success split further final member => exact .success split further final member
          | fault given => exact .fault given
      | @spoilt error table header spoilt left last split doubled strikes border =>
          obtain ⟨value, headed⟩ := member
          refine .fault ⟨by rw [split], begun_le_mul inhabited (le_begun ⟨value, headed⟩), ?_, strikes⟩
          exact Or.inr ⟨used, value, table, header, List.suffix_refl _, headed, doubled, border⟩
  | fault given =>
      exact .fault ⟨given.split, begun_le_mul inhabited given.begun, given.spoils, given.strikes⟩

end Examples

section Blocks

variable {α : Type} {supply : Supply} {next : TokenKind → Parse α}
  {taken viable : Language Token}

/-- The decision about a block is made past its tags. -/
theorem verdict_afterTags (begins : phrases DerivesTags ≤ viable)
    (tail : ∀ kind, supply.Verdict (next kind) taken viable) :
    supply.Verdict (Parse.kindAfterTags >>= next) taken viable :=
  verdict_bind verdict_kindAfterTags tail (one_mul taken).le begins (one_mul viable).le

theorem tags_le_begun {others whole : Language Token} {word : List Token}
    (le : phrases DerivesTags * others ≤ whole) (inhabited : word ∈ others) :
    phrases DerivesTags ≤ begun whole :=
  le_begun.trans ((begun_le_mul inhabited).trans (begun_mono le))

theorem tags_le_bodies {dialect : Dialect} : phrases DerivesTags ≤ begun (bodies dialect) := by
  have listed : phrases (Grammar.shown dialect).DerivesDefinition ≤
      (phrases (Grammar.shown dialect).DerivesDefinition)∗ := le_kstar
  have whole : phrases (Grammar.shown dialect).DerivesDefinition ≤ bodies dialect :=
    fun _ member => Language.append_mem_mul nil_mem_maybe (listed member)
  exact tags_le_definition.trans (begun_mono whole)

theorem obeys_optionalHeading (keyword : BlockKeyword) :
    supply.Obeys (Parse.heading keyword Parse.optionalName)
      (phrases (DerivesHeading keyword DerivesOptionalName)) :=
  obeys_heading keyword obeys_optionalName nil_mem_optionalName

theorem verdict_background : supply.Verdict Parse.background
    (phrases (Maybe (Grammar.shown supply.dialect).DerivesBackground))
    (begun (bodies supply.dialect)) := by
  refine verdict_afterTags tags_le_bodies fun kind => ?_
  split
  · refine verdict_peek (nil_mem_begun nil_mem_bodies) fun cursor token rest shows clear => ?_
    split
    · exact .fault (fault_of_token (nil_mem_begun nil_mem_bodies) rfl)
    · have given : supply.Obeys (Parse.heading .background Parse.optionalName >>= fun heading =>
          Parse.steps >>= fun steps => pure (some ({ toHeading := heading, steps } : Background)))
          (phrases (Maybe (Grammar.shown supply.dialect).DerivesBackground)) :=
        (obeys_bind (obeys_optionalHeading .background) (fun heading => obeys_map obeys_steps _)
          (nil_mem_steps [])).mono (background_le.trans le_maybe)
      exact Verdict.mono given le_rfl (begun_le_mul nil_mem_star) cursor _ shows clear
  · refine Verdict.mono (obeys_pure none) ?_ (begun_mono ?_)
    · rintro _ rfl
      exact nil_mem_maybe
    · rintro _ rfl
      exact nil_mem_bodies

theorem obeys_scenario (keyword : BlockKeyword) : supply.Obeys (Parse.scenario keyword)
    (phrases ((Grammar.shown supply.dialect).DerivesScenario keyword)) := by
  have empty : [] ∈ phrases ((Grammar.shown supply.dialect).DerivesSteps []) := nil_mem_steps []
  have filled := Language.append_mem_mul (mem_heading keyword) empty
  refine Obeys.mono (obeys_bind obeys_tags (fun tags => ?_) filled) (scenario_le keyword)
  exact obeys_bind (obeys_optionalHeading keyword) (fun heading => obeys_map obeys_steps _)
    (nil_mem_steps [])

theorem obeys_examples : supply.Obeys Parse.examples (1 + phrases Grammar.DerivesExamples) := by
  obtain ⟨word, inhabited⟩ := exists_mem_distinctTables
  have filled := Language.append_mem_mul (mem_heading .examples) inhabited
  refine verdict_afterTags ((tags_le_begun examples_le filled).trans (begun_mono le_sup_right))
    fun kind => ?_
  split
  · refine Obeys.mono (obeys_bind obeys_tags (fun tags => ?_) filled) (examples_le.trans le_sup_right)
    exact obeys_examplesTable _
  · exact Obeys.mono (obeys_pure none) le_sup_left

theorem obeys_definition : supply.Obeys Parse.definition
    (1 + phrases (Grammar.shown supply.dialect).DerivesDefinition) := by
  refine verdict_afterTags (tags_le_definition.trans (begun_mono le_sup_right)) fun kind => ?_
  split
  · exact Obeys.mono (obeys_map (obeys_scenario .scenario) _)
      (scenario_le_definition.trans le_sup_right)
  · refine Obeys.mono (obeys_bind (obeys_scenario .scenarioOutline) (fun scenario => ?_) nil_mem_star)
      (outline_le_definition.trans le_sup_right)
    exact obeys_map (obeys_many obeys_examples) _
  · exact Obeys.mono (obeys_pure none) le_sup_left

theorem obeys_body {function : Option Background → List Definition → α} :
    supply.Obeys (Parse.background >>= fun background => Parse.many Parse.definition >>= fun children =>
      pure (function background children)) (bodies supply.dialect) :=
  verdict_bind verdict_background (fun _ => obeys_map (obeys_many obeys_definition) _) le_rfl
    le_rfl mul_begun_le

theorem obeys_rule : supply.Obeys Parse.rule
    (1 + phrases (Grammar.shown supply.dialect).DerivesRule) := by
  have empty : [] ∈ bodies supply.dialect := nil_mem_bodies
  have filled := Language.append_mem_mul (mem_heading .rule) empty
  refine verdict_afterTags ((tags_le_begun rule_le filled).trans (begun_mono le_sup_right))
    fun kind => ?_
  split
  · refine Obeys.mono (obeys_bind obeys_tags (fun tags => ?_) filled) (rule_le.trans le_sup_right)
    exact obeys_bind (obeys_optionalHeading .rule) (fun heading => obeys_body) nil_mem_bodies
  · exact Obeys.mono (obeys_pure none) le_sup_left

end Blocks

section Documents

variable {α β : Type} {supply : Supply} {first : Parse α} {next : α → Parse β}
  {taken viable others whole : Language Token}

/-- What has become of all tokens. Behind the end of a document a cursor shows nothing. -/
inductive Judged {α : Type} (supply : Supply) (tokens : List Token) (taken viable : Language Token) :
    Except ParseError α × Cursor → Prop where
  | success {value : α} {after : Cursor} {used rest : List Token} (split : tokens = used ++ rest)
      (member : used ∈ taken) : Judged supply tokens taken viable (.ok value, after)
  | fault {error : ParseError} {after : Cursor} {used spoilt rest : List Token}
      (fault : supply.Fault tokens viable error used spoilt rest) :
      Judged supply tokens taken viable (.error error, after)

def Judges (supply : Supply) (parser : Parse α) (language : Language Token) : Prop :=
  ∀ cursor tokens, supply.Shows cursor tokens → Clear tokens →
    supply.Judged tokens language (begun language) (parser cursor)

theorem judges_bind (head : supply.Verdict first taken viable)
    (tail : ∀ value, supply.Judges (next value) others) (le : taken * others ≤ whole)
    (early : viable ≤ begun whole) : supply.Judges (first >>= next) whole := by
  intro cursor tokens shows clear
  have given := head cursor tokens shows clear
  rw [Parse.bind_apply]
  generalize first cursor = answer at given
  cases given with
  | @success value middle used rest split shown fresh member =>
      subst split
      have behind := tail value middle rest shown fresh
      simp only
      generalize next value middle = answer at behind
      cases behind with
      | success split further =>
          subst split
          exact .success (List.append_assoc ..).symm (le (Language.append_mem_mul member further))
      | fault given =>
          refine .fault ⟨?_, ?_, given.spoils.append used, given.strikes⟩
          · rw [given.split, List.append_assoc]
          · exact begun_mono le (mul_begun_le (Language.append_mem_mul member given.begun))
  | fault given => exact .fault ⟨given.split, early given.begun, given.spoils, given.strikes⟩

/-- Only the end of the document is left. -/
theorem judges_end {expected : String} (function : Reader → β) :
    supply.Judges (Parse.expect .eof expected >>= fun _ => Parse.reader >>= fun reader =>
      pure (function reader)) (single .eof) := by
  intro cursor tokens shows clear
  have given := shows.expect .eof expected
  rw [Parse.bind_apply]
  generalize Parse.expect .eof expected cursor = answer at given
  cases given with
  | @met token rest after split same =>
      subst split
      exact .success (List.singleton_append).symm ⟨token, same, rfl⟩
  | missed split other =>
      subst split
      exact .fault (fault_of_token (nil_mem_begun (mem_single .eof)) rfl)
  | failure none failed =>
      subst none
      exact .fault (fault_of_lex failed (nil_mem_begun (mem_single .eof)))

/-- A document that is accepted is one in tokens. Before an error there is what starts one, but for a
table with a doubled column. -/
theorem judges_feature : supply.Judges Parse.feature (documents supply.dialect) := by
  have ends := mem_single .eof
  have ruled : _ ∈ (phrases (Grammar.shown supply.dialect).DerivesRule)∗ * single .eof :=
    Language.append_mem_mul nil_mem_star ends
  have filled : _ ∈ bodies supply.dialect *
      ((phrases (Grammar.shown supply.dialect).DerivesRule)∗ * single .eof) :=
    Language.append_mem_mul nil_mem_bodies ruled
  have named := single_le_name (mem_single .name)
  obtain ⟨word, headed⟩ := exists_featureHeading
  refine judges_bind obeys_tags (fun tags => ?_) document_le
    ((begun_le_mul (Language.append_mem_mul headed filled)).trans (begun_mono document_le))
  refine judges_bind (obeys_heading .feature obeys_featureName named) (fun heading => ?_) le_rfl
    (begun_le_mul filled)
  refine judges_bind verdict_background (fun background => ?_) (mul_assoc _ _ _).ge (begun_le_mul ruled)
  refine judges_bind (obeys_many obeys_definition) (fun children => ?_) le_rfl (begun_le_mul ruled)
  exact judges_bind (obeys_many obeys_rule) (fun rules => judges_end _) le_rfl (begun_le_mul ends)

end Documents

end Supply

end Gherkin
