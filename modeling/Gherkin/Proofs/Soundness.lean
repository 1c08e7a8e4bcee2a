import Gherkin.Proofs.Transcript

/-!
What is accepted is derived.

On the tokens of a document, a parser that succeeds has taken what its production derives. The
proofs follow the parsers. Repetitions go by their fuel, but where a repetition must have ended by
itself, as at the end of a tag line or a row, by the items it took.
-/

namespace Gherkin

namespace Transcript

variable {α β : Type} (script : Transcript)

/-- Where the parser succeeds, the production derives what it has taken. -/
def Sound (parser : Parse α) (production : Production α) : Prop :=
  ∀ tokens value after, script.Remains tokens →
    parser (script.cursor tokens) = (.ok value, after) →
      ∃ rest, after = script.cursor rest ∧ script.Remains rest ∧ production tokens value rest

variable {script} {tokens : List Token} {after : Cursor}

theorem takeIf_ok {kind : TokenKind} {found : Option Token} (remains : script.Remains tokens)
    (run : Parse.takeIf kind (script.cursor tokens) = (.ok found, after)) (proper : kind ≠ .eof) :
    (found = none ∧ after = script.cursor tokens ∧ ∀ token ∈ tokens.head?, token.kind ≠ kind) ∨
      ∃ token rest, tokens = token :: rest ∧ token.kind = kind ∧ found = some token ∧
        after = script.cursor rest ∧ script.Remains rest := by
  obtain ⟨token, rest, rfl⟩ := remains.exists_cons
  rw [takeIf_cursor] at run
  split at run
  · rename_i same
    cases run
    exact Or.inr ⟨token, rest, rfl, same, rfl, rfl, remains.tail (same ▸ proper)⟩
  · rename_i other
    cases run
    refine Or.inl ⟨rfl, rfl, ?_⟩
    rintro token ⟨⟩
    exact other

theorem expect_ok {kind : TokenKind} {expected : String} {token : Token}
    (remains : script.Remains tokens)
    (run : Parse.expect kind expected (script.cursor tokens) = (.ok token, after)) :
    ∃ rest, tokens = token :: rest ∧ token.kind = kind ∧ after = script.cursor rest := by
  obtain ⟨first, rest, rfl⟩ := remains.exists_cons
  rw [expect_cursor] at run
  split at run
  · rename_i same
    cases run
    exact ⟨rest, rfl, same, rfl⟩
  · cases run

theorem kindAfterTags_ok {kind : TokenKind} (remains : script.Remains tokens)
    (run : Parse.kindAfterTags (script.cursor tokens) = (.ok kind, after)) :
    after = script.cursor tokens := by
  obtain ⟨token, found⟩ := remains.exists_after_tags
  rw [kindAfterTags_cursor script found] at run
  cases run
  rfl

/-! A repetition is sound if its item is: each value that is found extends the series of those behind it. -/

/-- A repetition derives a series if every item extends the series of those behind it. -/
theorem sound_collectFrom {item : β → Parse (Option (α × β))} (series : β → Production (List α))
    (empty : ∀ state tokens, series state tokens [] tokens)
    (once : ∀ state, script.Sound (item state) fun tokens found middle =>
      (found = none → middle = tokens) ∧ ∀ value next, found = some (value, next) →
        ∀ values rest, series next middle values rest → series state tokens (value :: values) rest)
    (fuel : Nat) (state : β) :
    script.Sound (Parse.collectFrom item fuel state) (series state) := by
  induction fuel generalizing state with
  | zero =>
      rintro tokens values after remains ⟨⟩
      exact ⟨tokens, rfl, remains, empty state tokens⟩
  | succ fuel ih =>
      intro tokens values after remains run
      obtain ⟨found, middle, here, run⟩ := (Parse.bind_eq_ok _ _ _ _ _).mp run
      obtain ⟨left, rfl, further, declines, extended⟩ := once state tokens found middle remains here
      cases found with
      | none =>
          obtain ⟨rfl, rfl⟩ := (Parse.pure_eq_ok _ _ _ _).mp run
          rw [declines rfl] at further ⊢
          exact ⟨tokens, rfl, further, empty state tokens⟩
      | some pair =>
          obtain ⟨others, last, there, ended⟩ := (Parse.bind_eq_ok _ _ _ _ _).mp run
          obtain ⟨rfl, rfl⟩ := (Parse.pure_eq_ok _ _ _ _).mp ended
          obtain ⟨rest, same, final, derived⟩ := ih pair.2 left others last further there
          exact ⟨rest, same, final, extended pair.1 pair.2 rfl others rest derived⟩

theorem sound_many {item : Parse (Option α)} {production : Production α}
    (once : script.Sound item (Maybe production)) :
    script.Sound (Parse.many item) (Many production) := by
  intro tokens values after remains run
  rw [Parse.many_apply] at run
  refine sound_collectFrom (fun _ => Many production) (fun _ _ => Many.nil) ?_ _ _ tokens
    values after remains run
  intro state tokens found after remains run
  obtain ⟨rest, same, further, derived⟩ := once tokens _ after remains
    ((Parse.stateless_eq_ok _ _ _ _ _).mp run)
  refine ⟨rest, same, further, ?_, ?_⟩
  · rintro rfl
    cases derived
    rfl
  · rintro value next rfl values last others
    cases derived with
    | present here => exact .cons here others

/-- Where every item takes a token, there is fuel for all of them. -/
theorem repeats_of_collect {item : β → Parse (Option (α × β))} {state : β} {values : List α}
    (takes : ∀ state tokens value next after, script.Remains tokens →
      item state (script.cursor tokens) = (.ok (some (value, next)), after) →
        ∃ rest, after = script.cursor rest ∧ script.Remains rest ∧ rest.length < tokens.length)
    (remains : script.Remains tokens)
    (run : Parse.collectFrom item (script.limit + 1) state (script.cursor tokens) =
      (.ok values, after)) :
    Parse.Repeats item state (script.cursor tokens) values after := by
  refine Parse.repeats_of_collectFrom
    (fun cursor => ∃ tokens, cursor = script.cursor tokens ∧ script.Remains tokens)
    ?_ ?_ _ state _ after values ⟨tokens, rfl, remains⟩ remains.length_le run
  · rintro cursor ⟨tokens, rfl, remains⟩
    exact remains.nonempty
  · rintro state cursor value next after ⟨tokens, rfl, remains⟩ taken
    obtain ⟨rest, rfl, further, shorter⟩ := takes state tokens value next after remains taken
    exact ⟨⟨rest, rfl, further⟩, shorter⟩

/-- A tag is followed by the end of its line, which is taken too, or by another tag. -/
theorem tag_ok {found : Option Tag} (remains : script.Remains tokens)
    (run : Parse.tag (script.cursor tokens) = (.ok found, after)) :
    (found = none ∧ after = script.cursor tokens ∧ ∀ token ∈ tokens.head?, token.kind ≠ .tag) ∨
      ∃ token next rest, tokens = token :: next :: rest ∧ token.kind = .tag ∧
        found = some ⟨token.text, token.location⟩ ∧
        (next.kind = .eol ∧ after = script.cursor rest ∧ script.Remains rest ∨
          next.kind = .tag ∧ after = script.cursor (next :: rest) ∧
            script.Remains (next :: rest)) := by
  obtain ⟨taken, middle, here, run⟩ := (Parse.bind_eq_ok _ _ _ _ _).mp run
  obtain ⟨rfl, rfl, other⟩ | ⟨token, rest, rfl, kind, rfl, rfl, further⟩ :=
    takeIf_ok remains here (by decide)
  · obtain ⟨rfl, rfl⟩ := (Parse.pure_eq_ok _ _ _ _).mp run
    exact Or.inl ⟨rfl, rfl, other⟩
  · obtain ⟨ended, last, there, run⟩ := (Parse.bind_eq_ok _ _ _ _ _).mp run
    obtain ⟨rfl, rfl⟩ := (Parse.pure_eq_ok _ _ _ _).mp run
    obtain ⟨next, rest, rfl⟩ := further.exists_cons
    refine Or.inr ⟨token, next, rest, rfl, kind, rfl, ?_⟩
    obtain ⟨rfl, rfl, other⟩ | ⟨eol, more, same, ends, rfl, rfl, left⟩ :=
      takeIf_ok further there (by decide)
    · have precedes := (remains.precedes (.inl (by rw [kind]; rfl))).2
      have tagged : next.kind = .tag := by
        have unfinished := other next rfl
        rw [kind] at precedes
        cases same : next.kind <;> simp_all [TokenKind.precedes]
      exact Or.inr ⟨tagged, rfl, further⟩
    · cases same
      exact Or.inl ⟨ends, rfl, left⟩

theorem derivesTags_of_repeats {cursor : Cursor} {state : Unit} {tags : List Tag}
    (repeats : Parse.Repeats (stateless Parse.tag) state cursor tags after)
    (remains : script.Remains tokens) (start : cursor = script.cursor tokens) :
    ∃ lines rest, after = script.cursor rest ∧ script.Remains rest ∧
      Many DerivesTagLine tokens lines rest ∧ tags = lines.flatten ∧
      ∀ token ∈ rest.head?, token.kind ≠ .tag := by
  induction repeats generalizing tokens with
  | stop declined =>
      subst start
      obtain ⟨_, rfl, other⟩ | ⟨token, next, rest, _, _, absurd, _⟩ :=
        tag_ok remains ((Parse.stateless_eq_ok _ _ _ _ _).mp declined)
      · exact ⟨[], tokens, rfl, remains, .nil, rfl, other⟩
      · cases absurd
  | next taken _ ih =>
      subst start
      obtain ⟨absurd, _⟩ | ⟨token, next, rest, rfl, kind, found, further⟩ :=
        tag_ok remains ((Parse.stateless_eq_ok _ _ _ _ _).mp taken)
      · cases absurd
      · cases found
        rcases further with ⟨ends, rfl, further⟩ | ⟨tagged, rfl, further⟩
        · obtain ⟨lines, last, same, left, derived, rfl, other⟩ := ih further rfl
          exact ⟨[_] :: lines, last, same, left, .cons (.last kind ends) derived, rfl, other⟩
        · -- The line goes on, so it is the first line of what the tags behind derive.
          obtain ⟨lines, last, same, left, derived, rfl, other⟩ := ih further rfl
          cases derived with
          | nil => exact absurd tagged (other next rfl)
          | cons line lines => exact ⟨_, last, same, left, .cons (.more kind line) lines, rfl, other⟩

theorem sound_tags : script.Sound Parse.tags DerivesTags := by
  intro tokens tags after remains run
  rw [Parse.tags, Parse.many_apply] at run
  have repeats : Parse.Repeats (stateless Parse.tag) () (script.cursor tokens) tags after := by
    refine repeats_of_collect ?_ remains run
    intro state tokens value next after remains taken
    obtain ⟨absurd, _⟩ | ⟨token, next, rest, rfl, _, _, ⟨_, rfl, left⟩ | ⟨_, rfl, left⟩⟩ :=
      tag_ok remains ((Parse.stateless_eq_ok _ _ _ _ _).mp taken)
    · cases absurd
    · exact ⟨_, rfl, left, Nat.lt_succ_of_lt (Nat.lt_succ_self _)⟩
    · exact ⟨_, rfl, left, Nat.lt_succ_self _⟩
  obtain ⟨lines, rest, same, left, derived, rfl, _⟩ := derivesTags_of_repeats repeats remains rfl
  exact ⟨rest, same, left, .intro derived⟩

theorem sound_descriptionLine :
    script.Sound Parse.descriptionLine (Maybe DerivesDescriptionLine) := by
  intro tokens found after remains run
  obtain ⟨taken, middle, here, run⟩ := (Parse.bind_eq_ok _ _ _ _ _).mp run
  obtain ⟨rfl, rfl⟩ := (Parse.pure_eq_ok _ _ _ _).mp run
  obtain ⟨rfl, rfl, _⟩ | ⟨token, rest, rfl, kind, rfl, rfl, left⟩ := takeIf_ok remains here (by decide)
  · exact ⟨tokens, rfl, remains, .absent⟩
  · exact ⟨rest, rfl, left, .present (.intro kind)⟩

theorem sound_optionalName : script.Sound Parse.optionalName DerivesOptionalName := by
  intro tokens text after remains run
  obtain ⟨taken, middle, here, run⟩ := (Parse.bind_eq_ok _ _ _ _ _).mp run
  obtain ⟨rfl, rfl⟩ := (Parse.pure_eq_ok _ _ _ _).mp run
  obtain ⟨rfl, rfl, _⟩ | ⟨token, rest, rfl, kind, rfl, rfl, left⟩ := takeIf_ok remains here (by decide)
  · exact ⟨tokens, rfl, remains, .absent⟩
  · exact ⟨rest, rfl, left, .present (.intro kind)⟩

theorem sound_featureName : script.Sound Parse.featureName DerivesName := by
  intro tokens text after remains run
  obtain ⟨token, middle, here, run⟩ := (Parse.bind_eq_ok _ _ _ _ _).mp run
  obtain ⟨rfl, rfl⟩ := (Parse.pure_eq_ok _ _ _ _).mp run
  obtain ⟨rest, rfl, kind, rfl⟩ := expect_ok remains here
  exact ⟨rest, rfl, remains.tail (by simp [kind]), .intro kind⟩

theorem sound_heading (keyword : BlockKeyword) {name : Parse Text} {production : Production Text}
    (named : script.Sound name production) :
    script.Sound (Parse.heading keyword name) (DerivesHeading keyword production) := by
  intro tokens heading after remains run
  obtain ⟨token, middle, opened, run⟩ := (Parse.bind_eq_ok _ _ _ _ _).mp run
  obtain ⟨start, rfl, kind, rfl⟩ := expect_ok remains opened
  obtain ⟨text, middle, here, run⟩ := (Parse.bind_eq_ok _ _ _ _ _).mp run
  obtain ⟨lined, rfl, left, here⟩ := named start text middle (remains.tail (by simp [kind])) here
  obtain ⟨lines, last, described, run⟩ := (Parse.bind_eq_ok _ _ _ _ _).mp run
  obtain ⟨rest, rfl, left, described⟩ := sound_many sound_descriptionLine lined lines last left
    described
  obtain ⟨rfl, rfl⟩ := (Parse.pure_eq_ok _ _ _ _).mp run
  exact ⟨rest, rfl, left, .intro kind here described⟩

inductive TakesCell (border : Location) : Production (Option (TableCell × Location)) where
  | ending {eol : Token} {rest : List Token} (ends : eol.kind = .eol) :
      TakesCell border (eol :: rest) none rest
  | empty {pipe : Token} {rest : List Token} (closes : pipe.kind = .pipe) :
      TakesCell border (pipe :: rest) (some (⟨[], border⟩, pipe.location)) rest
  | filled {cell pipe : Token} {rest : List Token} (opens : cell.kind = .cell)
      (closes : pipe.kind = .pipe) :
      TakesCell border (cell :: pipe :: rest) (some (.ofToken cell, pipe.location)) rest

theorem sound_cell (border : Location) : script.Sound (Parse.cell border) (TakesCell border) := by
  intro tokens found after remains run
  rw [Parse.cell_apply] at run
  obtain ⟨raw, middle, here, run⟩ := (Parse.bind_eq_ok _ _ _ _ _).mp run
  obtain ⟨token, last, there, run⟩ := (Parse.bind_eq_ok _ _ _ _ _).mp run
  obtain ⟨rfl, rfl, _⟩ | ⟨cell, more, rfl, opens, rfl, rfl, left⟩ := takeIf_ok remains here (by decide)
  · obtain ⟨first, rest, rfl⟩ := remains.exists_cons
    rw [advance_cursor] at there
    cases there
    by_cases closes : token.kind = .pipe
    · rw [if_pos closes] at run
      cases run
      exact ⟨rest, rfl, remains.tail (by simp [closes]), .empty closes⟩
    · rw [if_neg closes] at run
      by_cases ends : token.kind = .eol
      · rw [if_pos ends] at run
        cases run
        exact ⟨rest, rfl, remains.tail (by simp [ends]), .ending ends⟩
      · rw [if_neg ends] at run
        cases run
  · obtain ⟨first, rest, rfl⟩ := left.exists_cons
    rw [advance_cursor] at there
    cases there
    -- Only a border can follow a cell, so the row does not end here.
    have precedes := (remains.precedes (.inl (by rw [opens]; rfl))).2
    by_cases closes : token.kind = .pipe
    · rw [if_pos closes] at run
      cases run
      exact ⟨rest, rfl, left.tail (by simp [closes]), .filled opens closes⟩
    · rw [if_neg closes] at run
      by_cases ends : token.kind = .eol
      · rw [opens, ends] at precedes
        cases precedes
      · rw [if_neg ends] at run
        cases run

theorem derivesCells_of_repeats {cursor : Cursor} {border : Location} {cells : List TableCell}
    (repeats : Parse.Repeats Parse.cell border cursor cells after) (remains : script.Remains tokens)
    (start : cursor = script.cursor tokens) :
    ∃ rest, after = script.cursor rest ∧ script.Remains rest ∧
      DerivesCells border tokens cells rest := by
  induction repeats generalizing tokens with
  | stop declined =>
      subst start
      obtain ⟨rest, same, left, taken⟩ := sound_cell _ tokens _ _ remains declined
      cases taken with
      | ending ends => exact ⟨rest, same, left, .ending ends⟩
  | next taken _ ih =>
      subst start
      obtain ⟨middle, same, left, taken⟩ := sound_cell _ tokens _ _ remains taken
      obtain ⟨rest, last, left, others⟩ := ih left same
      cases taken with
      | empty closes => exact ⟨rest, last, left, .empty closes others⟩
      | filled opens closes => exact ⟨rest, last, left, .filled opens closes others⟩

theorem sound_cells (border : Location) :
    script.Sound (Parse.collect Parse.cell border) (DerivesCells border) := by
  intro tokens cells after remains run
  rw [Parse.collect_apply] at run
  refine derivesCells_of_repeats (repeats_of_collect ?_ remains run) remains rfl
  intro border tokens cell next after remains taken
  obtain ⟨rest, same, left, taken⟩ := sound_cell border tokens _ after remains taken
  refine ⟨rest, same, left, ?_⟩
  cases taken with
  | empty => exact Nat.lt_succ_self _
  | filled => exact Nat.lt_succ_of_lt (Nat.lt_succ_self _)

/-- Rows as wide as the given width, or at least as one another. -/
def Even (width : Option Nat) (rows : List TableRow) : Prop :=
  ∃ count, (∀ given ∈ width, given = count) ∧ ∀ row ∈ rows, row.cells.length = count

theorem even_cons {width : Option Nat} {row : TableRow} {rows : List TableRow} :
    Even width (row :: rows) ↔
      width.getD row.cells.length = row.cells.length ∧ Even (some row.cells.length) rows := by
  constructor
  · rintro ⟨count, given, all⟩
    obtain ⟨first, others⟩ := List.forall_mem_cons.mp all
    refine ⟨?_, count, by simp [first], others⟩
    cases width with
    | none => rfl
    | some wide => exact (given wide rfl).trans first.symm
  · rintro ⟨fits, count, given, others⟩
    have first : row.cells.length = count := given _ rfl
    refine ⟨count, ?_, List.forall_mem_cons.mpr ⟨first, others⟩⟩
    rintro wide ⟨⟩
    exact fits.trans first

/-- A row takes its place in front of rows that go with it. -/
theorem sound_row (width : Option Nat) : script.Sound (Parse.row width) fun tokens found middle =>
    (found = none → middle = tokens) ∧ ∀ row next, found = some (row, next) → ∀ rows rest,
      Many DerivesRow middle rows rest ∧ Even next rows →
        Many DerivesRow tokens (row :: rows) rest ∧ Even width (row :: rows) := by
  intro tokens found after remains run
  obtain ⟨border, middle, here, run⟩ := (Parse.bind_eq_ok _ _ _ _ _).mp run
  obtain ⟨rfl, rfl, _⟩ | ⟨pipe, start, rfl, opens, rfl, rfl, left⟩ := takeIf_ok remains here (by decide)
  · obtain ⟨rfl, rfl⟩ := (Parse.pure_eq_ok _ _ _ _).mp run
    exact ⟨tokens, rfl, remains, fun _ => rfl, by simp⟩
  · obtain ⟨cells, last, there, run⟩ := (Parse.bind_eq_ok _ _ _ _ _).mp run
    obtain ⟨rest, rfl, left, filled⟩ := sound_cells _ start cells last left there
    split at run
    · rename_i fits
      obtain ⟨rfl, rfl⟩ := (Parse.pure_eq_ok _ _ _ _).mp run
      refine ⟨rest, rfl, left, by simp, ?_⟩
      rintro row next ⟨⟩ rows final ⟨others, even⟩
      exact ⟨.cons (.intro opens filled) others, even_cons.mpr ⟨fits, even⟩⟩
    · cases run

theorem derivesTable_of_rows {rest : List Token} {row : TableRow} {rows : List TableRow}
    (filled : Many DerivesRow tokens (row :: rows) rest) (even : Even none (row :: rows)) :
    DerivesTable tokens ⟨row :: rows, row.location⟩ rest := by
  obtain ⟨count, _, all⟩ := even
  obtain ⟨first, others⟩ := List.forall_mem_cons.mp all
  exact .intro filled fun other member => (others other member).trans first.symm

theorem kind_of_row_declined {width : Option Nat} (remains : script.Remains tokens)
    (run : Parse.row width (script.cursor tokens) = (.ok none, after)) :
    ∀ token ∈ tokens.head?, token.kind ≠ .pipe := by
  obtain ⟨border, middle, here, run⟩ := (Parse.bind_eq_ok _ _ _ _ _).mp run
  obtain ⟨_, _, other⟩ | ⟨pipe, start, rfl, opens, rfl, rfl, left⟩ := takeIf_ok remains here (by decide)
  · exact other
  · obtain ⟨cells, last, there, run⟩ := (Parse.bind_eq_ok _ _ _ _ _).mp run
    split at run <;> cases run

/-- A table that starts with a border has a row. -/
theorem table_ok {table : DataTable} {pipe : Token} {start : List Token}
    (remains : script.Remains (pipe :: start)) (opens : pipe.kind = .pipe)
    (run : Parse.table (script.cursor (pipe :: start)) = (.ok table, after)) :
    ∃ rest, after = script.cursor rest ∧ script.Remains rest ∧
      DerivesTable (pipe :: start) table rest := by
  obtain ⟨rows, middle, here, run⟩ := (Parse.bind_eq_ok _ _ _ _ _).mp run
  obtain ⟨rfl, rfl⟩ := (Parse.pure_eq_ok _ _ _ _).mp run
  rw [Parse.collect_apply] at here
  obtain ⟨rest, same, left, filled, even⟩ := sound_collectFrom
    (fun width tokens rows rest => Many DerivesRow tokens rows rest ∧ Even width rows)
    (fun width tokens => ⟨.nil, width.getD 0, by rintro given ⟨⟩; rfl, by simp⟩) sound_row _ none
    (pipe :: start) rows middle remains here
  cases rows with
  | nil =>
      have declined := Parse.declined_of_collectFrom_nil here
      exact absurd opens (kind_of_row_declined remains declined pipe rfl)
  | cons row rows => exact ⟨rest, same, left, derivesTable_of_rows filled even⟩

def openedAfter (blocks : List Block) (name : Token) (tokens : List Token) : Option Block :=
  tokens.head?.bind fun next => blocks.find? fun block =>
    name.location.line < block.location.line ∧ block.location.line < next.location.line

theorem openedAfter_eq_some {blocks : List Block} {name : Token} {block : Block}
    (found : openedAfter blocks name tokens = some block) :
    ∃ next more, tokens = next :: more ∧ block ∈ blocks ∧
      name.location.line < block.location.line ∧ block.location.line < next.location.line := by
  obtain ⟨next, first, found⟩ := Option.bind_eq_some_iff.mp found
  obtain ⟨more, rfl⟩ := List.head?_eq_some_iff.mp first
  have opens := List.find?_some found
  simp only [decide_eq_true_eq] at opens
  exact ⟨next, more, rfl, List.mem_of_find?_eq_some found, opens⟩

/-- What a step takes, with the doc string told from others by where it opens. -/
inductive TakesArgument (blocks : List Block) (name : Token) : Production (Option StepArgument) where
  | absent {tokens : List Token} (none : openedAfter blocks name tokens = none)
      (other : ∀ token ∈ tokens.head?, token.kind ≠ .pipe) :
      TakesArgument blocks name tokens Option.none tokens
  | table {tokens rest : List Token} {table : DataTable}
      (none : openedAfter blocks name tokens = none) (here : DerivesTable tokens table rest) :
      TakesArgument blocks name tokens (some (.dataTable table)) rest
  | docString {tokens rest : List Token} {block : Block} {doc : DocString}
      (first : openedAfter blocks name tokens = some block)
      (here : DerivesDocString block tokens doc rest) :
      TakesArgument blocks name tokens (some (.docString doc)) rest

theorem argument_opened {name : Token} {block : Block} (further : script.Remains tokens)
    (found : openedAfter script.blocks name tokens = some block) :
    Parse.argument name.location.line (script.cursor tokens) =
      (Parse.docString block >>= fun doc => pure (some (.docString doc))) (script.cursor tokens) := by
  obtain ⟨next, more, rfl⟩ := further.exists_cons
  have opened : script.reader.blockOpenedIn? (name.location.line + 1) next.location.line =
      some block := found
  rw [Parse.argument, Parse.bind_apply, peek_cursor]
  simp only
  rw [Parse.bind_apply, Parse.reader_apply]
  simp only [cursor, opened]

theorem argument_unopened {name next : Token} {more : List Token}
    (none : openedAfter script.blocks name (next :: more) = Option.none) :
    Parse.argument name.location.line (script.cursor (next :: more)) =
      if next.kind = .pipe then
        (Parse.table >>= fun table => pure (some (.dataTable table))) (script.cursor (next :: more))
      else (.ok Option.none, script.cursor (next :: more)) := by
  have unopened : script.reader.blockOpenedIn? (name.location.line + 1) next.location.line =
      Option.none := none
  rw [Parse.argument, Parse.bind_apply, peek_cursor]
  simp only
  rw [Parse.bind_apply, Parse.reader_apply]
  simp only [cursor, unopened]
  split <;> rfl

theorem argument_ok {name : Token} {argument : Option StepArgument}
    (remains : script.Remains (name :: tokens)) (further : script.Remains tokens)
    (run : Parse.argument name.location.line (script.cursor tokens) = (.ok argument, after)) :
    ∃ rest, after = script.cursor rest ∧ script.Remains rest ∧
      TakesArgument script.blocks name tokens argument rest := by
  cases found : openedAfter script.blocks name tokens with
  | some block =>
      obtain ⟨next, more, rfl, known, opened, before⟩ := openedAfter_eq_some found
      obtain ⟨doc, rest, here, derived, left⟩ := docString_opened known remains further opened
        (by rintro token ⟨⟩; exact before)
      rw [argument_opened further found, Parse.bind_apply, here] at run
      obtain ⟨rfl, rfl⟩ := (Parse.pure_eq_ok _ _ _ _).mp run
      exact ⟨rest, rfl, left, .docString found derived⟩
  | none =>
      obtain ⟨next, start, rfl⟩ := further.exists_cons
      rw [argument_unopened found] at run
      split at run
      · rename_i opens
        obtain ⟨table, middle, here, run⟩ := (Parse.bind_eq_ok _ _ _ _ _).mp run
        obtain ⟨rfl, rfl⟩ := (Parse.pure_eq_ok _ _ _ _).mp run
        obtain ⟨rest, same, left, derived⟩ := table_ok further opens here
        exact ⟨rest, same, left, .table found derived⟩
      · rename_i other
        cases run
        refine ⟨next :: start, rfl, further, .absent found ?_⟩
        rintro token ⟨⟩
        exact other

/-- A grammar that agrees with the reader and has a derivation for whatever a step takes. -/
structure Serves (script : Transcript) (grammar : Grammar) : Prop where
  dialect : grammar.dialect = script.reader.mode.dialect
  language : grammar.language = script.reader.language
  argument : ∀ name tokens argument rest, TakesArgument script.blocks name tokens argument rest →
    grammar.argument name tokens argument rest

theorem serves_ofReader (script : Transcript) : script.Serves (.ofReader script.reader) where
  dialect := rfl
  language := rfl
  argument name tokens argument rest takes := by
    cases takes with
    | absent none other => exact .absent
    | table none here => exact .table here
    | docString first here =>
        obtain ⟨_, _, _, known, _⟩ := openedAfter_eq_some first
        exact .docString known here

/-- The role of a step depends on the steps before it through the nearest role only. -/
theorem find?_role (keyword : StepKeyword) (earlier : List StepKeyword) :
    (keyword :: earlier).find? (fun other => !other.isConjunction) =
      keyword.resolve (earlier.find? fun other => !other.isConjunction) := by
  rw [List.find?_cons, StepKeyword.resolve]
  cases keyword.isConjunction <;> rfl

section Grammar

variable {grammar : Grammar} (serves : script.Serves grammar)

include serves

theorem sound_step (previous : Option StepKeyword) :
    script.Sound (Parse.step previous) fun tokens found middle =>
      (found = none → middle = tokens) ∧ ∀ step next, found = some (step, next) → ∀ steps rest,
        (∀ earlier, earlier.find? (fun other => !other.isConjunction) = next →
          grammar.DerivesSteps earlier middle steps rest) →
        ∀ earlier, earlier.find? (fun other => !other.isConjunction) = previous →
          grammar.DerivesSteps earlier tokens (step :: steps) rest := by
  intro tokens found after remains run
  obtain ⟨taken, middle, here, run⟩ := (Parse.bind_eq_ok _ _ _ _ _).mp run
  obtain ⟨rfl, rfl, _⟩ | ⟨token, start, rfl, opens, rfl, rfl, further⟩ :=
    takeIf_ok remains here (by decide)
  · obtain ⟨rfl, rfl⟩ := (Parse.pure_eq_ok _ _ _ _).mp run
    exact ⟨tokens, rfl, remains, fun _ => rfl, by simp⟩
  · simp only at run
    rw [Parse.bind_apply, Parse.reader_apply] at run
    simp only at run
    cases resolved : (script.reader.mode.dialect.stepKeyword? token.text).bind (·.resolve previous)
      with
    | none =>
        rw [cursor, resolved] at run
        cases run
    | some role =>
        rw [cursor, resolved] at run
        obtain ⟨keyword, spelled, resolved⟩ := Option.bind_eq_some_iff.mp resolved
        obtain ⟨name, middle, there, run⟩ := (Parse.bind_eq_ok _ _ _ _ _).mp run
        obtain ⟨start, rfl, named, rfl⟩ := expect_ok further there
        -- The name of a step stands on the line of its keyword, where the argument is looked for.
        have line : token.location.line = name.location.line :=
          (remains.precedes (.inr (by rw [named]; rfl))).1
        obtain ⟨argument, middle, takes, run⟩ := (Parse.bind_eq_ok _ _ _ _ _).mp run
        rw [line] at takes
        obtain ⟨rest, rfl, left, takes⟩ := argument_ok further (further.tail (by simp [named])) takes
        obtain ⟨rfl, rfl⟩ := (Parse.pure_eq_ok _ _ _ _).mp run
        refine ⟨rest, rfl, left, by simp, ?_⟩
        rintro step next ⟨⟩ steps last others earlier known
        rw [← known, ← find?_role] at resolved
        exact .cons opens (serves.dialect ▸ spelled) resolved named
          (serves.argument name start argument rest takes) (others (keyword :: earlier) resolved)

theorem sound_steps : script.Sound Parse.steps (grammar.DerivesSteps []) := by
  intro tokens steps after remains run
  rw [Parse.steps, Parse.collect_apply] at run
  obtain ⟨rest, same, left, derived⟩ := sound_collectFrom
    (fun previous tokens steps rest =>
      ∀ earlier, earlier.find? (fun other => !other.isConjunction) = previous →
        grammar.DerivesSteps earlier tokens steps rest)
    (fun _ _ _ _ => .nil) (sound_step serves) _ none tokens steps after remains run
  exact ⟨rest, same, left, derived [] rfl⟩

theorem sound_background : script.Sound Parse.background (Maybe grammar.DerivesBackground) := by
  intro tokens found after remains run
  obtain ⟨kind, middle, here, run⟩ := (Parse.bind_eq_ok _ _ _ _ _).mp run
  obtain rfl := kindAfterTags_ok remains here
  split at run
  · obtain ⟨token, middle, peeked, run⟩ := (Parse.bind_eq_ok _ _ _ _ _).mp run
    obtain ⟨first, start, rfl⟩ := remains.exists_cons
    rw [peek_cursor] at peeked
    cases peeked
    split at run
    · cases run
    · obtain ⟨heading, middle, headed, run⟩ := (Parse.bind_eq_ok _ _ _ _ _).mp run
      obtain ⟨middle, rfl, left, headed⟩ :=
        sound_heading .background sound_optionalName _ _ _ remains headed
      obtain ⟨steps, last, filled, run⟩ := (Parse.bind_eq_ok _ _ _ _ _).mp run
      obtain ⟨rest, rfl, left, filled⟩ := sound_steps serves _ _ _ left filled
      obtain ⟨rfl, rfl⟩ := (Parse.pure_eq_ok _ _ _ _).mp run
      exact ⟨rest, rfl, left, .present (.intro headed filled)⟩
  · obtain ⟨rfl, rfl⟩ := (Parse.pure_eq_ok _ _ _ _).mp run
    exact ⟨tokens, rfl, remains, .absent⟩

theorem sound_scenario (keyword : BlockKeyword) :
    script.Sound (Parse.scenario keyword) (grammar.DerivesScenario keyword) := by
  intro tokens scenario after remains run
  obtain ⟨tags, middle, tagged, run⟩ := (Parse.bind_eq_ok _ _ _ _ _).mp run
  obtain ⟨start, rfl, left, tagged⟩ := sound_tags _ _ _ remains tagged
  obtain ⟨heading, middle, headed, run⟩ := (Parse.bind_eq_ok _ _ _ _ _).mp run
  obtain ⟨middle, rfl, left, headed⟩ := sound_heading keyword sound_optionalName _ _ _ left headed
  obtain ⟨steps, last, filled, run⟩ := (Parse.bind_eq_ok _ _ _ _ _).mp run
  obtain ⟨rest, rfl, left, filled⟩ := sound_steps serves _ _ _ left filled
  obtain ⟨rfl, rfl⟩ := (Parse.pure_eq_ok _ _ _ _).mp run
  exact ⟨rest, rfl, left, .intro tagged headed filled⟩

end Grammar

/-- A value has been seen before exactly if the values are not all different. -/
theorem repeatedAfter?_eq_none (seen : List Text) (cells : List TableCell) :
    TableRow.repeatedAfter? seen cells = none ↔
      (cells.map (·.value)).Nodup ∧ ∀ cell ∈ cells, cell.value ∉ seen := by
  induction cells generalizing seen with
  | nil => simp [TableRow.repeatedAfter?]
  | cons cell cells ih =>
      rw [TableRow.repeatedAfter?]
      by_cases old : cell.value ∈ seen
      · simp [old]
      · simp only [List.contains_iff_mem, old, ↓reduceIte, ih, List.map_cons, List.nodup_cons]
        simp only [List.mem_cons, not_or, List.mem_map, not_exists, not_and, forall_eq_or_imp]
        constructor
        · rintro ⟨distinct, fresh⟩
          exact ⟨⟨fun other member => (fresh other member).1, distinct⟩, old,
            fun other member => (fresh other member).2⟩
        · rintro ⟨⟨different, distinct⟩, _, fresh⟩
          exact ⟨distinct, fun other member => ⟨different other member, fresh other member⟩⟩

theorem repeated?_eq_none (row : TableRow) : row.repeated? = none ↔ row.values.Nodup := by
  rw [TableRow.repeated?, repeatedAfter?_eq_none, TableRow.values]
  simp

theorem sound_examplesTable : script.Sound Parse.examplesTable fun tokens table rest =>
    DerivesTable tokens table rest ∧ ∀ header ∈ table.rows.head?, header.values.Nodup := by
  intro tokens table after remains run
  obtain ⟨first, start, rfl⟩ := remains.exists_cons
  rw [Parse.examplesTable, Parse.bind_apply, peek_cursor] at run
  simp only at run
  split at run
  · rename_i opens
    obtain ⟨table, middle, here, run⟩ := (Parse.bind_eq_ok _ _ _ _ _).mp run
    obtain ⟨rest, rfl, left, derived⟩ := table_ok remains opens here
    cases single : table.rows.head?.bind (·.repeated?) with
    | some cell =>
        rw [single] at run
        cases run
    | none =>
        rw [single] at run
        obtain ⟨rfl, rfl⟩ := (Parse.pure_eq_ok _ _ _ _).mp run
        refine ⟨rest, rfl, left, derived, ?_⟩
        intro header first
        rw [Option.mem_def.mp first] at single
        exact (repeated?_eq_none header).mp single
  · cases run

theorem sound_examples : script.Sound Parse.examples (Maybe Grammar.DerivesExamples) := by
  intro tokens found after remains run
  obtain ⟨kind, middle, here, run⟩ := (Parse.bind_eq_ok _ _ _ _ _).mp run
  obtain rfl := kindAfterTags_ok remains here
  split at run
  · obtain ⟨tags, middle, tagged, run⟩ := (Parse.bind_eq_ok _ _ _ _ _).mp run
    obtain ⟨start, rfl, left, tagged⟩ := sound_tags _ _ _ remains tagged
    obtain ⟨heading, middle, headed, run⟩ := (Parse.bind_eq_ok _ _ _ _ _).mp run
    obtain ⟨middle, rfl, left, headed⟩ :=
      sound_heading .examples sound_optionalName _ _ _ left headed
    obtain ⟨table, last, filled, run⟩ := (Parse.bind_eq_ok _ _ _ _ _).mp run
    obtain ⟨rest, rfl, left, filled, distinct⟩ := sound_examplesTable _ _ _ left filled
    obtain ⟨rfl, rfl⟩ := (Parse.pure_eq_ok _ _ _ _).mp run
    exact ⟨rest, rfl, left, .present (.intro tagged headed filled distinct)⟩
  · obtain ⟨rfl, rfl⟩ := (Parse.pure_eq_ok _ _ _ _).mp run
    exact ⟨tokens, rfl, remains, .absent⟩

section Documents

variable {grammar : Grammar} (serves : script.Serves grammar)

include serves

theorem sound_definition : script.Sound Parse.definition (Maybe grammar.DerivesDefinition) := by
  intro tokens found after remains run
  obtain ⟨kind, middle, here, run⟩ := (Parse.bind_eq_ok _ _ _ _ _).mp run
  obtain rfl := kindAfterTags_ok remains here
  split at run
  · obtain ⟨scenario, last, filled, run⟩ := (Parse.bind_eq_ok _ _ _ _ _).mp run
    obtain ⟨rest, rfl, left, filled⟩ := sound_scenario serves _ _ _ _ remains filled
    obtain ⟨rfl, rfl⟩ := (Parse.pure_eq_ok _ _ _ _).mp run
    exact ⟨rest, rfl, left, .present (.scenario filled)⟩
  · obtain ⟨scenario, middle, filled, run⟩ := (Parse.bind_eq_ok _ _ _ _ _).mp run
    obtain ⟨middle, rfl, left, filled⟩ := sound_scenario serves _ _ _ _ remains filled
    obtain ⟨examples, last, listed, run⟩ := (Parse.bind_eq_ok _ _ _ _ _).mp run
    obtain ⟨rest, rfl, left, listed⟩ := sound_many sound_examples _ _ _ left listed
    obtain ⟨rfl, rfl⟩ := (Parse.pure_eq_ok _ _ _ _).mp run
    exact ⟨rest, rfl, left, .present (.outline filled listed)⟩
  · obtain ⟨rfl, rfl⟩ := (Parse.pure_eq_ok _ _ _ _).mp run
    exact ⟨tokens, rfl, remains, .absent⟩

theorem sound_rule : script.Sound Parse.rule (Maybe grammar.DerivesRule) := by
  intro tokens found after remains run
  obtain ⟨kind, middle, here, run⟩ := (Parse.bind_eq_ok _ _ _ _ _).mp run
  obtain rfl := kindAfterTags_ok remains here
  split at run
  · obtain ⟨tags, middle, tagged, run⟩ := (Parse.bind_eq_ok _ _ _ _ _).mp run
    obtain ⟨start, rfl, left, tagged⟩ := sound_tags _ _ _ remains tagged
    obtain ⟨heading, middle, headed, run⟩ := (Parse.bind_eq_ok _ _ _ _ _).mp run
    obtain ⟨middle, rfl, left, headed⟩ := sound_heading .rule sound_optionalName _ _ _ left headed
    obtain ⟨background, later, founded, run⟩ := (Parse.bind_eq_ok _ _ _ _ _).mp run
    obtain ⟨later, rfl, left, founded⟩ := sound_background serves _ _ _ left founded
    obtain ⟨children, last, filled, run⟩ := (Parse.bind_eq_ok _ _ _ _ _).mp run
    obtain ⟨rest, rfl, left, filled⟩ := sound_many (sound_definition serves) _ _ _ left filled
    obtain ⟨rfl, rfl⟩ := (Parse.pure_eq_ok _ _ _ _).mp run
    exact ⟨rest, rfl, left, .present (.intro tagged headed founded filled)⟩
  · obtain ⟨rfl, rfl⟩ := (Parse.pure_eq_ok _ _ _ _).mp run
    exact ⟨tokens, rfl, remains, .absent⟩

/-- A document that is accepted derives its tree. -/
theorem derivesDocument_of_feature {feature : Feature}
    (run : Parse.feature (script.cursor script.tokens) = (.ok feature, after)) :
    grammar.DerivesDocument script.tokens feature := by
  obtain ⟨tags, middle, tagged, run⟩ := (Parse.bind_eq_ok _ _ _ _ _).mp run
  obtain ⟨start, rfl, left, tagged⟩ := sound_tags _ _ _ script.remains_tokens tagged
  obtain ⟨heading, middle, headed, run⟩ := (Parse.bind_eq_ok _ _ _ _ _).mp run
  obtain ⟨middle, rfl, left, headed⟩ := sound_heading .feature sound_featureName _ _ _ left headed
  obtain ⟨background, later, founded, run⟩ := (Parse.bind_eq_ok _ _ _ _ _).mp run
  obtain ⟨later, rfl, left, founded⟩ := sound_background serves _ _ _ left founded
  obtain ⟨children, last, filled, run⟩ := (Parse.bind_eq_ok _ _ _ _ _).mp run
  obtain ⟨last, rfl, left, filled⟩ := sound_many (sound_definition serves) _ _ _ left filled
  obtain ⟨rules, final, ruled, run⟩ := (Parse.bind_eq_ok _ _ _ _ _).mp run
  obtain ⟨final, rfl, left, ruled⟩ := sound_many (sound_rule serves) _ _ _ left ruled
  obtain ⟨eof, final, ended, run⟩ := (Parse.bind_eq_ok _ _ _ _ _).mp run
  obtain ⟨rest, rfl, ends, rfl⟩ := expect_ok left ended
  obtain rfl := left.eq_nil_of_eof ends
  rw [Parse.bind_apply, Parse.reader_apply] at run
  obtain ⟨rfl, rfl⟩ := (Parse.pure_eq_ok _ _ _ _).mp run
  have language : (script.cursor []).reader.language = grammar.language := serves.language.symm
  rw [language]
  exact .intro tagged headed founded filled ruled ends

end Documents

end Transcript

/-- An accepted document derives its tree in every grammar that serves its transcript. -/
theorem derivesDocument_of_parse {setup : Setup} {text : Text} {tokens : List Token}
    {feature : Feature} {grammar : Grammar} (lexed : tokenize setup text = .ok tokens)
    (serves : (Transcript.ofTokens lexed).Serves grammar) (parsed : parse setup text = .ok feature) :
    grammar.DerivesDocument (uncommented tokens) feature := by
  rw [parse_eq_complete lexed] at parsed
  cases run : Parse.feature (.complete setup text tokens) with
  | mk result after =>
      rw [run] at parsed
      subst parsed
      exact Transcript.derivesDocument_of_feature serves run

end Gherkin
