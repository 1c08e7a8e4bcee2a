import Gherkin.Proofs.Arrangement
import Gherkin.Proofs.Compilation

/-!
Placeholders and the columns that stand behind them.

A text mentions a name if the name stands in it between angle brackets. An outline compiles with a
block of examples exactly if each name that its texts mention is a column of the block, provided the
block has a row to fill in at all. The rows of a parsed table are all as wide as its header, so a column
never lacks a value, and which values there are makes no difference.
-/

namespace Gherkin

namespace Piece

def IsName (name : Text) : Prop :=
  (∃ c ∈ name.head?, Text.isSpace c = false) ∧ ∀ c ∈ name, isNameCharacter c = true

theorem name?_eq_some_iff {text name : Text} :
    name? text = some name ↔ IsName name ∧ ∃ rest, text = name ++ '>' :: rest := by
  constructor
  · intro found
    obtain ⟨rest, split, fit⟩ := name?_eq_some text name found
    refine ⟨⟨?_, fit⟩, rest, split⟩
    unfold name? at found
    split at found
    · split at found
      · cases found
      · rename_i c more _ _ _ solid
        cases found
        exact ⟨c, rfl, by simpa using solid⟩
    · cases found
  · rintro ⟨⟨⟨c, first, solid⟩, fit⟩, rest, rfl⟩
    have taken : (name ++ '>' :: rest).takeWhile isNameCharacter = name := by
      rw [List.takeWhile_append_of_pos fit]
      simp [isNameCharacter]
    have left : (name ++ '>' :: rest).dropWhile isNameCharacter = '>' :: rest := by
      rw [List.dropWhile_append_of_pos fit]
      simp [isNameCharacter]
    rw [name?, taken, left]
    cases name with
    | nil => cases first
    | cons d more =>
        cases first
        simp [solid]

end Piece

def Text.Mentions (text name : Text) : Prop :=
  Piece.IsName name ∧ '<' :: name ++ ['>'] <:+: text

namespace Piece

theorem isName_of_mem_split {text name : Text} (member : placeholder name ∈ split text) :
    IsName name := by
  fun_induction split text with
  | case1 => cases member
  | case2 rest other found ih =>
      rcases List.mem_cons.mp member with same | later
      · cases same
        exact (name?_eq_some_iff.mp found).1
      · exact ih (List.mem_of_mem_drop later)
  | case3 rest _ ih =>
      rcases List.mem_cons.mp member with same | later
      · cases same
      · exact ih later
  | case4 c rest _ ih =>
      rcases List.mem_cons.mp member with same | later
      · cases same
      · exact ih later

theorem name?_of_infix_cons {c : Char} {rest name : Text} (fit : IsName name)
    (inside : '<' :: name ++ ['>'] <:+: c :: rest) :
    c = '<' ∧ name? rest = some name ∨ '<' :: name ++ ['>'] <:+: rest := by
  rcases List.infix_cons_iff.mp inside with ⟨more, start⟩ | later
  · obtain ⟨same, split⟩ := List.cons.inj start
    exact Or.inl ⟨same.symm, name?_eq_some_iff.mpr ⟨fit, more, by simpa using split.symm⟩⟩
  · exact Or.inr later

theorem mem_split_of_infix {text name : Text} (fit : IsName name)
    (inside : '<' :: name ++ ['>'] <:+: text) : placeholder name ∈ split text := by
  fun_induction split text with
  | case1 => simp at inside
  | case2 rest other found ih =>
      rcases name?_of_infix_cons fit inside with ⟨_, here⟩ | later
      · rw [found] at here
        cases here
        exact List.mem_cons_self
      · -- The pieces that the first placeholder covers are literals.
        obtain ⟨⟨_, plain⟩, after, rfl⟩ := name?_eq_some_iff.mp found
        have member := ih later
        rw [split_of_name other after plain] at member
        rw [drop_split_of_name other after plain]
        apply List.mem_cons_of_mem
        simpa using member
  | case3 rest none ih =>
      rcases name?_of_infix_cons fit inside with ⟨_, here⟩ | later
      · rw [none] at here
        cases here
      · exact List.mem_cons_of_mem _ (ih later)
  | case4 c rest opening ih =>
      rcases name?_of_infix_cons fit inside with ⟨same, _⟩ | later
      · exact absurd same opening
      · exact List.mem_cons_of_mem _ (ih later)

/-- The placeholders among the pieces of a text are the names it mentions. -/
theorem mem_split_iff {text name : Text} : placeholder name ∈ split text ↔ text.Mentions name := by
  constructor
  · intro member
    refine ⟨isName_of_mem_split member, ?_⟩
    obtain ⟨before, behind, same⟩ := List.append_of_mem member
    refine ⟨before.flatMap Piece.text, behind.flatMap Piece.text, ?_⟩
    rw [← flatMap_text_split text, same]
    simp [Piece.text]
  · rintro ⟨fit, inside⟩
    exact mem_split_of_infix fit inside

end Piece

namespace ExampleRow

variable {row : ExampleRow} {text name : Text}

theorem value?_eq_none_iff (wide : row.columns.length ≤ row.values.length) :
    row.value? name = none ↔ name ∉ row.columns := by
  rw [value?, Option.map_eq_none_iff, List.find?_eq_none]
  constructor
  · intro none member
    rw [← List.map_fst_zip wide] at member
    obtain ⟨entry, held, same⟩ := List.mem_map.mp member
    exact none entry held (by simpa using same)
  · intro absent entry held found
    have named : entry.1 = name := by simpa using found
    exact absent (named ▸ (List.of_mem_zip held).1)

theorem missing?_eq_none_iff :
    row.missing? text = none ↔ ∀ name, text.Mentions name → row.value? name ≠ none := by
  rw [missing?, List.findSome?_eq_none_iff]
  constructor
  · intro none name mentioned absent
    have found := none (.placeholder name) (Piece.mem_split_iff.mpr mentioned)
    simp [absent] at found
  · intro known piece member
    cases piece with
    | literal c => rfl
    | placeholder name =>
        have value := known name (Piece.mem_split_iff.mp member)
        simpa using value

theorem missing?_eq_some (missing : row.missing? text = some name) :
    text.Mentions name ∧ row.value? name = none := by
  obtain ⟨piece, member, found⟩ := List.exists_of_findSome?_eq_some missing
  cases piece with
  | literal c => cases found
  | placeholder other =>
      dsimp only at found
      split at found
      · rename_i absent
        cases found
        exact ⟨Piece.mem_split_iff.mp member, by simpa using absent⟩
      · cases found

end ExampleRow

/-! The texts of an outline are filled in step by step and the name last, and the first that fails is the one
reported. -/

def StepArgument.texts : StepArgument → List Text
  | dataTable table => table.values.flatten
  | docString doc => doc.lines

def Step.texts (step : Step) : List Text :=
  step.name :: step.argument.toList.flatMap StepArgument.texts

def Outline.texts (outline : Outline) : List Text :=
  outline.name :: outline.steps.flatMap Step.texts

def Outline.sites (outline : Outline) : List Site :=
  outline.steps.flatMap Step.sites ++ [⟨outline.location, outline.name⟩]

theorem DocString.map_text_sites (doc : DocString) : doc.sites.map (·.text) = doc.lines := by
  rw [sites, List.mapIdx_eq_zipIdx_map, List.map_map]
  exact List.zipIdx_map_fst 0 doc.lines

theorem Step.map_text_sites (step : Step) : step.sites.map (·.text) = step.texts := by
  obtain ⟨keyword, role, name, argument, location⟩ := step
  match argument with
  | none => rfl
  | some (.dataTable table) =>
      simp [sites, texts, StepArgument.texts, DataTable.sites, DataTable.values, TableRow.values,
        TableCell.site, List.flatMap_def, Function.comp_def]
  | some (.docString doc) => simp [sites, texts, StepArgument.texts, DocString.map_text_sites]

theorem Outline.mem_texts {outline : Outline} {text : Text} :
    text ∈ outline.texts ↔ ∃ site ∈ outline.sites, site.text = text := by
  have steps : outline.steps.flatMap Step.texts = (outline.steps.flatMap Step.sites).map (·.text) := by
    simp only [List.map_flatMap, Step.map_text_sites]
  rw [texts, sites, steps, ← List.mem_map, List.map_append]
  simp [or_comm]

namespace ExampleBlock

variable {block : ExampleBlock}

def columns (block : ExampleBlock) : List Text :=
  (block.examples.header?.map (·.values)).getD []

/-- There is a row to fill in. -/
def Used (block : ExampleBlock) : Prop :=
  block.examples.dataRows ≠ []

/-- The outline mentions names of columns only. -/
def Complete (block : ExampleBlock) : Prop :=
  ∀ text ∈ block.outline.texts, ∀ name, text.Mentions name → name ∈ block.columns

def Even (block : ExampleBlock) : Prop :=
  ∀ row ∈ block.examples.dataRows, row.cells.length = block.columns.length

def failure? (block : ExampleBlock) : Option CompileError :=
  block.examples.rows.findSome? fun row => block.outline.sites.findSome? row.values.failure?

theorem of_mem_rows {row : DataRow} (member : row ∈ block.examples.rows) :
    row.header.values = block.columns ∧ row.data ∈ block.examples.dataRows := by
  unfold Examples.rows at member
  unfold columns Examples.header? Examples.dataRows
  cases rows : block.examples.table.rows with
  | nil =>
      rw [rows] at member
      cases member
  | cons header others =>
      rw [rows] at member
      obtain ⟨data, held, rfl⟩ := List.mem_map.mp member
      exact ⟨rfl, held⟩

theorem rows_ne_nil (used : block.Used) : block.examples.rows ≠ [] := by
  unfold Used Examples.dataRows at used
  unfold Examples.rows
  cases rows : block.examples.table.rows with
  | nil =>
      rw [rows] at used
      exact absurd rfl used
  | cons header others =>
      rw [rows] at used
      simpa using used

variable (even : block.Even)

include even

/-- A column has a value in every row. -/
theorem value?_iff {row : DataRow} (member : row ∈ block.examples.rows) {name : Text} :
    row.values.value? name = none ↔ name ∉ block.columns := by
  obtain ⟨header, data⟩ := of_mem_rows member
  have width : row.data.values.length = block.columns.length := by
    rw [TableRow.values, List.length_map]
    exact even row.data data
  rw [ExampleRow.value?_eq_none_iff, DataRow.values, header]
  rw [DataRow.values, header]
  exact Nat.le_of_eq width.symm

theorem row_failure?_eq_none_iff {row : DataRow} (member : row ∈ block.examples.rows) {site : Site} :
    row.values.failure? site = none ↔ ∀ name, site.text.Mentions name → name ∈ block.columns := by
  rw [ExampleRow.failure?, Option.map_eq_none_iff, ExampleRow.missing?_eq_none_iff]
  simp only [ne_eq, value?_iff even member, not_not]

theorem failure?_eq_none_iff : block.failure? = none ↔ (block.Used → block.Complete) := by
  rw [failure?, List.findSome?_eq_none_iff]
  constructor
  · intro none used text held
    obtain ⟨site, listed, rfl⟩ := Outline.mem_texts.mp held
    obtain ⟨row, member⟩ := List.exists_mem_of_ne_nil _ (rows_ne_nil used)
    have clear := List.findSome?_eq_none_iff.mp (none row member) site listed
    exact (row_failure?_eq_none_iff even member).mp clear
  · intro complete row member
    apply List.findSome?_eq_none_iff.mpr
    intro site listed
    have used : block.Used := List.ne_nil_of_mem (of_mem_rows member).2
    exact (row_failure?_eq_none_iff even member).mpr
      (complete used site.text (Outline.mem_texts.mpr ⟨site, listed, rfl⟩))

theorem failure?_eq_some {error : CompileError} (failure : block.failure? = some error) :
    block.Used ∧ error.columns = block.columns ∧ error.placeholder ∉ block.columns ∧
      ∃ site ∈ block.outline.sites, site.location = error.location ∧
        site.text.Mentions error.placeholder := by
  obtain ⟨row, member, found⟩ := List.exists_of_findSome?_eq_some failure
  obtain ⟨site, listed, failed⟩ := List.exists_of_findSome?_eq_some found
  obtain ⟨name, missing, rfl⟩ := Option.map_eq_some_iff.mp failed
  obtain ⟨mentioned, absent⟩ := ExampleRow.missing?_eq_some missing
  obtain ⟨header, data⟩ := of_mem_rows member
  exact ⟨List.ne_nil_of_mem data, header, (value?_iff even member).mp absent, site, listed, rfl,
    mentioned⟩

end ExampleBlock

theorem findSome?_flatMap {α β γ : Type} (elements : List α) (list : α → List β) (found : β → Option γ) :
    (elements.flatMap list).findSome? found =
      elements.findSome? fun element => (list element).findSome? found := by
  induction elements with
  | nil => rfl
  | cons element rest ih =>
      rw [List.flatMap_cons, List.findSome?_append, ih, List.findSome?_cons]
      cases (list element).findSome? found <;> rfl

theorem Definition.findSome?_origins (rule : Option Rule) (definition : Definition) :
    (definition.origins rule).findSome? Origin.failure? =
      definition.exampleBlocks.findSome? ExampleBlock.failure? := by
  cases definition with
  | scenario plain => rfl
  | outline template =>
      rw [origins, exampleBlocks, List.findSome?_map, List.findSome?_map, findSome?_flatMap]
      rfl

theorem Feature.findSome?_origins (feature : Feature) :
    feature.origins.findSome? Origin.failure? =
      feature.exampleBlocks.findSome? ExampleBlock.failure? := by
  simp only [origins, exampleBlocks, definitions, List.flatMap_append, List.flatMap_assoc,
    List.findSome?_append, findSome?_flatMap, Definition.findSome?_origins]

theorem exists_ok_outcome {α ε : Type} {failure : Option ε} {value : α} :
    (∃ found, outcome failure value = .ok found) ↔ failure = none := by
  cases failure <;> simp [outcome]

namespace ExampleBlock

variable {setup : Setup} {text : Text} {feature : Feature} {block : ExampleBlock}
  (parsed : parse setup text = .ok feature) (member : block ∈ feature.exampleBlocks)

include parsed member

theorem table_of_parse : ∃ header rows, block.examples.table.rows = header :: rows ∧
    ∀ row ∈ rows, row.cells.length = header.cells.length := by
  obtain ⟨_, _, _, _, derived, _⟩ := parts_of_parse parsed
  obtain ⟨outline, held⟩ := Feature.outline_of_mem_exampleBlocks member
  have listed : .examples block.examples.table ∈ feature.parts := by
    apply Feature.mem_parts_of_outline outline
    apply List.mem_append_right
    exact List.mem_flatMap.mpr ⟨block.examples, held, by simp [Examples.parts]⟩
  cases derived _ listed with
  | examples _ filled _ =>
      generalize block.examples.table = table at filled
      cases filled with
      | @intro _ _ header rows _ even => exact ⟨header, rows, rfl, even⟩

theorem even_of_parse : block.Even := by
  obtain ⟨header, rows, table, even⟩ := table_of_parse parsed member
  intro row held
  rw [Examples.dataRows, table] at held
  simpa [columns, Examples.header?, table, TableRow.values] using even row held

end ExampleBlock

/-- A block is filled in without an error exactly if it compiles on its own. -/
theorem exists_ok_ofExamples (feature : Feature) (rule : Option Rule) (block : ExampleBlock) :
    (∃ tests, (feature.scopeIn rule).ofExamples block.outline block.examples = .ok tests) ↔
      block.failure? = none := by
  rw [ofExamples_eq, exists_ok_outcome, List.findSome?_map]
  rfl

def ExampleBlock.withRows (block : ExampleBlock) (rows : List TableRow) : ExampleBlock where
  outline := block.outline
  examples :=
    { block.examples with
      table := { block.examples.table with rows := block.examples.table.rows.take 1 ++ rows } }

namespace ExampleBlock

variable {setup : Setup} {text : Text} {feature : Feature} {block : ExampleBlock}
  (parsed : parse setup text = .ok feature) (member : block ∈ feature.exampleBlocks)
  {rows : List TableRow}

include parsed member

/-- Other rows of the same width leave the header as it is. -/
theorem failure?_withRows (some : rows ≠ [])
    (wide : ∀ row ∈ rows, row.cells.length = block.columns.length) :
    (block.withRows rows).failure? = none ↔ block.Complete := by
  obtain ⟨header, others, table, _⟩ := table_of_parse parsed member
  have columns : (block.withRows rows).columns = block.columns := by
    simp [withRows, ExampleBlock.columns, Examples.header?, table]
  have data : (block.withRows rows).examples.dataRows = rows := by
    simp [withRows, Examples.dataRows, table]
  have even : (block.withRows rows).Even := by
    rw [Even, data, columns]
    exact wide
  have used : (block.withRows rows).Used := by
    rw [Used, data]
    exact some
  have complete : (block.withRows rows).Complete ↔ block.Complete := by
    rw [Complete, columns]
    rfl
  rw [failure?_eq_none_iff even, complete]
  exact ⟨fun whole => whole used, fun whole _ => whole⟩

end ExampleBlock

theorem failure?_of_compile {feature : Feature} {error : CompileError}
    (failed : feature.compile = .error error) :
    ∃ before block behind, feature.exampleBlocks = before ++ block :: behind ∧
      block.failure? = some error ∧ ∀ earlier ∈ before, earlier.failure? = none := by
  rw [compile_eq_outcome, Feature.findSome?_origins] at failed
  cases found : feature.exampleBlocks.findSome? ExampleBlock.failure? with
  | none =>
      rw [found] at failed
      cases failed
  | some other =>
      rw [found] at failed
      cases failed
      exact List.findSome?_eq_some_iff.mp found

/-- An accepted document compiles exactly if every block of examples with a row has a column for each
name that its outline mentions. Otherwise the error names the columns of the first such block that lacks
one, and a placeholder that is none of them. What stands under the header of a block, and how many rows
of it, makes no difference. -/
theorem compile_iff_complete (setup : Setup) (text : Text) (feature : Feature)
    (parsed : parse setup text = .ok feature) :
    ((∃ tests, feature.compile = .ok tests) ↔
      ∀ block ∈ feature.exampleBlocks, block.Used → block.Complete) ∧
    (∀ error, feature.compile = .error error →
      error.placeholder ∉ error.columns ∧
      ∃ before block behind, feature.exampleBlocks = before ++ block :: behind ∧
        (∀ earlier ∈ before, earlier.Used → earlier.Complete) ∧
        block.Used ∧ ¬ block.Complete ∧ error.columns = block.columns) ∧
    (feature.exampleBlocks.map ExampleBlock.location).Pairwise Location.Before ∧
    ∀ block ∈ feature.exampleBlocks, ∀ (rule : Option Rule) (rows : List TableRow), rows ≠ [] →
      (∀ row ∈ rows, row.cells.length = block.columns.length) →
      ((∃ tests, (feature.scopeIn rule).ofExamples block.outline (block.withRows rows).examples =
        .ok tests) ↔ block.Complete) := by
  have even : ∀ block ∈ feature.exampleBlocks, block.Even :=
    fun block member => ExampleBlock.even_of_parse parsed member
  refine ⟨?_, ?_, ?_, ?_⟩
  · rw [compile_eq_outcome, exists_ok_outcome, Feature.findSome?_origins, List.findSome?_eq_none_iff]
    constructor
    · intro none block member
      exact (ExampleBlock.failure?_eq_none_iff (even block member)).mp (none block member)
    · intro complete block member
      exact (ExampleBlock.failure?_eq_none_iff (even block member)).mpr (complete block member)
  · intro error failed
    obtain ⟨before, block, behind, split, failure, clear⟩ := failure?_of_compile failed
    have member : block ∈ feature.exampleBlocks := by simp [split]
    obtain ⟨used, columns, absent, site, listed, _, mentioned⟩ :=
      ExampleBlock.failure?_eq_some (even block member) failure
    have lacks : ¬ block.Complete := by
      intro complete
      have held := Outline.mem_texts.mpr ⟨site, listed, rfl⟩
      exact absent (complete site.text held error.placeholder mentioned)
    refine ⟨columns ▸ absent, before, block, behind, split, ?_, used, lacks, columns⟩
    intro earlier held
    have known : earlier ∈ feature.exampleBlocks := by simp [split, held]
    exact (ExampleBlock.failure?_eq_none_iff (even earlier known)).mp (clear earlier held)
  · exact (parts_rise parsed).sublist feature.sublist_exampleBlocks
  · intro block member rule rows some wide
    rw [← ExampleBlock.failure?_withRows parsed member some wide]
    exact exists_ok_ofExamples feature rule (block.withRows rows)

/-- An outline with three blocks of examples: one without a row, one that has all columns, and one that
lacks the column of a name in a table of the outline. -/
def wantingText : Text :=
  "Feature: f\nScenario Outline: <a>\nGiven <b>\n|<c\\|d>|\nExamples:\n|z|\nExamples:\n|a|b|c\\|d|\n|1||3|\nExamples:\n|a|b|\n|1|2|\n".toList

theorem compile_wantingText :
    ∃ feature error, parse .standard wantingText = .ok feature ∧ feature.compile = .error error ∧
      error.placeholder = "c|d".toList ∧ error.columns = ["a".toList, "b".toList] ∧
      ∃ before block behind, feature.exampleBlocks = before ++ block :: behind ∧
        (∀ earlier ∈ before, earlier.Used → earlier.Complete) ∧
        block.Used ∧ ¬ block.Complete ∧ error.columns = block.columns := by
  have outcome : (parse .standard wantingText).toOption.map Feature.compile =
      some (.error ⟨"c|d".toList, ⟨4, 2⟩, ["a".toList, "b".toList]⟩) := by decide +kernel
  obtain ⟨feature, parsed, failed⟩ := exists_of_outcome outcome
  have found := (compile_iff_complete .standard wantingText feature parsed).2.1 _ failed
  exact ⟨feature, _, parsed, failed, rfl, rfl, found.2⟩

end Gherkin
