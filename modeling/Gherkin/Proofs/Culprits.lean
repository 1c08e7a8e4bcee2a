import Gherkin.Proofs.Placeholders

/-!
Where the texts of an outline stand.

The name of an outline or a step stands on the line of its keyword, a line of a doc string on a line of
the block, and the value of a cell is decoded from the place where the cell stands. A compile error
bears the place of such a text, so it points at the placeholder that has no column.
-/

namespace Gherkin

theorem Joins.sameLine {left right : Token} (joins : Joins left right)
    (inner : left.kind.closesLine = false ∨ right.kind.opensLine = false) :
    left.location.line = right.location.line := by
  rcases joins with ⟨same, _⟩ | ⟨closes, opens⟩
  · exact same
  · rcases inner with left | right
    · rw [closes] at left
      cases left
    · rw [opens] at right
      cases right

theorem sameLine_of_name {keyword name : Token} {start tokens : List Token}
    (chain : tokens.IsChain Joins) (within : keyword :: name :: start <:+ tokens)
    (named : name.kind = .name) : keyword.location.line = name.location.line := by
  have joins := (List.isChain_cons_cons.mp (chain.suffix within)).1
  exact joins.sameLine (Or.inr (by rw [named]; rfl))

/-- All cells of a row stand on the line of its opening border. -/
theorem DerivesCells.sameLine {border : Location} {pipe : Token} {tokens rest : List Token}
    {cells : List TableCell} (derived : DerivesCells border tokens cells rest)
    (opens : pipe.kind = .pipe) (here : border.line = pipe.location.line)
    (chain : (pipe :: tokens).IsChain Joins) :
    ∀ cell ∈ cells, cell.location.line = pipe.location.line := by
  induction derived generalizing pipe with
  | ending => simp
  | @empty border next tokens rest cells closes others ih =>
      obtain ⟨joins, further⟩ := List.isChain_cons_cons.mp chain
      have line := joins.sameLine (Or.inl (by rw [opens]; rfl))
      intro cell member
      rcases List.mem_cons.mp member with rfl | later
      · exact here
      · exact (ih closes rfl further cell later).trans line.symm
  | @filled border raw next tokens rest cells inner closes others ih =>
      obtain ⟨joins, further⟩ := List.isChain_cons_cons.mp chain
      obtain ⟨after, further⟩ := List.isChain_cons_cons.mp further
      have line := joins.sameLine (Or.inl (by rw [opens]; rfl))
      have behind := after.sameLine (Or.inl (by rw [inner]; rfl))
      intro cell member
      rcases List.mem_cons.mp member with rfl | later
      · exact line.symm
      · exact (ih closes rfl further cell later).trans (line.trans behind).symm

def Text.IsRow (line : Text) : Prop :=
  ∃ margin behind, line = margin ++ '|' :: behind ∧ ∀ c ∈ margin, isSpace c = true

theorem Text.Has.inner {text gap part behind : Text} {place : Location}
    (has : text.Has place (gap ++ part ++ behind)) : text.Has (place.shift gap.length) part := by
  obtain ⟨before, rest, line, column⟩ := has
  refine ⟨before ++ gap, behind ++ rest, ?_, ?_⟩
  · simpa [Location.shift] using line
  · simp [Location.shift, column]
    omega

/-- Only rows have borders and cells, which are what borders can follow. -/
theorem Line.shape_of_precedes {line : Line} {shape : Shape} {tokens : List Token} {token : Token}
    (read : line.tokens shape = .ok tokens) (member : token ∈ tokens)
    (inner : token.kind.precedes .pipe = true) : shape = .row := by
  cases shape with
  | row => rfl
  | blank | delimiter =>
      cases read
      cases member
  | comment | description =>
      cases read
      rw [List.mem_singleton.mp member] at inner
      cases inner
  | tags =>
      rw [tagTokens_eq_ok line tokens read] at member
      rcases List.mem_append.mp member with tag | final
      · obtain ⟨word, _, rfl⟩ := List.mem_map.mp tag
        cases inner
      · rw [List.mem_singleton.mp final] at inner
        cases inner
  | block | step =>
      cases read
      rcases kind_of_mem_keywordTokens member with same | name
      · rw [same] at inner
        cases inner
      · rw [name] at inner
        cases inner

theorem Mode.Step.isRow {setup : Setup} {mode after : Mode} {line : Line} {tokens : List Token}
    (step : Step setup mode line tokens after) {token : Token} (member : token ∈ tokens)
    (cell : token.kind = .cell) : line.raw.IsRow := by
  cases step with
  | closing | blank | opening => cases member
  | verbatim | comment | header =>
      rw [List.mem_singleton.mp member] at cell
      cases cell
  | content _ _ _ read =>
      have fits := Line.fits_shape setup.settings.fenced mode.dialect line
      rw [Line.shape_of_precedes read member (by rw [cell]; rfl)] at fits
      obtain ⟨rest, body⟩ := fits
      refine ⟨line.content.takeWhile Text.isSpace, rest ++ line.ending.text, ?_, ?_⟩
      · rw [Line.raw_eq, body]
        simp
      · exact fun c inside => List.mem_takeWhile_imp inside

/-- A cell as it stands in a text: on the line of its row, and with its value spelled at its place. -/
structure TableCell.StandsIn (text : Text) (row : TableRow) (cell : TableCell) : Prop where
  border : ∃ line, text.line? cell.location.line = some line ∧ line.IsRow
  sameLine : row.location.line = cell.location.line
  spelled : ∃ raw, text.Has cell.location raw ∧ cell.value = TableCell.unescape raw

section Whole

variable {setup : Setup} {text : Text} {tokens : List Token} {last : Mode}
  (reads : Mode.Reads setup (.initial setup) (Line.split text) tokens (.ok last))

include reads

theorem isRow_of_reads {token : Token} (member : token ∈ tokens) (cell : token.kind = .cell) :
    ∃ line, text.line? token.location.line = some line ∧ line.IsRow := by
  obtain ⟨before, line, own, after, inText, here, step, _⟩ :=
    reads.run.1.step_of_mem setup.known member
  refine ⟨line.raw, ?_, step.isRow here cell⟩
  rw [step.onLine.line token here]
  exact Line.line?_of_mem inText

theorem ofToken_has {token : Token} (member : token ∈ tokens) (cell : token.kind = .cell) :
    ∃ raw, text.Has (TableCell.ofToken token).location raw ∧
      (TableCell.ofToken token).value = TableCell.unescape raw := by
  have has := has_of_reads reads member (by simp [cell])
  obtain ⟨dropped, split, _⟩ :=
    Text.dropTrailing_append Text.isBlank (token.text.dropWhile Text.isBlank)
  have spread : text.Has token.location (token.text.takeWhile Text.isBlank ++
      Text.dropTrailing Text.isBlank (token.text.dropWhile Text.isBlank) ++ dropped) := by
    rw [List.append_assoc, ← split, List.takeWhile_append_dropWhile]
    exact has
  exact ⟨_, spread.inner, rfl⟩

theorem standsIn_of_table {start rest : List Token} {table : DataTable}
    (within : start <:+ presented text tokens)
    (derived : DerivesTable start table rest) {row : TableRow} (listed : row ∈ table.rows)
    {cell : TableCell} (inside : cell ∈ row.cells) (filled : cell.value ≠ []) :
    cell.StandsIn text row := by
  have chain := (layout_of_reads reads).chain
  cases derived with
  | intro rows _ =>
      obtain ⟨first, stop, among, here⟩ := rows.exists_of_mem (fun row => row.passes.suffix) listed
      cases here with
      | @intro pipe tokens _ cells opens cellsDerived =>
          have line := cellsDerived.sameLine opens rfl (chain.suffix (among.trans within)) cell inside
          rcases cellsDerived.source cell inside with empty | ⟨token, held, kind, rfl⟩
          · exact absurd empty filled
          · have shown := (among.trans within).subset (List.mem_cons_of_mem pipe held)
            have member := mem_of_mem_presented shown (by simp [kind])
            exact ⟨isRow_of_reads reads member kind, line.symm, ofToken_has reads member kind⟩

theorem line?_of_docString {start rest : List Token} {block : Block} {doc : DocString}
    (within : start <:+ presented text tokens)
    (derived : DerivesDocString block start doc rest) {site : Site} (listed : site ∈ doc.sites) :
    ∃ line, text.line? site.location.line = some line ∧ site.text <:+: line := by
  obtain ⟨lines, rfl, verbatim, whole, rfl⟩ := derived.lines
  obtain ⟨index, inside, rfl⟩ := List.mem_mapIdx.mp listed
  have bound : index < lines.length := by simpa using inside
  have kind := verbatim lines[index] (List.getElem_mem bound)
  have shown : lines[index] ∈ presented text tokens :=
    within.subset (List.mem_append_left rest (List.getElem_mem bound))
  have found := line?_of_reads reads (mem_of_mem_presented shown (by simp [kind])) kind
  have number : lines[index].location.line = block.location.line + index + 1 := by
    rw [number_of_range' whole bound]
    omega
  rw [number] at found
  refine ⟨lines[index].text, found, ?_⟩
  simpa using (DocString.unindent_suffix _ lines[index].text).isInfix

theorem line?_of_name {keyword name : Token} {start : List Token}
    (within : keyword :: name :: start <:+ presented text tokens) (named : name.kind = .name) :
    ∃ line, text.line? keyword.location.line = some line ∧ name.text <:+: line := by
  have shown : name ∈ presented text tokens := within.subset (by simp)
  have member := mem_of_mem_presented shown (by simp [named])
  obtain ⟨before, behind, line, _⟩ := has_of_reads reads member (by simp [named])
  rw [sameLine_of_name (layout_of_reads reads).chain within named]
  exact ⟨_, line, before, behind, rfl⟩

/-- The name of a heading stands on the line of its keyword. -/
theorem line?_of_heading {keyword : BlockKeyword} {heading : Heading} {grammar : Grammar}
    (derived : (Part.heading keyword heading).Derived grammar (presented text tokens))
    (filled : heading.name ≠ []) :
    ∃ line, text.line? heading.location.line = some line ∧ heading.name <:+: line := by
  cases derived with
  | heading within headed =>
      cases headed with
      | intro opens named described =>
          cases named with
          | absent => exact absurd rfl filled
          | present here =>
              cases here with
              | intro kind => exact line?_of_name reads within kind

/-- A text of a step is copied from its line, or it is the value of a cell. -/
theorem source_of_step {grammar : Grammar} {step : Step} {blocks : List Block}
    (known : ∀ {name tokens argument rest}, grammar.argument name tokens argument rest →
      DerivesArgument blocks tokens argument rest)
    (derived : (Part.step step).Derived grammar (presented text tokens)) {site : Site}
    (listed : site ∈ step.sites) (filled : site.text ≠ []) :
    (∃ line, text.line? site.location.line = some line ∧ site.text <:+: line) ∨
      ∃ table, step.argument = some (.dataTable table) ∧ ∃ row ∈ table.rows, ∃ cell ∈ row.cells,
        site = cell.site ∧ cell.StandsIn text row := by
  cases derived with
  | @step token name start rest role argument within opens named takes =>
      have behind : start <:+ presented text tokens :=
        ((List.suffix_cons name start).trans (List.suffix_cons token _)).trans within
      rcases List.mem_cons.mp listed with rfl | inner
      · exact Or.inl (line?_of_name reads within named)
      · cases known takes with
        | absent => cases inner
        | @table _ _ table here =>
            obtain ⟨row, among, inside⟩ := List.mem_flatMap.mp inner
            obtain ⟨cell, held, rfl⟩ := List.mem_map.mp inside
            exact Or.inr ⟨table, rfl, row, among, cell, held, rfl,
              standsIn_of_table reads behind here among held filled⟩
        | docString _ here => exact Or.inl (line?_of_docString reads behind here inner)

end Whole

/-- The error of an outline that does not compile bears the place of its placeholder: the line holds it
literally, or it is a row with a cell at that place whose value holds it. -/
theorem culprit_of_compile (setup : Setup) (text : Text) (feature : Feature) (error : CompileError)
    (parsed : parse setup text = .ok feature) (failed : feature.compile = .error error) :
    ∃ line, text.line? error.location.line = some line ∧
      ((Piece.placeholder error.placeholder).text <:+: line ∨
        line.IsRow ∧ ∃ block ∈ feature.exampleBlocks, ∃ step ∈ block.outline.steps, ∃ table,
          step.argument = some (.dataTable table) ∧ ∃ row ∈ table.rows, ∃ cell ∈ row.cells,
            (Piece.placeholder error.placeholder).text <:+: cell.value ∧
            cell.location = error.location ∧ cell.StandsIn text row) := by
  obtain ⟨before, block, behind, split, failure, _⟩ := failure?_of_compile failed
  have member : block ∈ feature.exampleBlocks := by simp [split]
  obtain ⟨_, _, _, site, listed, place, _, mentioned⟩ :=
    ExampleBlock.failure?_eq_some (ExampleBlock.even_of_parse parsed member) failure
  obtain ⟨tokens, last, reads, blocks, derived, _⟩ := parts_of_parse parsed
  have outline := (Feature.outline_of_mem_exampleBlocks member).1
  -- A text that holds a placeholder is not empty, and so it comes from a line.
  have filled : site.text ≠ [] := by
    intro empty
    rw [empty] at mentioned
    simp at mentioned
  rw [← place]
  rcases List.mem_append.mp listed with stepped | named
  · obtain ⟨step, among, inside⟩ := List.mem_flatMap.mp stepped
    have held : .step step ∈ feature.parts := by
      apply Feature.mem_parts_of_outline outline
      apply List.mem_append_left
      exact List.mem_cons_of_mem _ (List.mem_map_of_mem among)
    rcases source_of_step reads (fun takes => takes) (derived _ held) inside filled with
      ⟨line, found, copied⟩ | ⟨table, taken, row, rowHeld, cell, cellHeld, rfl, stands⟩
    · exact ⟨line, found, Or.inl (mentioned.trans copied)⟩
    · obtain ⟨line, found, isRow⟩ := stands.border
      exact ⟨line, found, Or.inr ⟨isRow, block, member, step, among, table, taken, row, rowHeld, cell,
        cellHeld, mentioned, rfl, stands⟩⟩
  · have held : .heading .scenarioOutline block.outline.toHeading ∈ feature.parts := by
      apply Feature.mem_parts_of_outline outline
      exact List.mem_append_left _ List.mem_cons_self
    rw [List.mem_singleton.mp named] at mentioned filled ⊢
    obtain ⟨line, found, copied⟩ := line?_of_heading reads (derived _ held) filled
    exact ⟨line, found, Or.inl (mentioned.trans copied)⟩

def hiddenText : Text :=
  "Feature: f\n  Scenario Outline: o\n    Given a\n      \"\"\"\n    # n\n\n  | <b> |\n      \"\"\"\n    Examples:\n      | a |\n      | 1 |\n".toList

def escapedText : Text :=
  "Feature: f\n  Scenario Outline: o\n    Given a\n      | x | <a\\|b> |\n    Examples:\n      | a |\n      | 1 |\n".toList

theorem culprit_hiddenText :
    (∃ feature error line, parse .standard hiddenText = .ok feature ∧
      feature.compile = .error error ∧ error.location = ⟨7, 7⟩ ∧ hiddenText.line? 7 = some line ∧
      ((Piece.placeholder error.placeholder).text <:+: line ∨ line.IsRow)) ∧
    ∃ feature error, parse .standard escapedText = .ok feature ∧
      feature.compile = .error error ∧ error.placeholder = "a|b".toList ∧
      ∃ block ∈ feature.exampleBlocks, ∃ step ∈ block.outline.steps, ∃ table,
        step.argument = some (.dataTable table) ∧ ∃ row ∈ table.rows, ∃ cell ∈ row.cells,
          "<a|b>".toList <:+: cell.value ∧ cell.location = ⟨4, 13⟩ ∧ cell.StandsIn escapedText row := by
  have hidden : (parse .standard hiddenText).toOption.map Feature.compile =
      some (.error ⟨['b'], ⟨7, 7⟩, [['a']]⟩) := by decide +kernel
  have escaped : (parse .standard escapedText).toOption.map Feature.compile =
      some (.error ⟨['a', '|', 'b'], ⟨4, 13⟩, [['a']]⟩) := by decide +kernel
  constructor
  · obtain ⟨feature, parsed, failed⟩ := exists_of_outcome hidden
    obtain ⟨line, found, shown⟩ := culprit_of_compile .standard hiddenText feature _ parsed failed
    exact ⟨feature, _, line, parsed, failed, rfl, found, shown.imp id And.left⟩
  · obtain ⟨feature, parsed, failed⟩ := exists_of_outcome escaped
    obtain ⟨line, found, shown⟩ := culprit_of_compile .standard escapedText feature _ parsed failed
    refine ⟨feature, _, parsed, failed, rfl, ?_⟩
    rcases shown with literal | ⟨_, cell⟩
    · -- The line spells the name with an escape, so it does not hold the placeholder as it is.
      have row : escapedText.line? 4 = some "      | x | <a\\|b> |\n".toList := by decide +kernel
      cases row.symm.trans found
      exact absurd literal (by decide +kernel)
    · exact cell

end Gherkin
