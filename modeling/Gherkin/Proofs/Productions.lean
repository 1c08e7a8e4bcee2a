import Gherkin.Grammar.Document
import Gherkin.Proofs.Layout

/-!
Productions.

The grammar of documents as derivations. A production relates the tokens it starts at, the tree it
stands for and the tokens it leaves. What a step may take is left open, so that the same derivations
serve the grammar proper, in which a doc string is all the lines of one block, and closer looks at
which block it is.

document   := tags? FEATURE NAME description background? definition* rule* EOF
rule       := tags? RULE NAME? description background? definition*
background := BACKGROUND NAME? description step*
definition := tags? (SCENARIO NAME? description step* | OUTLINE NAME? description step* examples*)
examples   := tags? EXAMPLES NAME? description table
step       := STEP NAME (table | docstring)?
table      := (PIPE (CELL? PIPE)* EOL)+
tags       := (TAG+ EOL)+
-/

namespace Gherkin

abbrev Production (α : Type) := List Token → α → List Token → Prop

section Repetition

variable {α : Type}

inductive Many (item : Production α) : Production (List α) where
  | nil {tokens : List Token} : Many item tokens [] tokens
  | cons {tokens middle rest : List Token} {value : α} {values : List α}
      (first : item tokens value middle) (others : Many item middle values rest) :
      Many item tokens (value :: values) rest

inductive Maybe (item : Production α) : Production (Option α) where
  | absent {tokens : List Token} : Maybe item tokens none tokens
  | present {tokens rest : List Token} {value : α} (here : item tokens value rest) :
      Maybe item tokens (some value) rest

end Repetition

inductive DerivesTagLine : Production (List Tag) where
  | last {tag eol : Token} {rest : List Token} (opens : tag.kind = .tag) (ends : eol.kind = .eol) :
      DerivesTagLine (tag :: eol :: rest) [⟨tag.text, tag.location⟩] rest
  | more {tag : Token} {tokens rest : List Token} {tags : List Tag} (opens : tag.kind = .tag)
      (others : DerivesTagLine tokens tags rest) :
      DerivesTagLine (tag :: tokens) (⟨tag.text, tag.location⟩ :: tags) rest

inductive DerivesTags : Production (List Tag) where
  | intro {tokens rest : List Token} {lines : List (List Tag)}
      (lined : Many DerivesTagLine tokens lines rest) : DerivesTags tokens lines.flatten rest

inductive DerivesName : Production Text where
  | intro {token : Token} {rest : List Token} (opens : token.kind = .name) :
      DerivesName (token :: rest) token.text rest

inductive DerivesOptionalName : Production Text where
  | absent {tokens : List Token} : DerivesOptionalName tokens [] tokens
  | present {tokens rest : List Token} {text : Text} (here : DerivesName tokens text rest) :
      DerivesOptionalName tokens text rest

inductive DerivesDescriptionLine : Production Text where
  | intro {token : Token} {rest : List Token} (opens : token.kind = .descriptionLine) :
      DerivesDescriptionLine (token :: rest) token.text rest

inductive DerivesHeading (keyword : BlockKeyword) (name : Production Text) : Production Heading where
  | intro {token : Token} {tokens middle rest : List Token} {text : Text} {lines : List Text}
      (opens : token.kind = .block keyword) (named : name tokens text middle)
      (described : Many DerivesDescriptionLine middle lines rest) :
      DerivesHeading keyword name (token :: tokens)
        ⟨token.keywordText, text, lines, token.location⟩ rest

/-- Cells up to the end of their row. An empty cell stands where the border in front of it does. -/
inductive DerivesCells : Location → Production (List TableCell) where
  | ending {border : Location} {eol : Token} {rest : List Token} (ends : eol.kind = .eol) :
      DerivesCells border (eol :: rest) [] rest
  | empty {border : Location} {pipe : Token} {tokens rest : List Token} {cells : List TableCell}
      (closes : pipe.kind = .pipe) (others : DerivesCells pipe.location tokens cells rest) :
      DerivesCells border (pipe :: tokens) (⟨[], border⟩ :: cells) rest
  | filled {border : Location} {cell pipe : Token} {tokens rest : List Token}
      {cells : List TableCell} (opens : cell.kind = .cell) (closes : pipe.kind = .pipe)
      (others : DerivesCells pipe.location tokens cells rest) :
      DerivesCells border (cell :: pipe :: tokens) (.ofToken cell :: cells) rest

inductive DerivesRow : Production TableRow where
  | intro {pipe : Token} {tokens rest : List Token} {cells : List TableCell}
      (opens : pipe.kind = .pipe) (filled : DerivesCells pipe.location tokens cells rest) :
      DerivesRow (pipe :: tokens) ⟨cells, pipe.location⟩ rest

inductive DerivesTable : Production DataTable where
  | intro {tokens rest : List Token} {row : TableRow} {rows : List TableRow}
      (filled : Many DerivesRow tokens (row :: rows) rest)
      (even : ∀ other ∈ rows, other.cells.length = row.cells.length) :
      DerivesTable tokens ⟨row :: rows, row.location⟩ rest

inductive DerivesDocString (block : Block) : Production DocString where
  | intro {lines rest : List Token} (verbatim : ∀ token ∈ lines, token.kind = .docStringLine)
      (whole : lines.map (·.location.line) =
        List.range' (block.location.line + 1) (block.stop - (block.location.line + 1))) :
      DerivesDocString block (lines ++ rest)
        ⟨lines.map fun token => DocString.unindent (block.location.column - 1) token.text,
          block.delimiter.text, block.location.column - 1, block.location⟩ rest

inductive DerivesArgument (blocks : List Block) : Production (Option StepArgument) where
  | absent {tokens : List Token} : DerivesArgument blocks tokens none tokens
  | table {tokens rest : List Token} {table : DataTable} (here : DerivesTable tokens table rest) :
      DerivesArgument blocks tokens (some (.dataTable table)) rest
  | docString {tokens rest : List Token} {block : Block} {doc : DocString}
      (known : block ∈ blocks) (here : DerivesDocString block tokens doc rest) :
      DerivesArgument blocks tokens (some (.docString doc)) rest

/-- What a grammar depends on besides tokens. What a step takes may depend on its name token. -/
structure Grammar where
  dialect : Dialect
  language : Text
  argument : Token → Production (Option StepArgument)

def Grammar.ofReader (reader : Reader) : Grammar where
  dialect := reader.mode.dialect
  language := reader.language
  argument _ := DerivesArgument reader.mode.blocks

namespace Grammar

/-- Steps after steps with the given keywords, the nearest first. The role of a step is that of the
nearest keyword, its own included, that is no conjunction. -/
inductive DerivesSteps (grammar : Grammar) : List StepKeyword → Production (List Step) where
  | nil {earlier : List StepKeyword} {tokens : List Token} : grammar.DerivesSteps earlier tokens [] tokens
  | cons {earlier : List StepKeyword} {token name : Token} {tokens middle rest : List Token}
      {keyword role : StepKeyword} {argument : Option StepArgument} {steps : List Step}
      (opens : token.kind = .step)
      (spelled : grammar.dialect.stepKeyword? token.text = some keyword)
      (plays : (keyword :: earlier).find? (fun other => !other.isConjunction) = some role)
      (named : name.kind = .name) (takes : grammar.argument name tokens argument middle)
      (others : grammar.DerivesSteps (keyword :: earlier) middle steps rest) :
      grammar.DerivesSteps earlier (token :: name :: tokens)
        (⟨token.text, role, name.text, argument, token.location⟩ :: steps) rest

variable (grammar : Grammar)

inductive DerivesBackground : Production Background where
  | intro {tokens middle rest : List Token} {heading : Heading} {steps : List Step}
      (headed : DerivesHeading .background DerivesOptionalName tokens heading middle)
      (filled : grammar.DerivesSteps [] middle steps rest) :
      DerivesBackground tokens { toHeading := heading, steps } rest

inductive DerivesScenario (keyword : BlockKeyword) : Production Scenario where
  | intro {tokens start middle rest : List Token} {tags : List Tag} {heading : Heading}
      {steps : List Step} (tagged : DerivesTags tokens tags start)
      (headed : DerivesHeading keyword DerivesOptionalName start heading middle)
      (filled : grammar.DerivesSteps [] middle steps rest) :
      DerivesScenario keyword tokens { toHeading := heading, tags, steps } rest

inductive DerivesExamples : Production Examples where
  | intro {tokens start middle rest : List Token} {tags : List Tag} {heading : Heading}
      {table : DataTable} (tagged : DerivesTags tokens tags start)
      (headed : DerivesHeading .examples DerivesOptionalName start heading middle)
      (filled : DerivesTable middle table rest)
      (distinct : ∀ header ∈ table.rows.head?, header.values.Nodup) :
      DerivesExamples tokens { toHeading := heading, tags, table } rest

inductive DerivesDefinition : Production Definition where
  | scenario {tokens rest : List Token} {scenario : Scenario}
      (here : grammar.DerivesScenario .scenario tokens scenario rest) :
      DerivesDefinition tokens (.scenario scenario) rest
  | outline {tokens middle rest : List Token} {scenario : Scenario} {examples : List Examples}
      (here : grammar.DerivesScenario .scenarioOutline tokens scenario middle)
      (filled : Many DerivesExamples middle examples rest) :
      DerivesDefinition tokens (.outline { toScenario := scenario, examples }) rest

inductive DerivesRule : Production Rule where
  | intro {tokens start middle later rest : List Token} {tags : List Tag} {heading : Heading}
      {background : Option Background} {children : List Definition}
      (tagged : DerivesTags tokens tags start)
      (headed : DerivesHeading .rule DerivesOptionalName start heading middle)
      (founded : Maybe grammar.DerivesBackground middle background later)
      (filled : Many grammar.DerivesDefinition later children rest) :
      DerivesRule tokens { toHeading := heading, tags, background, children } rest

inductive DerivesDocument : List Token → Feature → Prop where
  | intro {tokens start middle later last : List Token} {eof : Token} {tags : List Tag}
      {heading : Heading} {background : Option Background} {children : List Definition}
      {rules : List Rule} (tagged : DerivesTags tokens tags start)
      (headed : DerivesHeading .feature DerivesName start heading middle)
      (founded : Maybe grammar.DerivesBackground middle background later)
      (filled : Many grammar.DerivesDefinition later children last)
      (ruled : Many grammar.DerivesRule last rules [eof]) (ends : eof.kind = .eof) :
      DerivesDocument tokens
        { toHeading := heading, tags, background, children, rules, language := grammar.language }

end Grammar

def Spans (kinds : TokenKind → Prop) (tokens rest : List Token) : Prop :=
  ∃ taken, taken ++ rest = tokens ∧ ∀ token ∈ taken, kinds token.kind

namespace Spans

variable {kinds others : TokenKind → Prop} {tokens middle rest : List Token}

theorem refl (tokens : List Token) : Spans kinds tokens tokens :=
  ⟨[], rfl, by simp⟩

theorem trans (first : Spans kinds tokens middle) (second : Spans kinds middle rest) :
    Spans kinds tokens rest := by
  obtain ⟨left, joined, plain⟩ := first
  obtain ⟨right, further, others⟩ := second
  refine ⟨left ++ right, by rw [List.append_assoc, further, joined], ?_⟩
  intro token member
  rcases List.mem_append.mp member with here | there
  · exact plain token here
  · exact others token there

theorem cons {token : Token} (plain : kinds token.kind) (later : Spans kinds tokens rest) :
    Spans kinds (token :: tokens) rest := by
  refine trans ⟨[token], rfl, ?_⟩ later
  intro other member
  rw [List.mem_singleton.mp member]
  exact plain

theorem imp (spans : Spans kinds tokens rest) (only : ∀ kind, kinds kind → others kind) :
    Spans others tokens rest := by
  obtain ⟨taken, joined, plain⟩ := spans
  exact ⟨taken, joined, fun token member => only _ (plain token member)⟩

theorem suffix (spans : Spans kinds tokens rest) : rest <:+ tokens := by
  obtain ⟨taken, joined, _⟩ := spans
  exact ⟨taken, joined⟩

end Spans

def TokenKind.tagging (kind : TokenKind) : Prop :=
  kind = .tag ∨ kind = .eol

def TokenKind.isHeading : TokenKind → Bool
  | name | descriptionLine => true
  | _ => false

def TokenKind.tabular (kind : TokenKind) : Prop :=
  kind = .pipe ∨ kind = .cell ∨ kind = .eol

/-- Between two places in a document there is neither a step nor a line of a doc string. -/
def Passes (tokens rest : List Token) : Prop :=
  Spans (fun kind => kind ≠ .step ∧ kind ≠ .docStringLine) tokens rest

namespace Passes

variable {tokens middle rest : List Token}

theorem refl (tokens : List Token) : Passes tokens tokens :=
  Spans.refl tokens

theorem trans (first : Passes tokens middle) (second : Passes middle rest) : Passes tokens rest :=
  Spans.trans first second

theorem cons {token : Token} (plain : token.kind ≠ .step ∧ token.kind ≠ .docStringLine)
    (later : Passes tokens rest) : Passes (token :: tokens) rest :=
  Spans.cons plain later

theorem suffix (passes : Passes tokens rest) : rest <:+ tokens :=
  Spans.suffix passes

end Passes

theorem Spans.passes_of_tagging {tokens rest : List Token}
    (spans : Spans TokenKind.tagging tokens rest) : Passes tokens rest := by
  apply spans.imp
  rintro kind (rfl | rfl) <;> simp

theorem Spans.passes_of_tabular {tokens rest : List Token}
    (spans : Spans TokenKind.tabular tokens rest) : Passes tokens rest := by
  apply spans.imp
  rintro kind (rfl | rfl | rfl) <;> simp

section Taking

variable {α : Type} {item : Production α} {tokens rest : List Token}

theorem Many.spans {kinds : TokenKind → Prop} {values : List α}
    (once : ∀ {tokens value rest}, item tokens value rest → Spans kinds tokens rest)
    (derived : Many item tokens values rest) : Spans kinds tokens rest := by
  induction derived with
  | nil => exact .refl _
  | cons first _ ih => exact (once first).trans ih

theorem Many.passes {values : List α}
    (once : ∀ {tokens value rest}, item tokens value rest → Passes tokens rest)
    (derived : Many item tokens values rest) : Passes tokens rest :=
  derived.spans once

theorem Many.exists_of_mem {values : List α} (derived : Many item tokens values rest)
    (takes : ∀ {tokens value rest}, item tokens value rest → rest <:+ tokens) {value : α}
    (member : value ∈ values) : ∃ start stop, start <:+ tokens ∧ item start value stop := by
  induction derived with
  | nil => cases member
  | @cons tokens middle rest first values here others ih =>
      rcases List.mem_cons.mp member with rfl | later
      · exact ⟨tokens, middle, List.suffix_refl _, here⟩
      · obtain ⟨start, stop, within, found⟩ := ih later
        exact ⟨start, stop, within.trans (takes here), found⟩

/-- No more items than tokens. -/
theorem Many.length_le {values : List α}
    (once : ∀ {tokens value rest}, item tokens value rest → rest.length < tokens.length)
    (derived : Many item tokens values rest) : values.length + rest.length ≤ tokens.length := by
  induction derived with
  | nil => simp
  | cons first _ ih =>
      have shorter := once first
      rw [List.length_cons]
      omega

end Taking

variable {tokens rest : List Token}

theorem DerivesTagLine.spans {tags : List Tag} (derived : DerivesTagLine tokens tags rest) :
    Spans TokenKind.tagging tokens rest := by
  induction derived with
  | last opens ends => exact .cons (.inl opens) (.cons (.inr ends) (.refl _))
  | more opens _ ih => exact .cons (.inl opens) ih

theorem DerivesTags.spans {tags : List Tag} (derived : DerivesTags tokens tags rest) :
    Spans TokenKind.tagging tokens rest := by
  cases derived with
  | intro lined => exact lined.spans DerivesTagLine.spans

theorem DerivesTags.passes {tags : List Tag} (derived : DerivesTags tokens tags rest) :
    Passes tokens rest :=
  derived.spans.passes_of_tagging

theorem DerivesName.passes {text : Text} (derived : DerivesName tokens text rest) :
    Passes tokens rest := by
  cases derived with
  | intro opens => exact .cons (by simp [opens]) (.refl _)

theorem DerivesOptionalName.passes {text : Text} (derived : DerivesOptionalName tokens text rest) :
    Passes tokens rest := by
  cases derived with
  | absent => exact .refl _
  | present here => exact here.passes

theorem DerivesDescriptionLine.passes {text : Text}
    (derived : DerivesDescriptionLine tokens text rest) : Passes tokens rest := by
  cases derived with
  | intro opens => exact .cons (by simp [opens]) (.refl _)

section Heading

variable {keyword : BlockKeyword} {name : Production Text} {heading : Heading}

theorem DerivesHeading.passes
    (once : ∀ {tokens text rest}, name tokens text rest → Passes tokens rest)
    (derived : DerivesHeading keyword name tokens heading rest) : Passes tokens rest := by
  cases derived with
  | intro opens named described =>
      refine .cons (by simp [opens]) ((once named).trans ?_)
      exact described.passes DerivesDescriptionLine.passes

theorem DerivesHeading.length_lt
    (once : ∀ {tokens text rest}, name tokens text rest → Passes tokens rest)
    (derived : DerivesHeading keyword name tokens heading rest) : rest.length < tokens.length := by
  cases derived with
  | intro opens named described =>
      have described := (described.passes DerivesDescriptionLine.passes).suffix.length_le
      have named := (once named).suffix.length_le
      rw [List.length_cons]
      omega

end Heading

theorem DerivesDescriptionLine.headed {line : Text}
    (derived : DerivesDescriptionLine tokens line rest) :
    Spans (fun kind => kind.isHeading = true) tokens rest := by
  cases derived with
  | intro opens => exact .cons (by rw [opens]; rfl) (.refl _)

/-- Behind its keyword a heading has a name and a description. -/
theorem DerivesHeading.headed {keyword : BlockKeyword} {heading : Heading}
    (derived : DerivesHeading keyword DerivesOptionalName tokens heading rest) :
    ∃ head between, tokens = head :: (between ++ rest) ∧ head.kind = .block keyword ∧
      ∀ token ∈ between, token.kind.isHeading = true := by
  cases derived with
  | @intro token tokens middle rest text lines opens named described =>
      have spans : Spans (fun kind => kind.isHeading = true) tokens middle := by
        cases named with
        | absent => exact .refl _
        | present here =>
            cases here with
            | intro opens => exact .cons (by rw [opens]; rfl) (.refl _)
      obtain ⟨between, split, plain⟩ :=
        spans.trans (described.spans DerivesDescriptionLine.headed)
      exact ⟨token, between, by rw [split], opens, plain⟩

theorem DerivesCells.spans {border : Location} {cells : List TableCell}
    (derived : DerivesCells border tokens cells rest) : Spans TokenKind.tabular tokens rest := by
  induction derived with
  | ending ends => exact .cons (.inr (.inr ends)) (.refl _)
  | empty closes _ ih => exact .cons (.inl closes) ih
  | filled opens closes _ ih => exact .cons (.inr (.inl opens)) (.cons (.inl closes) ih)

theorem DerivesCells.passes {border : Location} {cells : List TableCell}
    (derived : DerivesCells border tokens cells rest) : Passes tokens rest :=
  derived.spans.passes_of_tabular

theorem DerivesRow.spans {row : TableRow} (derived : DerivesRow tokens row rest) :
    Spans TokenKind.tabular tokens rest := by
  cases derived with
  | intro opens filled => exact .cons (.inl opens) filled.spans

theorem DerivesRow.passes {row : TableRow} (derived : DerivesRow tokens row rest) :
    Passes tokens rest :=
  derived.spans.passes_of_tabular

theorem DerivesRow.length_lt {row : TableRow} (derived : DerivesRow tokens row rest) :
    rest.length < tokens.length := by
  cases derived with
  | intro opens filled => exact Nat.lt_succ_of_le filled.passes.suffix.length_le

theorem DerivesTable.spans {table : DataTable} (derived : DerivesTable tokens table rest) :
    Spans TokenKind.tabular tokens rest := by
  cases derived with
  | intro filled even => exact filled.spans DerivesRow.spans

theorem DerivesTable.passes {table : DataTable} (derived : DerivesTable tokens table rest) :
    Passes tokens rest :=
  derived.spans.passes_of_tabular

theorem DerivesDocString.lines {block : Block} {doc : DocString}
    (derived : DerivesDocString block tokens doc rest) :
    ∃ lines, tokens = lines ++ rest ∧ (∀ token ∈ lines, token.kind = .docStringLine) ∧
      lines.map (·.location.line) =
        List.range' (block.location.line + 1) (block.stop - (block.location.line + 1)) ∧
      doc = ⟨lines.map fun token => DocString.unindent (block.location.column - 1) token.text,
        block.delimiter.text, block.location.column - 1, block.location⟩ := by
  cases derived with
  | intro verbatim whole => exact ⟨_, rfl, verbatim, whole, rfl⟩

theorem DerivesArgument.suffix {blocks : List Block} {argument : Option StepArgument}
    (derived : DerivesArgument blocks tokens argument rest) : rest <:+ tokens := by
  cases derived with
  | absent => exact List.suffix_refl _
  | table here => exact here.passes.suffix
  | docString known here =>
      cases here with
      | intro => exact List.suffix_append _ _

theorem Grammar.suffix_ofReader {reader : Reader} {name : Token} {argument : Option StepArgument}
    (taken : (Grammar.ofReader reader).argument name tokens argument rest) : rest <:+ tokens :=
  DerivesArgument.suffix taken

namespace Grammar

variable {grammar : Grammar}
  (takes : ∀ {name tokens argument rest}, grammar.argument name tokens argument rest → rest <:+ tokens)

theorem DerivesExamples.length_lt {examples : Examples}
    (derived : DerivesExamples tokens examples rest) : rest.length < tokens.length := by
  cases derived with
  | intro tagged headed filled _ =>
      have filled := filled.passes.suffix.length_le
      have headed := headed.length_lt DerivesOptionalName.passes
      have tagged := tagged.passes.suffix.length_le
      omega

theorem DerivesExamples.passes {examples : Examples}
    (derived : DerivesExamples tokens examples rest) : Passes tokens rest := by
  cases derived with
  | intro tagged headed filled _ =>
      exact (tagged.passes.trans (headed.passes DerivesOptionalName.passes)).trans filled.passes

include takes

theorem DerivesSteps.suffix {earlier : List StepKeyword} {steps : List Step}
    (derived : grammar.DerivesSteps earlier tokens steps rest) : rest <:+ tokens := by
  induction derived with
  | nil => exact List.suffix_refl _
  | cons _ _ _ _ taken _ ih =>
      exact ih.trans ((takes taken).trans ((List.suffix_cons _ _).trans (List.suffix_cons _ _)))

theorem DerivesBackground.suffix {background : Background}
    (derived : grammar.DerivesBackground tokens background rest) : rest <:+ tokens := by
  cases derived with
  | intro headed filled =>
      exact (filled.suffix takes).trans (headed.passes DerivesOptionalName.passes).suffix

theorem DerivesScenario.suffix {keyword : BlockKeyword} {scenario : Scenario}
    (derived : grammar.DerivesScenario keyword tokens scenario rest) :
    rest <:+ tokens ∧ rest.length < tokens.length := by
  cases derived with
  | intro tagged headed filled =>
      have filled := filled.suffix takes
      have shorter := headed.length_lt DerivesOptionalName.passes
      have tagged := tagged.passes.suffix
      refine ⟨(filled.trans (headed.passes DerivesOptionalName.passes).suffix).trans tagged, ?_⟩
      have filled := filled.length_le
      have tagged := tagged.length_le
      omega

theorem DerivesDefinition.suffix {definition : Definition}
    (derived : grammar.DerivesDefinition tokens definition rest) :
    rest <:+ tokens ∧ rest.length < tokens.length := by
  cases derived with
  | scenario here => exact here.suffix takes
  | outline here listed =>
      obtain ⟨here, shorter⟩ := here.suffix takes
      have listed := (listed.passes DerivesExamples.passes).suffix
      exact ⟨listed.trans here, Nat.lt_of_le_of_lt listed.length_le shorter⟩

theorem suffix_of_definitions {definitions : List Definition}
    (derived : Many grammar.DerivesDefinition tokens definitions rest) : rest <:+ tokens := by
  induction derived with
  | nil => exact List.suffix_refl _
  | cons first _ ih => exact ih.trans (first.suffix takes).1

theorem suffix_of_background {background : Option Background}
    (derived : Maybe grammar.DerivesBackground tokens background rest) : rest <:+ tokens := by
  cases derived with
  | absent => exact List.suffix_refl _
  | present here => exact here.suffix takes

theorem DerivesRule.suffix {rule : Rule} (derived : grammar.DerivesRule tokens rule rest) :
    rest <:+ tokens ∧ rest.length < tokens.length := by
  cases derived with
  | intro tagged headed founded filled =>
      have filled := suffix_of_definitions takes filled
      have founded := suffix_of_background takes founded
      have shorter := headed.length_lt DerivesOptionalName.passes
      have headed := (headed.passes DerivesOptionalName.passes).suffix
      have tagged := tagged.passes.suffix
      refine ⟨((filled.trans founded).trans headed).trans tagged, ?_⟩
      have filled := filled.length_le
      have founded := founded.length_le
      have tagged := tagged.length_le
      omega

end Grammar

end Gherkin
