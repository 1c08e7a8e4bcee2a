import Gherkin.Proofs.Contents
import Gherkin.Proofs.Soundness
import Mathlib.Data.List.Sort

/-!
Which doc strings a feature keeps.

A step takes the first block that opens after it and before the next token. The blocks taken so are
read off the tokens by `attached`, and a feature has exactly these as its doc strings, in their
order. Every block with a line is among them. An empty block leaves no token behind, so one that
opens anywhere else goes unnoticed: the document is accepted, and the block is lost.
-/

namespace Gherkin

/-- What a block and a doc string have in common. -/
def Block.label (block : Block) : Location × Text :=
  (block.location, block.delimiter.text)

def DocString.label (doc : DocString) : Location × Text :=
  (doc.location, doc.delimiter)

open Transcript (openedAfter openedAfter_eq_some)

/-- The blocks that open first after a step and before the next token. -/
def attached (blocks : List Block) : List Token → List Block
  | token :: name :: rest =>
      (if token.kind = .step ∧ name.kind = .name then (openedAfter blocks name rest).toList else []) ++
        attached blocks (name :: rest)
  | _ => []

def Block.numbers (block : Block) : List Nat :=
  List.range' (block.location.line + 1) (block.stop - (block.location.line + 1))

/-- The numbers of all lines that some doc string has. -/
def verbatim (tokens : List Token) : List Nat :=
  (tokens.filter fun token => token.kind = .docStringLine).map (·.location.line)

section Attached

variable {blocks : List Block} {tokens rest : List Token}

theorem attached_cons {token : Token} (other : token.kind ≠ .step) :
    attached blocks (token :: rest) = attached blocks rest := by
  cases rest with
  | nil => rfl
  | cons name rest => simp [attached, other]

theorem attached_step {token name : Token} (opens : token.kind = .step) (named : name.kind = .name) :
    attached blocks (token :: name :: rest) =
      (openedAfter blocks name rest).toList ++ attached blocks rest := by
  rw [attached, if_pos ⟨opens, named⟩, attached_cons (by simp [named])]

theorem attached_append {taken : List Token} (plain : ∀ token ∈ taken, token.kind ≠ .step) :
    attached blocks (taken ++ rest) = attached blocks rest := by
  induction taken with
  | nil => rfl
  | cons token taken ih =>
      obtain ⟨first, others⟩ := List.forall_mem_cons.mp plain
      rw [List.cons_append, attached_cons first, ih others]

/-- A block that a step takes opens after some token. -/
theorem opened_of_mem_attached {block : Block} (member : block ∈ attached blocks tokens) :
    block ∈ blocks ∧ ∃ token ∈ tokens, token.location.line < block.location.line := by
  induction tokens with
  | nil => cases member
  | cons token tokens ih =>
      cases tokens with
      | nil => cases member
      | cons name rest =>
          rcases List.mem_append.mp member with here | there
          · split at here
            · obtain ⟨_, _, _, known, after, _⟩ := openedAfter_eq_some (Option.mem_toList.mp here)
              exact ⟨known, name, by simp, after⟩
            · cases here
          · obtain ⟨known, other, position, before⟩ := ih there
            exact ⟨known, other, List.mem_cons_of_mem token position, before⟩

theorem pairwise_attached (rises : tokens.Pairwise Mode.Rises) :
    (attached blocks tokens).Pairwise fun left right => left.location.line < right.location.line := by
  induction tokens with
  | nil => exact List.Pairwise.nil
  | cons token tokens ih =>
      cases tokens with
      | nil => exact List.Pairwise.nil
      | cons name rest =>
          obtain ⟨_, later⟩ := List.pairwise_cons.mp rises
          refine List.pairwise_append.mpr ⟨?_, ih later, ?_⟩
          · split
            · cases openedAfter blocks name rest <;> simp
            · exact List.Pairwise.nil
          · intro block here other there
            split at here
            · rename_i kinds
              -- The block opens before the next token, and all others after that token or later.
              obtain ⟨next, more, rfl, _, _, ahead⟩ :=
                openedAfter_eq_some (Option.mem_toList.mp here)
              rw [attached_cons (by simp [kinds.2])] at there
              obtain ⟨_, behind, position, before⟩ := opened_of_mem_attached there
              obtain ⟨rises, _⟩ := List.pairwise_cons.mp (List.pairwise_cons.mp later).2
              rcases List.mem_cons.mp position with rfl | position
              · omega
              · have order := (rises behind position).1
                omega
            · cases here

end Attached

/-! A derivation goes through the tokens from step to step, and at each one takes the block attached there.
Nothing else takes a block. -/

/-- The blocks attached between two places are those of the given doc strings and have all the lines
that lie there. -/
structure Accounts (blocks : List Block) (tokens : List Token) (docs : List DocString)
    (rest : List Token) : Prop where
  blocks : ∃ found, attached blocks tokens = found ++ attached blocks rest ∧
    found.map Block.label = docs.map DocString.label ∧
    verbatim tokens = found.flatMap Block.numbers ++ verbatim rest

section Accounting

variable {blocks : List Block} {tokens middle rest : List Token}

theorem Accounts.trans {docs others : List DocString} (first : Accounts blocks tokens docs middle)
    (second : Accounts blocks middle others rest) : Accounts blocks tokens (docs ++ others) rest := by
  obtain ⟨left, leftTaken, leftSame, leftLines⟩ := first
  obtain ⟨right, rightTaken, rightSame, rightLines⟩ := second
  refine ⟨left ++ right, ?_, ?_, ?_⟩
  · rw [leftTaken, rightTaken, List.append_assoc]
  · rw [List.map_append, List.map_append, leftSame, rightSame]
  · rw [leftLines, rightLines, List.flatMap_append, List.append_assoc]

theorem Passes.accounts (passes : Passes tokens rest) : Accounts blocks tokens [] rest := by
  obtain ⟨taken, rfl, plain⟩ := passes
  refine ⟨[], attached_append fun token member => (plain token member).1, rfl, ?_⟩
  have none : taken.filter (fun token => token.kind = .docStringLine) = [] := by
    apply List.filter_eq_nil_iff.mpr
    intro token member
    simpa using (plain token member).2
  simp [verbatim, none]

theorem DerivesDocString.verbatim_eq (blocks : List Block) {block : Block} {doc : DocString}
    (derived : DerivesDocString block tokens doc rest) :
    attached blocks tokens = attached blocks rest ∧ doc.label = block.label ∧
      verbatim tokens = block.numbers ++ verbatim rest := by
  obtain ⟨lines, rfl, kinds, whole, rfl⟩ := derived.lines
  refine ⟨attached_append fun token member => by simp [kinds token member], rfl, ?_⟩
  have all : lines.filter (fun token => token.kind = .docStringLine) = lines := by
    apply List.filter_eq_self.mpr
    intro token member
    simpa using kinds token member
  rw [verbatim, List.filter_append, List.map_append, all, whole]
  rfl

variable {grammar : Grammar}
  (placed : ∀ {name tokens argument rest}, grammar.argument name tokens argument rest →
    Transcript.TakesArgument blocks name tokens argument rest)

include placed

theorem composes_accounts :
    grammar.Composes fun tokens docs _ rest => Accounts blocks tokens docs rest where
  trans first second := first.trans second
  passes := Passes.accounts
  table derived := derived.passes.accounts
  step := by
    intro token name tokens rest step opens named takes
    have lines : verbatim (token :: name :: tokens) = verbatim tokens := by
      simp [verbatim, opens, named]
    unfold Step.docStrings
    generalize step.argument = argument at takes
    cases placed takes with
    | absent none _ =>
        refine ⟨[], ?_, rfl, lines⟩
        rw [attached_step opens named, none]
        rfl
    | table none here =>
        have accounts : Accounts blocks tokens [] rest := here.passes.accounts
        obtain ⟨found, taken, same, further⟩ := accounts
        refine ⟨found, ?_, same, lines.trans further⟩
        rw [attached_step opens named, none]
        exact taken
    | @docString _ _ block doc first here =>
        obtain ⟨taken, same, further⟩ := here.verbatim_eq blocks
        refine ⟨[block], ?_, congrArg (· :: []) same.symm, ?_⟩
        · rw [attached_step opens named, first, taken]
          rfl
        · rw [lines, further]
          simp

theorem Grammar.DerivesDocument.accounts {feature : Feature}
    (derived : grammar.DerivesDocument tokens feature) :
    (attached blocks tokens).map Block.label = feature.docStrings.map DocString.label ∧
      verbatim tokens = (attached blocks tokens).flatMap Block.numbers := by
  obtain ⟨eof, ends, found, taken, same, lines⟩ := (composes_accounts placed).document derived
  have final : attached blocks [eof] = [] := rfl
  have none : verbatim [eof] = [] := by simp [verbatim, ends]
  rw [final, List.append_nil] at taken
  rw [none, List.append_nil] at lines
  rw [taken]
  exact ⟨same, lines⟩

end Accounting

def Grammar.placing (reader : Reader) : Grammar where
  dialect := reader.mode.dialect
  language := reader.language
  argument := Transcript.TakesArgument reader.mode.blocks

namespace Layout

variable {blocks : List Block} {tokens : List Token} (layout : Layout blocks tokens)

include layout

theorem pairwise_blocks :
    blocks.Pairwise fun left right => left.location.line < right.location.line := by
  apply layout.apart.imp_of_mem
  intro left right leftKnown _ before
  have closes := (layout.closed left leftKnown).2
  omega

theorem nodup_blocks : blocks.Nodup := by
  apply layout.pairwise_blocks.imp
  rintro left right before rfl
  exact Nat.lt_irrefl _ before

theorem sublist_attached : (attached blocks tokens).Sublist blocks := by
  have antisymm : Std.Antisymm fun left right : Block =>
      left.location.line < right.location.line := ⟨fun _ _ here there => by omega⟩
  have irrefl : Std.Irrefl fun left right : Block =>
      left.location.line < right.location.line := ⟨fun _ => Nat.lt_irrefl _⟩
  have rises : (attached blocks tokens).Pairwise fun left right =>
      left.location.line < right.location.line := pairwise_attached layout.rises
  refine List.sublist_of_subperm_of_pairwise ?_ rises layout.pairwise_blocks
  exact List.subperm_of_subset rises.nodup fun block member => (opened_of_mem_attached member).1

/-- If the lines of attached blocks are all lines there are, no block with a line is missing. -/
theorem mem_attached_of_filled
    (lines : verbatim tokens = (attached blocks tokens).flatMap Block.numbers) {block : Block}
    (known : block ∈ blocks) (filled : block.Filled) : block ∈ attached blocks tokens := by
  obtain ⟨token, member, kind, here⟩ := layout.covered block known (block.location.line + 1)
    (Nat.lt_succ_self _) filled
  have listed : block.location.line + 1 ∈ verbatim tokens := by
    rw [← here]
    exact List.mem_map_of_mem (List.mem_filter.mpr ⟨member, by simp [kind]⟩)
  rw [lines] at listed
  obtain ⟨other, taken, within⟩ := List.mem_flatMap.mp listed
  rw [Block.numbers, List.mem_range'_1] at within
  have otherKnown := (opened_of_mem_attached taken).1
  have closes := (layout.closed block known).2
  rw [layout.block_unique known otherKnown (Nat.le_succ _) (by omega) (by omega) (by omega)]
  exact taken

/-- No block is lost exactly if no empty one is. -/
theorem attached_eq_iff
    (lines : verbatim tokens = (attached blocks tokens).flatMap Block.numbers) :
    attached blocks tokens = blocks ↔
      ∀ block ∈ blocks, ¬ block.Filled → block ∈ attached blocks tokens := by
  constructor
  · intro all block known _
    rw [all]
    exact known
  · intro empty
    have kept : blocks ⊆ attached blocks tokens := by
      intro block known
      by_cases filled : block.Filled
      · exact layout.mem_attached_of_filled lines known filled
      · exact empty block known filled
    exact layout.sublist_attached.eq_of_length_le
      (List.subperm_of_subset layout.nodup_blocks kept).length_le

end Layout

theorem serves_placing (script : Transcript) : script.Serves (.placing script.reader) where
  dialect := rfl
  language := rfl
  argument _ _ _ _ takes := takes

def recordedBlocks (setup : Setup) (text : Text) : List Block :=
  (Reader.afterDocument setup text).mode.blocks

/-- The doc strings of an accepted document are the blocks that open first after a step and before
the next token, one for one and in order. All blocks with a line are among them, so the document
keeps all its blocks exactly if every empty one opens there too. -/
theorem docStrings_eq_attached (setup : Setup) (text : Text) (feature : Feature)
    (parsed : parse setup text = .ok feature) :
    ∃ tokens kept, tokenize setup text = .ok tokens ∧
      kept = attached (recordedBlocks setup text) (uncommented tokens) ∧
      feature.docStrings.map DocString.label = kept.map Block.label ∧
      kept.Sublist (recordedBlocks setup text) ∧
      (∀ block ∈ recordedBlocks setup text, block.Filled → block ∈ kept) ∧
      (feature.docStrings.map DocString.label = (recordedBlocks setup text).map Block.label ↔
        ∀ block ∈ recordedBlocks setup text, ¬ block.Filled → block ∈ kept) := by
  obtain ⟨tokens, lexed⟩ := exists_tokens_of_parse parsed
  have layout : Layout (recordedBlocks setup text) (uncommented tokens) :=
    (Transcript.ofTokens lexed).layout
  have derived : (Grammar.placing (.afterDocument setup text)).DerivesDocument _ feature :=
    derivesDocument_of_parse lexed (serves_placing (Transcript.ofTokens lexed)) parsed
  obtain ⟨same, lines⟩ : (attached (recordedBlocks setup text) (uncommented tokens)).map _ = _ ∧ _ :=
    derived.accounts fun takes => takes
  refine ⟨tokens, _, lexed, rfl, same.symm, layout.sublist_attached,
    fun block known filled => layout.mem_attached_of_filled lines known filled, ?_⟩
  rw [← same, ← layout.attached_eq_iff lines]
  constructor
  · -- As many doc strings as blocks leave no block out.
    intro all
    apply layout.sublist_attached.eq_of_length
    simpa using congrArg List.length all
  · intro all
    rw [all]

def doubledText : Text :=
  "Feature: f\n  Scenario: s\n    Given a\n    \"\"\"\n    \"\"\"\n    \"\"\"\n    \"\"\"\n    Then b\n".toList

theorem docStrings_doubledText :
    ∃ feature tokens kept, parse .standard doubledText = .ok feature ∧
      tokenize .standard doubledText = .ok tokens ∧
      kept = attached (recordedBlocks .standard doubledText) (uncommented tokens) ∧
      feature.docStrings.map DocString.label = kept.map Block.label ∧
      kept.Sublist (recordedBlocks .standard doubledText) := by
  obtain ⟨feature, parsed⟩ : ∃ feature, parse .standard doubledText = .ok feature :=
    exists_of_isOk (by decide +kernel)
  obtain ⟨tokens, kept, lexed, same, labels, sublist, _⟩ :=
    docStrings_eq_attached .standard doubledText feature parsed
  exact ⟨feature, tokens, kept, parsed, lexed, same, labels, sublist⟩

/-- The second of two empty doc strings is accepted and lost. -/
theorem docString_lost :
    (parse .standard doubledText).toOption.map (fun feature => feature.docStrings.map DocString.label) =
        some [(⟨4, 5⟩, "\"\"\"".toList)] ∧
      (recordedBlocks .standard doubledText).map Block.label =
        [(⟨4, 5⟩, "\"\"\"".toList), (⟨6, 5⟩, "\"\"\"".toList)] := by
  decide +kernel

end Gherkin
