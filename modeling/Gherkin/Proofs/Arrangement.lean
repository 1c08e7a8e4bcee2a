import Gherkin.Proofs.Parts
import Gherkin.Proofs.Positions
import Mathlib.Data.List.Flatten

/-!
How the parts of an accepted document are arranged.

Every part of the feature is derived from tokens of the document, and the parts follow one another in
its text. Blocks of examples are listed together with their outlines; that list goes in the order of the
text too.
-/

namespace Gherkin

structure ExampleBlock where
  outline : Outline
  examples : Examples

def Feature.definitions (feature : Feature) : List Definition :=
  feature.children ++ feature.rules.flatMap (·.children)

def Definition.exampleBlocks : Definition → List ExampleBlock
  | .scenario _ => []
  | .outline template => template.examples.map fun examples => ⟨template, examples⟩

def Feature.exampleBlocks (feature : Feature) : List ExampleBlock :=
  feature.definitions.flatMap Definition.exampleBlocks

def ExampleBlock.location (block : ExampleBlock) : Location :=
  block.examples.location

/-- Definitions are parts in the order they are listed. -/
theorem Feature.sublist_definitions (feature : Feature) :
    (feature.definitions.flatMap Definition.parts).Sublist feature.parts := by
  have rules : (feature.rules.flatMap fun rule => rule.children.flatMap Definition.parts).Sublist
      (feature.rules.flatMap Rule.parts) := by
    apply List.Sublist.flatMap_right
    intro rule _
    exact (List.sublist_append_right _ _).trans (List.sublist_cons_self _ _)
  rw [definitions, List.flatMap_append, List.flatMap_assoc]
  apply List.Sublist.trans _ (List.sublist_cons_self _ _)
  exact (List.sublist_append_right _ _).append rules

theorem Definition.sublist_exampleBlocks (definition : Definition) :
    (definition.exampleBlocks.map ExampleBlock.location).Sublist
      (definition.parts.map Part.location) := by
  cases definition with
  | scenario plain => exact List.nil_sublist _
  | outline template =>
      have listed : (template.examples.flatMap fun examples => [examples.location]).Sublist
          (template.examples.flatMap fun examples => examples.parts.map Part.location) := by
        apply List.Sublist.flatMap_right
        intro examples _
        exact (List.nil_sublist _).cons_cons _
      rw [exampleBlocks, parts, List.map_append, List.map_flatMap, List.map_map, List.map_eq_flatMap]
      exact listed.trans (List.sublist_append_right _ _)

theorem Feature.sublist_exampleBlocks (feature : Feature) :
    (feature.exampleBlocks.map ExampleBlock.location).Sublist (feature.parts.map Part.location) := by
  have blocks : (feature.exampleBlocks.map ExampleBlock.location).Sublist
      ((feature.definitions.flatMap Definition.parts).map Part.location) := by
    rw [exampleBlocks, List.map_flatMap, List.map_flatMap]
    exact List.Sublist.flatMap_right _ fun definition _ => definition.sublist_exampleBlocks
  exact blocks.trans (feature.sublist_definitions.map Part.location)

theorem Feature.outline_of_mem_exampleBlocks {feature : Feature} {block : ExampleBlock}
    (member : block ∈ feature.exampleBlocks) :
    .outline block.outline ∈ feature.definitions ∧ block.examples ∈ block.outline.examples := by
  obtain ⟨definition, among, listed⟩ := List.mem_flatMap.mp member
  cases definition with
  | scenario plain => cases listed
  | outline template =>
      obtain ⟨examples, held, rfl⟩ := List.mem_map.mp listed
      exact ⟨among, held⟩

theorem Feature.mem_parts_of_outline {feature : Feature} {outline : Outline}
    (member : .outline outline ∈ feature.definitions) {part : Part}
    (inside : part ∈ (Definition.outline outline).parts) : part ∈ feature.parts :=
  feature.sublist_definitions.subset (List.mem_flatMap.mpr ⟨_, member, inside⟩)

/-- Every part of an accepted document is derived from its tokens, and begins with one of them, in
order. -/
theorem parts_of_parse {setup : Setup} {text : Text} {feature : Feature}
    (parsed : parse setup text = .ok feature) :
    ∃ tokens last, Mode.Reads setup (.initial setup) (Line.split text) tokens (.ok last) ∧
      recordedBlocks setup text = last.closed ∧
      (∀ part ∈ feature.parts,
        part.Derived (.ofReader (.afterDocument setup text)) (presented text tokens)) ∧
      (feature.parts.map Part.location).Sublist ((uncommented tokens).map (·.location)) := by
  obtain ⟨tokens, last, reads, derived⟩ := derives_of_parse parsed
  obtain ⟨each, places⟩ := derived.traced Grammar.suffix_ofReader
  rw [presented, List.dropLast_concat] at places
  exact ⟨tokens, last, reads, recordedBlocks_of_reads reads, each, places⟩

theorem parts_rise {setup : Setup} {text : Text} {feature : Feature}
    (parsed : parse setup text = .ok feature) :
    (feature.parts.map Part.location).Pairwise Location.Before := by
  obtain ⟨tokens, last, reads, _, _, places⟩ := parts_of_parse parsed
  have rises := reads.run.1.ordered setup.known (Line.consecutive_split text)
  have kept : (uncommented tokens).Pairwise fun left right => left.location.Before right.location :=
    rises.filter _
  exact (List.pairwise_map.mpr kept).sublist places

end Gherkin
