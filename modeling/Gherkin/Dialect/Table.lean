import Gherkin.Dialect.Basic

/-!
Keyword tables.

A line is matched against all words of a dialect at once, longest word first. A word that
several categories list belongs to the first of them, in a fixed order: outlines before
scenarios, and conjunctions before the other step keywords, so that a shared bullet continues
the step before it.

`keepFirst key` removes every element whose key an earlier element already has. Tag sets and
dialects under one code are made with it too.
-/

namespace Gherkin

section FirstOccurrences

variable {α β : Type} [DecidableEq β]

def keepFirst (key : α → β) : List α → List α
  | [] => []
  | first :: rest => first :: (keepFirst key rest).filter fun other => key other ≠ key first

/-- Each key occurs once. -/
theorem pairwise_keepFirst (key : α → β) (elements : List α) :
    (keepFirst key elements).Pairwise fun left right => key left ≠ key right := by
  induction elements with
  | nil => exact List.Pairwise.nil
  | cons first rest ih =>
      refine List.Pairwise.cons ?_ (ih.filter _)
      intro other member
      have different := (List.mem_filter.mp member).2
      exact fun same => by simp [same] at different

/-- No key is lost. -/
theorem exists_mem_keepFirst (key : α → β) (elements : List α) (element : α)
    (member : element ∈ elements) : ∃ kept ∈ keepFirst key elements, key kept = key element := by
  induction elements with
  | nil => cases member
  | cons first rest ih =>
      by_cases same : key element = key first
      · exact ⟨first, List.mem_cons_self, same.symm⟩
      · rcases List.mem_cons.mp member with here | there
        · exact absurd (congrArg key here) same
        · obtain ⟨kept, found, equal⟩ := ih there
          refine ⟨kept, List.mem_cons_of_mem _ (List.mem_filter.mpr ⟨found, ?_⟩), equal⟩
          simpa [equal] using same

theorem mem_of_mem_keepFirst (key : α → β) (elements : List α) (element : α)
    (member : element ∈ keepFirst key elements) : element ∈ elements := by
  induction elements with
  | nil => cases member
  | cons first rest ih =>
      rcases List.mem_cons.mp member with here | there
      · exact here ▸ List.mem_cons_self
      · exact List.mem_cons_of_mem _ (ih (List.mem_filter.mp there).1)

end FirstOccurrences

structure BlockSurface where
  keyword : BlockKeyword
  text : Text
  deriving DecidableEq

namespace BlockSurface

def width (surface : BlockSurface) : Nat :=
  surface.text.length + 1

def opens (surface : BlockSurface) (body : Text) : Bool :=
  (surface.text ++ [':']).isPrefixOf body

end BlockSurface

/-- A step keyword as a dialect spells it, without the space that marks it as set off. -/
structure StepSurface where
  keyword : StepKeyword
  text : Text
  /-- White space must follow. -/
  separated : Bool
  deriving DecidableEq

namespace StepSurface

def ofWord (keyword : StepKeyword) (word : Text) : StepSurface where
  keyword := keyword
  text := word.trimEnd
  separated := word.trimEnd ≠ word

/-- Number of characters the keyword takes on its line, with the one that sets it off. -/
def width (surface : StepSurface) : Nat :=
  surface.text.length + if surface.separated then 1 else 0

def opens (surface : StepSurface) (body : Text) : Bool :=
  surface.text.isPrefixOf body &&
    (!surface.separated || (body.drop surface.text.length).head?.any Text.isSpace)

end StepSurface

namespace Dialect

section Ordering

variable {α : Type}

def insertLongest (text : α → Text) (entry : α) : List α → List α
  | [] => [entry]
  | first :: rest =>
      if (text first).length ≤ (text entry).length then entry :: first :: rest
      else first :: insertLongest text entry rest

/-- Sorts by falling length. Entries of one length keep their order. -/
def longestFirst (text : α → Text) (entries : List α) : List α :=
  entries.foldr (insertLongest text) []

theorem mem_insertLongest (text : α → Text) (entry other : α) (entries : List α) :
    other ∈ insertLongest text entry entries ↔ other = entry ∨ other ∈ entries := by
  induction entries with
  | nil => simp [insertLongest]
  | cons first rest ih =>
      rw [insertLongest]
      split
      · exact List.mem_cons
      · simp only [List.mem_cons, ih, or_left_comm]

theorem mem_longestFirst (text : α → Text) (entry : α) (entries : List α) :
    entry ∈ longestFirst text entries ↔ entry ∈ entries := by
  induction entries with
  | nil => rfl
  | cons first rest ih =>
      have inserted := mem_insertLongest text first entry (longestFirst text rest)
      rw [ih] at inserted
      exact inserted.trans List.mem_cons.symm

end Ordering

def blockOrder : List BlockKeyword :=
  [.feature, .rule, .background, .scenarioOutline, .scenario, .examples]

def stepOrder : List StepKeyword :=
  [.and, .but, .given, .when, .«then»]

theorem mem_blockOrder (keyword : BlockKeyword) : keyword ∈ blockOrder := by
  cases keyword <;> decide

theorem mem_stepOrder (keyword : StepKeyword) : keyword ∈ stepOrder := by
  cases keyword <;> decide

def blockTable (dialect : Dialect) : List BlockSurface :=
  let surfaces := blockOrder.flatMap fun keyword =>
    (dialect.words (.block keyword)).map fun word => ⟨keyword, word⟩
  longestFirst (·.text) (keepFirst (·.text) surfaces)

def stepTable (dialect : Dialect) : List StepSurface :=
  let surfaces := stepOrder.flatMap fun keyword =>
    (dialect.words (.step keyword)).map (StepSurface.ofWord keyword)
  longestFirst (·.text) (keepFirst (·.text) surfaces)

/-- Step keywords of a well-formed dialect are not empty, also without the space that sets them
off. -/
theorem WellFormed.text_ne_nil {dialect : Dialect} (sound : dialect.WellFormed)
    {surface : StepSurface} (member : surface ∈ dialect.stepTable) : surface.text ≠ [] := by
  have listed := mem_of_mem_keepFirst _ _ surface ((mem_longestFirst _ _ _).mp member)
  obtain ⟨keyword, _, made⟩ := List.mem_flatMap.mp listed
  obtain ⟨word, held, rfl⟩ := List.mem_map.mp made
  have solid : ∃ c ∈ word, Text.isSpace c = false := by
    rcases sound.normal (.step keyword) word held with bare | ⟨inner, bare, rfl⟩
    · obtain ⟨c, rest, rfl⟩ := List.exists_cons_of_ne_nil bare.nonempty
      exact ⟨c, List.mem_cons_self, bare.head c rfl⟩
    · obtain ⟨c, rest, rfl⟩ := List.exists_cons_of_ne_nil bare.nonempty
      exact ⟨c, List.mem_cons_self, bare.head c rfl⟩
  intro empty
  obtain ⟨c, inside, other⟩ := solid
  rw [Text.of_dropTrailing_eq_nil Text.isSpace word empty c inside] at other
  cases other

def block? (dialect : Dialect) (body : Text) : Option BlockSurface :=
  dialect.blockTable.find? (·.opens body)

def step? (dialect : Dialect) (body : Text) : Option StepSurface :=
  dialect.stepTable.find? (·.opens body)

def stepKeyword? (dialect : Dialect) (text : Text) : Option StepKeyword :=
  (dialect.stepTable.find? (·.text = text.trimEnd)).map (·.keyword)

end Dialect

end Gherkin
