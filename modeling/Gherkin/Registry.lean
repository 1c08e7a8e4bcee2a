import Gherkin.Dialect.Basic

/-!
Registries of dialects.

A registry maps language codes to dialects. Its entries are sorted by code, so two registries
with the same dialects under the same codes are equal, and every dialect in it is well formed:
`insert` normalises a dialect and refuses one that lacks a required keyword.
-/

namespace Gherkin

inductive DialectError where
  /-- The text is no table of dialects. -/
  | malformed
  | missingKeywords (language : Text) (category : Category)
  | unknownLanguage (language : Text)
  deriving DecidableEq

def DialectError.message : DialectError → String
  | .malformed => "invalid dialect table"
  | .missingKeywords language category =>
      "dialect `" ++ String.ofList language ++ "` defines no `" ++ category.field ++ "` keywords"
  | .unknownLanguage language => "unknown dialect `" ++ String.ofList language ++ "`"

structure Registry where
  entries : List (Text × Dialect)
  ordered : entries.Pairwise fun left right => left.1 < right.1
  wellFormed : ∀ entry ∈ entries, entry.2.WellFormed
  deriving DecidableEq

namespace Registry

def empty : Registry where
  entries := []
  ordered := List.Pairwise.nil
  wellFormed := by simp

def find? (registry : Registry) (code : Text) : Option Dialect :=
  (registry.entries.find? fun entry => entry.1 = code).map (·.2)

def require (registry : Registry) (code : Text) : Except DialectError Dialect :=
  match registry.find? code with
  | some dialect => .ok dialect
  | none => .error (.unknownLanguage code)

def languages (registry : Registry) : List Text :=
  registry.entries.map (·.1)

def size (registry : Registry) : Nat :=
  registry.entries.length

def place (code : Text) (dialect : Dialect) : List (Text × Dialect) → List (Text × Dialect)
  | [] => [(code, dialect)]
  | entry :: rest =>
      if code < entry.1 then (code, dialect) :: entry :: rest
      else if code = entry.1 then (code, dialect) :: rest
      else entry :: place code dialect rest

theorem mem_of_mem_place (code : Text) (dialect : Dialect) (entries : List (Text × Dialect))
    (entry : Text × Dialect) (member : entry ∈ place code dialect entries) :
    entry = (code, dialect) ∨ entry ∈ entries := by
  induction entries with
  | nil => exact Or.inl (List.mem_singleton.mp member)
  | cons first rest ih =>
      rw [place] at member
      split at member
      · exact (List.mem_cons.mp member).imp_right id
      · split at member
        · exact (List.mem_cons.mp member).imp_right (List.mem_cons_of_mem _)
        · rcases List.mem_cons.mp member with here | there
          · exact Or.inr (here ▸ List.mem_cons_self)
          · exact (ih there).imp_right (List.mem_cons_of_mem _)

theorem ordered_place (code : Text) (dialect : Dialect) (entries : List (Text × Dialect))
    (ordered : entries.Pairwise fun left right => left.1 < right.1) :
    (place code dialect entries).Pairwise fun left right => left.1 < right.1 := by
  induction entries with
  | nil => exact List.pairwise_singleton _ _
  | cons first rest ih =>
      obtain ⟨before, tail⟩ := List.pairwise_cons.mp ordered
      rw [place]
      split
      · rename_i smaller
        refine List.Pairwise.cons ?_ ordered
        intro entry member
        rcases List.mem_cons.mp member with here | there
        · exact here ▸ smaller
        · exact List.lt_trans smaller (before entry there)
      · rename_i notSmaller
        split
        · rename_i same
          exact List.Pairwise.cons (fun entry member => same ▸ before entry member) tail
        · rename_i different
          refine List.Pairwise.cons ?_ (ih tail)
          intro entry member
          rcases mem_of_mem_place code dialect rest entry member with here | there
          · subst here
            exact Decidable.byContradiction fun notLarger =>
              different (List.le_antisymm (List.not_lt.mp notLarger) (List.not_lt.mp notSmaller))
          · exact before entry there

def put (registry : Registry) (code : Text) (dialect : Dialect) (sound : dialect.WellFormed) :
    Registry where
  entries := place code dialect registry.entries
  ordered := ordered_place code dialect _ registry.ordered
  wellFormed entry member := by
    rcases mem_of_mem_place code dialect _ entry member with here | there
    · exact here ▸ sound
    · exact registry.wellFormed entry there

theorem find?_place (code other : Text) (dialect : Dialect) (entries : List (Text × Dialect)) :
    (place code dialect entries).find? (fun entry => entry.1 = other) =
      if code = other then some (code, dialect) else entries.find? fun entry => entry.1 = other := by
  induction entries with
  | nil => by_cases same : code = other <;> simp [place, same]
  | cons first rest ih =>
      rw [place]
      split
      · by_cases same : code = other <;> simp [List.find?_cons, same]
      · split
        · rename_i replaced
          by_cases same : code = other <;> simp [← replaced, same]
        · rename_i different
          rw [List.find?_cons, ih, List.find?_cons]
          by_cases same : code = other
          · subst same
            simp [Ne.symm different]
          · simp [same]

/-- A stored dialect is found under its code, and no other code is touched. -/
theorem find?_put (registry : Registry) (code other : Text) (dialect : Dialect)
    (sound : dialect.WellFormed) :
    (registry.put code dialect sound).find? other =
      if code = other then some dialect else registry.find? other := by
  rw [find?, put, find?_place]
  split <;> rfl

def insert (registry : Registry) (code : Text) (dialect : Dialect) :
    Except DialectError Registry :=
  match absent : dialect.normalise.missing? with
  | some category => .error (.missingKeywords code category)
  | none => .ok (registry.put code dialect.normalise (dialect.wellFormed_normalise absent))

def insertAll (registry : Registry) (entries : List (Text × Dialect)) :
    Except DialectError Registry :=
  entries.foldlM (fun held entry => held.insert entry.1 entry.2) registry

end Registry

end Gherkin
