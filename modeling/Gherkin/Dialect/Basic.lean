import Gherkin.Keyword

/-!
Dialects.

A dialect lists, per category, the words that spell its keywords. A step keyword that ends in a
space must be set off by white space in a document; one that does not runs straight into the
step. `normalise` brings a dialect into the form the registry stores, and `WellFormed` says what
that form is.
-/

namespace Gherkin

structure Dialect where
  /-- English name of the language. -/
  name : Text
  /-- Its name in the language itself. -/
  native : Text
  feature : List Text
  rule : List Text
  background : List Text
  scenario : List Text
  scenarioOutline : List Text
  examples : List Text
  given : List Text
  when : List Text
  «then» : List Text
  and : List Text
  but : List Text
  deriving DecidableEq

namespace Dialect

def words (dialect : Dialect) : Category → List Text
  | .block .feature => dialect.feature
  | .block .rule => dialect.rule
  | .block .background => dialect.background
  | .block .scenario => dialect.scenario
  | .block .scenarioOutline => dialect.scenarioOutline
  | .block .examples => dialect.examples
  | .step .given => dialect.given
  | .step .when => dialect.when
  | .step .«then» => dialect.«then»
  | .step .and => dialect.and
  | .step .but => dialect.but

def ofWords (name native : Text) (words : Category → List Text) : Dialect where
  name := name
  native := native
  feature := words (.block .feature)
  rule := words (.block .rule)
  background := words (.block .background)
  scenario := words (.block .scenario)
  scenarioOutline := words (.block .scenarioOutline)
  examples := words (.block .examples)
  given := words (.step .given)
  when := words (.step .when)
  «then» := words (.step .«then»)
  and := words (.step .and)
  but := words (.step .but)

@[simp]
theorem words_ofWords (name native : Text) (words : Category → List Text) (category : Category) :
    (ofWords name native words).words category = words category := by
  cases category with
  | block keyword => cases keyword <;> rfl
  | step keyword => cases keyword <;> rfl

theorem ofWords_words (dialect : Dialect) :
    ofWords dialect.name dialect.native dialect.words = dialect := rfl

def setWords (dialect : Dialect) (category : Category) (list : List Text) : Dialect :=
  ofWords dialect.name dialect.native fun other =>
    if other = category then list else dialect.words other

/-! A dialect may be given with white space around its words and with words that show nothing. What is stored
is its normal form, and `normalise` leaves a normal form as it is. -/

/-- The stored spelling of a word. Block keywords lose the white space around them. A step
keyword loses what is in front of it, and what is behind it becomes a single space. -/
def normalWord : Category → Text → Text
  | .block _, word => word.trim
  | .step _, word =>
      let start := word.trimStart
      let bare := start.trimEnd
      if bare = [] ∨ bare = start then bare else bare ++ [' ']

def normalWords (category : Category) (list : List Text) : List Text :=
  (list.map (normalWord category)).filter (· ≠ [])

def normalise (dialect : Dialect) : Dialect :=
  ofWords dialect.name dialect.native fun category => normalWords category (dialect.words category)

def missing? (dialect : Dialect) : Option Category :=
  Category.required.find? fun category => (dialect.words category).isEmpty

structure Bare (word : Text) : Prop where
  nonempty : word ≠ []
  head : ∀ c, word.head? = some c → Text.isSpace c = false
  last : ∀ c, word.getLast? = some c → Text.isSpace c = false

def NormalWord : Category → Text → Prop
  | .block _, word => Bare word
  | .step _, word => Bare word ∨ ∃ bare, Bare bare ∧ word = bare ++ [' ']

/-- What the registry holds: normal words, and at least one of them in each category but that of rules. -/
structure WellFormed (dialect : Dialect) : Prop where
  normal : ∀ category, ∀ word ∈ dialect.words category, NormalWord category word
  complete : ∀ category, category ≠ .block .rule → dialect.words category ≠ []

theorem bare_trim (word : Text) (nonempty : word.trim ≠ []) : Bare word.trim where
  nonempty := nonempty
  head c first := Text.head?_trimStart word c (Text.head?_dropTrailing _ _ c first)
  last c final := Text.getLast?_dropTrailing _ _ c final

theorem normalWord_normal (category : Category) (word : Text)
    (nonempty : normalWord category word ≠ []) : NormalWord category (normalWord category word) := by
  cases category with
  | block keyword => exact bare_trim word nonempty
  | step keyword =>
      simp only [normalWord, NormalWord] at nonempty ⊢
      split
      · rename_i plain
        rw [if_pos plain] at nonempty
        exact Or.inl (bare_trim word nonempty)
      · rename_i spaced
        exact Or.inr ⟨word.trim, bare_trim word fun empty => spaced (Or.inl empty), rfl⟩

theorem normal_normalise (dialect : Dialect) (category : Category) (word : Text)
    (member : word ∈ dialect.normalise.words category) : NormalWord category word := by
  simp only [normalise, words_ofWords, normalWords, List.mem_filter, List.mem_map,
    decide_eq_true_eq] at member
  obtain ⟨⟨source, _, same⟩, nonempty⟩ := member
  subst same
  exact normalWord_normal category source nonempty

theorem complete_of_missing?_eq_none (dialect : Dialect) (absent : dialect.missing? = none) :
    ∀ category, category ≠ .block .rule → dialect.words category ≠ [] := by
  intro category other empty
  have held := List.find?_eq_none.mp absent category (Category.mem_required_iff.mpr other)
  simp [empty] at held

theorem wellFormed_normalise (dialect : Dialect) (absent : dialect.normalise.missing? = none) :
    WellFormed dialect.normalise where
  normal := normal_normalise dialect
  complete := complete_of_missing?_eq_none _ absent

theorem wellFormed_of_normal (dialect : Dialect) (normal : dialect.normalise = dialect)
    (absent : dialect.missing? = none) : WellFormed dialect where
  normal category word member := normal_normalise dialect category word (normal.symm ▸ member)
  complete := complete_of_missing?_eq_none _ absent

end Dialect

end Gherkin
