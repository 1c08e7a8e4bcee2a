import Gherkin.Dialect.Builtin
import Gherkin.Dialect.Table
import Mathlib.Data.List.Nodup

/-!
The longest keyword of a line.

A line is matched against a table from top to bottom and the first entry that fits is taken. Because a
table falls in length and holds no text twice, that entry is the longest one that fits, and nothing else
about the order of the table shows. Which role a text has is decided before, when only its first listing
is kept.
-/

namespace Gherkin

theorem BlockSurface.opens_iff {surface : BlockSurface} {body : Text} :
    surface.opens body = true ↔ surface.text ++ [':'] <+: body :=
  List.isPrefixOf_iff_prefix

theorem BlockSurface.starts_of_opens {surface : BlockSurface} {body : Text}
    (opens : surface.opens body = true) : surface.text <+: body :=
  (List.prefix_append _ _).trans (opens_iff.mp opens)

namespace StepSurface

/-- The line starts with the text of the keyword and, if that must be set off, goes on with a white space
character. -/
def Starts (surface : StepSurface) (body : Text) : Prop :=
  ∃ rest, body = surface.text ++ rest ∧
    (surface.separated = true → ∃ c, rest.head? = some c ∧ Text.isSpace c = true)

theorem opens_iff {surface : StepSurface} {body : Text} :
    surface.opens body = true ↔ surface.Starts body := by
  rw [opens, Bool.and_eq_true, List.isPrefixOf_iff_prefix]
  constructor
  · rintro ⟨⟨rest, rfl⟩, apart⟩
    refine ⟨rest, rfl, ?_⟩
    intro separated
    simpa [separated, Option.any_eq_true] using apart
  · rintro ⟨rest, rfl, apart⟩
    refine ⟨List.prefix_append _ _, ?_⟩
    cases separated : surface.separated with
    | false => rfl
    | true => simpa [Option.any_eq_true] using apart separated

def Sets (surface : StepSurface) (separator : Text) : Prop :=
  (surface.separated = false ∧ separator = []) ∨
    surface.separated = true ∧ ∃ c, Text.isSpace c = true ∧ separator = [c]

/-- The keyword and what sets it off are the text of its token. -/
theorem Starts.take_width {surface : StepSurface} {body : Text} (starts : surface.Starts body) :
    ∃ separator, surface.Sets separator ∧ body.take surface.width = surface.text ++ separator := by
  obtain ⟨rest, rfl, apart⟩ := starts
  cases separated : surface.separated with
  | false => exact ⟨[], Or.inl ⟨separated, rfl⟩, by simp [width, separated]⟩
  | true =>
      obtain ⟨c, first, space⟩ := apart separated
      obtain ⟨_, rfl⟩ := List.head?_eq_some_iff.mp first
      exact ⟨[c], Or.inr ⟨separated, c, space, rfl⟩, by
        rw [width, separated, List.take_length_add_append]
        rfl⟩

theorem Sets.trimEnd {surface : StepSurface} {separator : Text} (sets : surface.Sets separator) :
    (surface.text ++ separator).trimEnd = surface.text.trimEnd := by
  rcases sets with ⟨_, rfl⟩ | ⟨_, c, space, rfl⟩
  · rw [List.append_nil]
  · exact Text.dropTrailing_concat surface.text space

theorem Starts.starts_text {surface : StepSurface} {body : Text} (starts : surface.Starts body) :
    surface.text <+: body := by
  obtain ⟨rest, rfl, _⟩ := starts
  exact List.prefix_append _ _

end StepSurface

/-! A table is made of listings by keeping the first one of each text and sorting by length. Nothing is said
about keywords here. -/

section Tables

variable {α : Type} (text : α → Text)

theorem perm_insertLongest (entry : α) (entries : List α) :
    (Dialect.insertLongest text entry entries).Perm (entry :: entries) := by
  induction entries with
  | nil => exact List.Perm.refl _
  | cons first rest ih =>
      rw [Dialect.insertLongest]
      split
      · exact List.Perm.refl _
      · exact (ih.cons first).trans (List.Perm.swap entry first rest)

theorem perm_longestFirst (entries : List α) :
    (Dialect.longestFirst text entries).Perm entries := by
  induction entries with
  | nil => exact List.Perm.refl _
  | cons first rest ih => exact (perm_insertLongest text first _).trans (ih.cons first)

def Falling (entries : List α) : Prop :=
  entries.Pairwise fun left right => (text right).length ≤ (text left).length

theorem falling_insertLongest (entry : α) {entries : List α} (falling : Falling text entries) :
    Falling text (Dialect.insertLongest text entry entries) := by
  induction entries with
  | nil => exact List.pairwise_singleton _ _
  | cons first rest ih =>
      obtain ⟨shorter, tail⟩ := List.pairwise_cons.mp falling
      rw [Dialect.insertLongest]
      split
      case isTrue above =>
        refine List.pairwise_cons.mpr ⟨?_, falling⟩
        intro other member
        rcases List.mem_cons.mp member with rfl | later
        · exact above
        · exact Nat.le_trans (shorter other later) above
      case isFalse below =>
        refine List.pairwise_cons.mpr ⟨?_, ih tail⟩
        intro other member
        rcases (Dialect.mem_insertLongest text entry other rest).mp member with rfl | later
        · omega
        · exact shorter other later

theorem falling_longestFirst (entries : List α) :
    Falling text (Dialect.longestFirst text entries) := by
  induction entries with
  | nil => exact List.Pairwise.nil
  | cons first rest ih => exact falling_insertLongest text first ih

/-- The first entry with a given key is the one that `keepFirst` keeps. -/
theorem mem_keepFirst_iff {β : Type} [DecidableEq β] {key : α → β} {entries : List α} {entry : α} :
    entry ∈ keepFirst key entries ↔ entries.find? (key · = key entry) = some entry := by
  induction entries with
  | nil => simp [keepFirst]
  | cons first rest ih =>
      by_cases same : key first = key entry
      · simp [keepFirst, same, eq_comm]
      · have other : entry ≠ first := fun here => same (here ▸ rfl)
        simp [keepFirst, same, ih, other, Ne.symm same]

def tableOf (listed : List α) : List α :=
  Dialect.longestFirst text (keepFirst text listed)

theorem mem_tableOf {listed : List α} {entry : α} :
    entry ∈ tableOf text listed ↔ listed.find? (text · = text entry) = some entry :=
  (Dialect.mem_longestFirst _ _ _).trans mem_keepFirst_iff

theorem listed_of_mem_tableOf {listed : List α} {entry : α} (member : entry ∈ tableOf text listed) :
    entry ∈ listed :=
  List.mem_of_find?_eq_some ((mem_tableOf text).mp member)

theorem exists_mem_tableOf {listed : List α} {entry : α} (member : entry ∈ listed) :
    ∃ kept ∈ tableOf text listed, text kept = text entry := by
  obtain ⟨kept, held, same⟩ := exists_mem_keepFirst text listed entry member
  exact ⟨kept, (Dialect.mem_longestFirst _ _ _).mpr held, same⟩

theorem nodup_tableOf (listed : List α) : ((tableOf text listed).map text).Nodup := by
  have apart : (tableOf text listed).Pairwise fun left right => text left ≠ text right :=
    ((perm_longestFirst text _).pairwise_iff fun {_ _} differ => differ.symm).mpr
      (pairwise_keepFirst text listed)
  exact List.pairwise_map.mpr apart

theorem eq_of_mem_tableOf {listed : List α} {left right : α} (first : left ∈ tableOf text listed)
    (second : right ∈ tableOf text listed) (same : text left = text right) : left = right :=
  List.inj_on_of_nodup_map (nodup_tableOf text listed) first second same

structure Longest (fits : α → Prop) (entries : List α) (entry : α) : Prop where
  listed : entry ∈ entries
  fitting : fits entry
  longest : ∀ other ∈ entries, fits other → (text other).length ≤ (text entry).length

theorem longest_of_find? {fits : α → Bool} {listed : List α} {entry : α}
    (found : (tableOf text listed).find? fits = some entry) :
    Longest text (fits · = true) (tableOf text listed) entry := by
  obtain ⟨fit, before, behind, cut, passed⟩ := List.find?_eq_some_iff_append.mp found
  have falling := falling_longestFirst text (keepFirst text listed)
  rw [Falling, ← tableOf, cut] at falling
  refine ⟨List.mem_of_find?_eq_some found, fit, ?_⟩
  intro other member fitting
  rw [cut] at member
  rcases List.mem_append.mp member with early | late
  · have unfit := passed other early
    simp [fitting] at unfit
  · rcases List.mem_cons.mp late with rfl | later
    · exact Nat.le_refl _
    · exact (List.pairwise_cons.mp (List.pairwise_append.mp falling).2.1).1 other later

/-- The first entry of a table that fits is the longest one that fits, if only starts of the line do. -/
theorem find?_tableOf_iff {fits : α → Bool} {body : Text} {listed : List α} {entry : α}
    (starts : ∀ other, fits other = true → text other <+: body) :
    (tableOf text listed).find? fits = some entry ↔
      Longest text (fits · = true) (tableOf text listed) entry := by
  constructor
  · exact longest_of_find? text
  · intro longest
    obtain ⟨found, first⟩ := Option.isSome_iff_exists.mp
      (List.find?_isSome.mpr ⟨entry, longest.listed, longest.fitting⟩)
    have other := longest_of_find? text first
    have long := longest.longest found other.listed other.fitting
    have short := other.longest entry longest.listed longest.fitting
    have same : text found = text entry :=
      (List.prefix_of_prefix_length_le (starts found other.fitting) (starts entry longest.fitting)
        long).eq_of_length (by omega)
    rw [first, eq_of_mem_tableOf text other.listed longest.listed same]

end Tables

section Categories

variable {α κ : Type} (order : List κ) (words : κ → List Text) (entry : κ → Text → α)

def listings : List α :=
  order.flatMap fun keyword => (words keyword).map (entry keyword)

variable {order words entry}

theorem mem_listings {made : α} :
    made ∈ listings order words entry ↔
      ∃ keyword ∈ order, ∃ word ∈ words keyword, entry keyword word = made := by
  simp [listings]

/-- The first listing of a text is its first one in the first category that lists it. -/
theorem find?_listings {text : α → Text} {spell : Text → Text}
    (spelled : ∀ keyword word, text (entry keyword word) = spell word) {wanted : Text} {made : α} :
    (listings order words entry).find? (text · = wanted) = some made ↔
      ∃ keyword, order.find? (fun keyword => wanted ∈ (words keyword).map spell) = some keyword ∧
        ∃ word, (words keyword).find? (spell · = wanted) = some word ∧ entry keyword word = made := by
  induction order with
  | nil => simp [listings]
  | cons first rest ih =>
      have own : ((words first).map (entry first)).find? (text · = wanted) =
          ((words first).find? (spell · = wanted)).map (entry first) := by
        simp only [List.find?_map, Function.comp_def, spelled]
      rw [listings, List.flatMap_cons, List.find?_append, own]
      cases found : (words first).find? (spell · = wanted) with
      | some word =>
          have lists : wanted ∈ (words first).map spell := by
            have same : spell word = wanted := by simpa using List.find?_some found
            exact same ▸ List.mem_map_of_mem (List.mem_of_find?_eq_some found)
          rw [Option.map_some, Option.some_or, List.find?_cons_of_pos (by simpa using lists)]
          constructor
          · rintro ⟨⟩
            exact ⟨first, rfl, word, found, rfl⟩
          · rintro ⟨_, ⟨⟩, other, again, rfl⟩
            rw [found] at again
            cases again
            rfl
      | none =>
          have lacks : wanted ∉ (words first).map spell := by
            simpa using List.find?_eq_none.mp found
          rw [Option.map_none, Option.none_or, List.find?_cons_of_neg (by simpa using lacks)]
          exact ih

end Categories

namespace Dialect

variable (dialect : Dialect)

/- Which category a text belongs to is told by the lists alone. The orders are written out here, apart from
those the tables are made with: of several categories that list one text, the first of these has it. -/

def blockRole? (text : Text) : Option BlockKeyword :=
  [.feature, .rule, .background, .scenarioOutline, .scenario, .examples].find? fun keyword =>
    text ∈ dialect.words (.block keyword)

def blockListings : List BlockSurface :=
  listings blockOrder (fun keyword => dialect.words (.block keyword)) .mk

theorem blockTable_eq : dialect.blockTable = tableOf (·.text) dialect.blockListings := rfl

variable {dialect}

theorem blockRole?_of_mem {surface : BlockSurface} (member : surface ∈ dialect.blockTable) :
    dialect.blockRole? surface.text = some surface.keyword := by
  have spelled : ∀ keyword word, (BlockSurface.mk keyword word).text = id word := fun _ _ => rfl
  obtain ⟨keyword, role, _, _, rfl⟩ := (find?_listings spelled).mp ((mem_tableOf _).mp member)
  simpa [blockRole?, blockOrder] using role

theorem listed_of_blockRole? {text : Text} {keyword : BlockKeyword}
    (role : dialect.blockRole? text = some keyword) : text ∈ dialect.words (.block keyword) := by
  simpa using List.find?_some (p := fun keyword => text ∈ dialect.words (.block keyword)) role

/-- No word is missing in the table, whatever its category. -/
theorem exists_mem_blockTable {keyword : BlockKeyword} {word : Text}
    (listed : word ∈ dialect.words (.block keyword)) :
    ∃ surface ∈ dialect.blockTable, surface.text = word :=
  exists_mem_tableOf _ (mem_listings.mpr ⟨keyword, mem_blockOrder keyword, word, listed, rfl⟩ :
    BlockSurface.mk keyword word ∈ dialect.blockListings)

theorem mem_blockTable_iff {surface : BlockSurface} :
    surface ∈ dialect.blockTable ↔ dialect.blockRole? surface.text = some surface.keyword := by
  constructor
  · exact blockRole?_of_mem
  · intro role
    obtain ⟨kept, member, same⟩ := exists_mem_blockTable (listed_of_blockRole? role)
    have other := blockRole?_of_mem member
    rw [same, role, Option.some.injEq] at other
    have equal : surface = kept := by
      cases kept
      cases surface
      simp_all
    exact equal ▸ member

theorem block?_eq_some_iff {body : Text} {surface : BlockSurface} :
    dialect.block? body = some surface ↔
      dialect.blockRole? surface.text = some surface.keyword ∧ surface.text ++ [':'] <+: body ∧
        ∀ keyword, ∀ word ∈ dialect.words (.block keyword), word ++ [':'] <+: body →
          word.length ≤ surface.text.length := by
  rw [block?, blockTable_eq, find?_tableOf_iff _ fun _ => BlockSurface.starts_of_opens,
    ← blockTable_eq]
  constructor
  · intro longest
    refine ⟨blockRole?_of_mem longest.listed, BlockSurface.opens_iff.mp longest.fitting, ?_⟩
    intro keyword word listed start
    obtain ⟨other, member, rfl⟩ := exists_mem_blockTable listed
    exact longest.longest other member (BlockSurface.opens_iff.mpr start)
  · rintro ⟨role, start, longest⟩
    refine ⟨mem_blockTable_iff.mpr role, BlockSurface.opens_iff.mpr start, ?_⟩
    intro other member opens
    exact longest other.keyword other.text (listed_of_blockRole? (blockRole?_of_mem member))
      (BlockSurface.opens_iff.mp opens)

theorem block?_eq_none_iff {body : Text} :
    dialect.block? body = none ↔
      ∀ keyword, ∀ word ∈ dialect.words (.block keyword), ¬ word ++ [':'] <+: body := by
  rw [block?, List.find?_eq_none]
  constructor
  · intro passed keyword word listed start
    obtain ⟨surface, member, rfl⟩ := exists_mem_blockTable listed
    exact passed surface member (BlockSurface.opens_iff.mpr start)
  · intro passed surface member opens
    exact passed surface.keyword surface.text (listed_of_blockRole? (blockRole?_of_mem member))
      (BlockSurface.opens_iff.mp opens)

/-- Roles and words ask only what the lists hold, so a reordered list answers the same. -/
theorem block?_perm {other : Dialect} (body : Text)
    (reordered : ∀ keyword, (other.words (.block keyword)).Perm (dialect.words (.block keyword))) :
    other.block? body = dialect.block? body := by
  apply Option.ext
  intro surface
  simp only [block?_eq_some_iff, blockRole?, (reordered _).mem_iff]

variable (dialect) in
def stepRole? (text : Text) : Option StepKeyword :=
  [.and, .but, .given, .when, .«then»].find? fun keyword =>
    text ∈ (dialect.words (.step keyword)).map Text.trimEnd

variable (dialect) in
def stepListings : List StepSurface :=
  listings stepOrder (fun keyword => dialect.words (.step keyword)) .ofWord

variable (dialect) in
theorem stepTable_eq : dialect.stepTable = tableOf (·.text) dialect.stepListings := rfl

theorem mem_stepTable_iff {surface : StepSurface} :
    surface ∈ dialect.stepTable ↔
      dialect.stepListings.find? (·.text = surface.text) = some surface :=
  mem_tableOf _

/-- An entry has the first category that lists its text, and the first word there tells whether white space
must follow. -/
theorem mem_stepTable_iff_words {surface : StepSurface} :
    surface ∈ dialect.stepTable ↔
      dialect.stepRole? surface.text = some surface.keyword ∧
        ∃ word, (dialect.words (.step surface.keyword)).find? (·.trimEnd = surface.text) = some word ∧
          (surface.separated = true ↔ surface.text ≠ word) := by
  have spelled : ∀ keyword word, (StepSurface.ofWord keyword word).text = word.trimEnd :=
    fun _ _ => rfl
  rw [mem_stepTable_iff, stepListings, find?_listings spelled]
  constructor
  · rintro ⟨keyword, role, word, first, rfl⟩
    exact ⟨role, word, first, by simp [StepSurface.ofWord]⟩
  · rintro ⟨role, word, first, separated⟩
    refine ⟨surface.keyword, role, word, first, ?_⟩
    obtain ⟨keyword, text, apart⟩ := surface
    obtain rfl : word.trimEnd = text := by simpa using List.find?_some first
    have told : apart = decide (word.trimEnd ≠ word) :=
      Bool.eq_iff_iff.mpr (separated.trans decide_eq_true_iff.symm)
    rw [told]
    rfl

theorem stepRole?_of_mem {surface : StepSurface} (member : surface ∈ dialect.stepTable) :
    dialect.stepRole? surface.text = some surface.keyword :=
  (mem_stepTable_iff_words.mp member).1

theorem exists_mem_stepTable {keyword : StepKeyword} {word : Text}
    (listed : word ∈ dialect.words (.step keyword)) :
    ∃ surface ∈ dialect.stepTable, surface.text = word.trimEnd :=
  exists_mem_tableOf StepSurface.text
    (mem_listings.mpr ⟨keyword, mem_stepOrder keyword, word, listed, rfl⟩ :
      StepSurface.ofWord keyword word ∈ dialect.stepListings)

theorem trimEnd_of_mem {surface : StepSurface} (member : surface ∈ dialect.stepTable) :
    surface.text.trimEnd = surface.text := by
  obtain ⟨_, _, word, _, rfl⟩ := mem_listings.mp (listed_of_mem_tableOf _ member)
  exact Text.dropTrailing_idem _ word

/-- The role read back from a text is the one that the lists give it. -/
theorem stepKeyword?_eq (dialect : Dialect) (text : Text) :
    dialect.stepKeyword? text = dialect.stepRole? text.trimEnd := by
  rw [stepKeyword?]
  cases found : dialect.stepTable.find? (·.text = text.trimEnd) with
  | some surface =>
      have spelled : surface.text = text.trimEnd := by
        simpa using List.find?_some found
      exact (spelled ▸ stepRole?_of_mem (List.mem_of_find?_eq_some found)).symm
  | none =>
      refine (List.find?_eq_none.mpr ?_).symm
      intro keyword _ listed
      obtain ⟨word, member, same⟩ := List.mem_map.mp (of_decide_eq_true listed)
      obtain ⟨kept, held, equal⟩ := exists_mem_stepTable member
      exact List.find?_eq_none.mp found kept held (decide_eq_true (equal.trans same))

theorem stepKeyword?_append {surface : StepSurface} {separator : Text}
    (member : surface ∈ dialect.stepTable) (sets : surface.Sets separator) :
    dialect.stepKeyword? (surface.text ++ separator) = some surface.keyword := by
  rw [stepKeyword?_eq, sets.trimEnd, trimEnd_of_mem member, stepRole?_of_mem member]

theorem step?_eq_some_iff {body : Text} {surface : StepSurface} :
    dialect.step? body = some surface ↔
      Longest (·.text) (·.Starts body) dialect.stepTable surface := by
  simp only [← StepSurface.opens_iff]
  rw [step?, stepTable_eq]
  exact find?_tableOf_iff _ fun _ opens => (StepSurface.opens_iff.mp opens).starts_text

theorem step?_eq_none_iff {body : Text} :
    dialect.step? body = none ↔ ∀ surface ∈ dialect.stepTable, ¬ surface.Starts body := by
  simp only [step?, List.find?_eq_none, StepSurface.opens_iff]

end Dialect

/-- A line takes the longest keyword that fits it, and takes none only if none fits. The keyword has the role
of the first category that lists its text, in the orders of `blockRole?` and `stepRole?`. The tables hold
every word of every category, each text once, and whether white space must follow a step keyword is told
by the first word with its text. For block keywords the order within a category does not matter. -/
theorem longest_keyword (dialect : Dialect) (body : Text) :
    (∀ surface, dialect.block? body = some surface ↔
      dialect.blockRole? surface.text = some surface.keyword ∧ surface.text ++ [':'] <+: body ∧
        ∀ keyword, ∀ word ∈ dialect.words (.block keyword), word ++ [':'] <+: body →
          word.length ≤ surface.text.length) ∧
    (dialect.block? body = none ↔
      ∀ keyword, ∀ word ∈ dialect.words (.block keyword), ¬ word ++ [':'] <+: body) ∧
    (∀ surface, dialect.step? body = some surface ↔
      Longest (·.text) (·.Starts body) dialect.stepTable surface) ∧
    (dialect.step? body = none ↔ ∀ surface ∈ dialect.stepTable, ¬ surface.Starts body) ∧
    (∀ surface, surface ∈ dialect.blockTable ↔
      dialect.blockRole? surface.text = some surface.keyword) ∧
    (∀ surface, surface ∈ dialect.stepTable ↔
      dialect.stepRole? surface.text = some surface.keyword ∧
        ∃ word, (dialect.words (.step surface.keyword)).find? (·.trimEnd = surface.text) = some word ∧
          (surface.separated = true ↔ surface.text ≠ word)) ∧
    (∀ keyword, ∀ word ∈ dialect.words (.block keyword),
      ∃ surface ∈ dialect.blockTable, surface.text = word) ∧
    (∀ keyword, ∀ word ∈ dialect.words (.step keyword),
      ∃ surface ∈ dialect.stepTable, surface.text = word.trimEnd) ∧
    (dialect.blockTable.map (·.text)).Nodup ∧ (dialect.stepTable.map (·.text)).Nodup ∧
    ∀ other : Dialect,
      (∀ keyword, (other.words (.block keyword)).Perm (dialect.words (.block keyword))) →
        other.block? body = dialect.block? body :=
  ⟨fun _ => Dialect.block?_eq_some_iff, Dialect.block?_eq_none_iff,
    fun _ => Dialect.step?_eq_some_iff, Dialect.step?_eq_none_iff,
    fun _ => Dialect.mem_blockTable_iff, fun _ => Dialect.mem_stepTable_iff_words,
    fun _ _ => Dialect.exists_mem_blockTable, fun _ _ => Dialect.exists_mem_stepTable,
    nodup_tableOf _ _, nodup_tableOf _ _, fun _ => Dialect.block?_perm body⟩

def reversedEnglish : Dialect :=
  .ofWords [] [] fun category => (Dialect.english.words category).reverse

def bulletedFrench : Dialect :=
  { Dialect.french with
    given := ["* ", "Soit "].map String.toList
    «then» := ["Alors ", "* "].map String.toList
    and := ["Et ", "Et que ", "* "].map String.toList }

def doubleText : Text :=
  "Scenario Outline: Scenario: o".toList

def nestedLine : Text :=
  "Et que\u3000x".toList

def bulletLine : Text :=
  "* x".toList

theorem longest_keyword_doubleText :
    (Dialect.english.block? doubleText = some ⟨.scenarioOutline, "Scenario Outline".toList⟩ ∧
      reversedEnglish.block? doubleText = Dialect.english.block? doubleText) ∧
    (bulletedFrench.step? nestedLine = some ⟨.and, "Et que".toList, true⟩ ∧
      Longest (·.text) (·.Starts nestedLine) bulletedFrench.stepTable ⟨.and, "Et que".toList, true⟩) ∧
    bulletedFrench.step? bulletLine = some ⟨.and, "*".toList, true⟩ ∧
      ⟨.and, "*".toList, true⟩ ∈ bulletedFrench.stepTable ∧
      ⟨.given, "*".toList, true⟩ ∉ bulletedFrench.stepTable := by
  obtain ⟨_, _, _, _, _, _, _, _, _, _, reordered⟩ := longest_keyword .english doubleText
  obtain ⟨_, _, longest, _⟩ := longest_keyword bulletedFrench nestedLine
  obtain ⟨_, _, _, _, _, filed, _⟩ := longest_keyword bulletedFrench bulletLine
  have nested : bulletedFrench.step? nestedLine = some ⟨.and, "Et que".toList, true⟩ := by
    decide +kernel
  refine ⟨⟨by decide +kernel, reordered reversedEnglish ?_⟩, ⟨nested, (longest _).mp nested⟩,
    by decide +kernel, (filed _).mpr ?_, fun other => ?_⟩
  · intro keyword
    rw [reversedEnglish, Dialect.words_ofWords]
    exact List.reverse_perm _
  · exact ⟨by decide +kernel, "* ".toList, by decide +kernel, by decide⟩
  · have role := ((filed _).mp other).1
    revert role
    decide +kernel

end Gherkin
