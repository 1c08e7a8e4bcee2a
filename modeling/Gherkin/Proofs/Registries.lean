import Gherkin.Dialect.Builtin
import Gherkin.Dialect.Decode
import Mathlib.Data.List.Sort
import Mathlib.Data.List.TakeWhile

/-!
Registries under use.

A registry is read from a written table or gets one dialect after the other. Whatever has been done to
it, its dialects are in normal form and lack no required keyword: an insertion stores the normal form of
a dialect or changes nothing. A registry is determined by what is found in it, so a dialect that it
holds can be inserted again without effect, and a table can be gone through in any order.
-/

namespace Gherkin

namespace Dialect

variable {category : Category} {word : Text}

theorem Bare.trim_eq (bare : Bare word) : word.trim = word := by
  have start : word.trimStart = word := by
    cases word with
    | nil => rfl
    | cons c rest => exact List.dropWhile_cons_of_neg (by simp [bare.head c rfl])
  rw [Text.trim, start]
  exact Text.dropTrailing_eq_self _ _ bare.last

theorem Bare.trimStart_append (bare : Bare word) (rest : Text) :
    (word ++ rest).trimStart = word ++ rest := by
  obtain ⟨c, more, rfl⟩ := List.exists_cons_of_ne_nil bare.nonempty
  exact List.dropWhile_cons_of_neg (by simp [bare.head c rfl])

/-- One space behind a bare word is all that is trimmed off. -/
theorem Bare.trimEnd_space (bare : Bare word) : (word ++ [' ']).trimEnd = word :=
  (Text.dropTrailing_concat word rfl).trans (Text.dropTrailing_eq_self _ _ bare.last)

theorem normalWord_eq_self (normal : NormalWord category word) : normalWord category word = word := by
  cases category with
  | block keyword => exact Bare.trim_eq normal
  | step keyword =>
      rcases normal with bare | ⟨inner, bare, rfl⟩
      · have same : word.trimStart.trimEnd = word := bare.trim_eq
        have start : word.trimStart = word := by simpa using bare.trimStart_append []
        simp [normalWord, start, start ▸ same]
      · have start := bare.trimStart_append [' ']
        simp [normalWord, start, bare.trimEnd_space, bare.nonempty]

theorem NormalWord.ne_nil (normal : NormalWord category word) : word ≠ [] := by
  cases category with
  | block keyword => exact normal.nonempty
  | step keyword =>
      rcases normal with bare | ⟨inner, _, rfl⟩
      · exact bare.nonempty
      · simp

theorem normalWords_eq_self {list : List Text} (normal : ∀ word ∈ list, NormalWord category word) :
    normalWords category list = list := by
  have same : list.map (normalWord category) = list :=
    (List.map_congr_left fun word member => normalWord_eq_self (normal word member)).trans
      (List.map_id' list)
  rw [normalWords, same, List.filter_eq_self]
  intro word member
  simpa using (normal word member).ne_nil

theorem normalise_eq_self {dialect : Dialect}
    (normal : ∀ category, ∀ word ∈ dialect.words category, NormalWord category word) :
    dialect.normalise = dialect := by
  have same : (fun category => normalWords category (dialect.words category)) = dialect.words :=
    funext fun category => normalWords_eq_self (normal category)
  rw [normalise, same, ofWords_words]

theorem normalise_idem (dialect : Dialect) : dialect.normalise.normalise = dialect.normalise :=
  normalise_eq_self (normal_normalise dialect)

/-- No word of a category shows anything. -/
def Lacks (dialect : Dialect) (category : Category) : Prop :=
  ∀ word ∈ dialect.words category, ∀ c ∈ word, Text.isSpace c = true

theorem normalWord_eq_nil_iff : normalWord category word = [] ↔ ∀ c ∈ word, Text.isSpace c = true := by
  have bare : normalWord category word = [] ↔ word.trim = [] := by
    cases category with
    | block keyword => rfl
    | step keyword =>
        by_cases empty : word.trimStart.trimEnd = []
        · simp [normalWord, Text.trim, empty]
        · by_cases plain : word.trimStart.trimEnd = word.trimStart <;>
            simp [normalWord, Text.trim, empty, plain]
  rw [bare]
  constructor
  · intro empty c member
    have start := Text.of_dropTrailing_eq_nil _ _ empty
    rw [Text.trimStart] at start
    rw [← List.takeWhile_append_dropWhile (p := Text.isSpace) (l := word)] at member
    rcases List.mem_append.mp member with front | behind
    · exact List.all_eq_true.mp List.all_takeWhile c front
    · exact start c behind
  · intro spaces
    rw [Text.trim, Text.trimStart, List.dropWhile_eq_nil_iff.mpr spaces]
    rfl

theorem words_normalise_eq_nil_iff (dialect : Dialect) :
    dialect.normalise.words category = [] ↔ dialect.Lacks category := by
  rw [normalise, words_ofWords, normalWords, List.filter_eq_nil_iff, List.forall_mem_map]
  simp only [decide_not, Bool.not_eq_eq_eq_not, Bool.not_true, decide_eq_false_iff_not, not_not,
    normalWord_eq_nil_iff]
  rfl

end Dialect

namespace Registry

variable {registry : Registry} {code : Text} {dialect held : Dialect}

theorem nodup_codes (registry : Registry) : (registry.entries.map (·.1)).Nodup := by
  rw [List.Nodup, List.pairwise_map]
  apply registry.ordered.imp
  intro one other smaller same
  exact List.lt_irrefl _ (same ▸ smaller)

theorem mem_entries_iff (entry : Text × Dialect) :
    entry ∈ registry.entries ↔ registry.find? entry.1 = some entry.2 := by
  constructor
  · intro member
    cases found : registry.entries.find? fun other => other.1 = entry.1 with
    | none =>
        have absent := List.find?_eq_none.mp found entry member
        simp at absent
    | some other =>
        have same : other.1 = entry.1 := by simpa using List.find?_some found
        have equal := List.inj_on_of_nodup_map registry.nodup_codes
          (List.mem_of_find?_eq_some found) member same
        rw [find?, found, equal]
        rfl
  · intro found
    obtain ⟨other, listed, same⟩ := Option.map_eq_some_iff.mp found
    have equal : other.1 = entry.1 := by simpa using List.find?_some listed
    rw [show entry = other from Prod.ext equal.symm same.symm]
    exact List.mem_of_find?_eq_some listed

/-- Registries in which the same is found under every code are equal. -/
theorem ext_find? {left right : Registry} (same : ∀ code, left.find? code = right.find? code) :
    left = right := by
  have irreflexive : Std.Irrefl fun one other : Text × Dialect => one.1 < other.1 :=
    ⟨fun _ => List.lt_irrefl _⟩
  have antisymmetric : Std.Antisymm fun one other : Text × Dialect => one.1 < other.1 :=
    ⟨fun _ _ smaller larger => absurd larger (List.lt_asymm smaller)⟩
  have entries : left.entries = right.entries := by
    apply left.ordered.eq_of_mem_iff right.ordered
    intro entry
    rw [mem_entries_iff, mem_entries_iff, same]
  cases left
  cases right
  cases entries
  rfl

theorem wellFormed_of_find? (found : registry.find? code = some held) : held.WellFormed :=
  registry.wellFormed (code, held) ((mem_entries_iff (code, held)).mpr found)

/-- An insertion either stores the normal form of a dialect, which has words for everything
required, and touches nothing else, or names a required category without words. -/
theorem insert_cases (registry : Registry) (code : Text) (dialect : Dialect) :
    (∃ stored, registry.insert code dialect = .ok stored ∧
      (∀ category, category ≠ .block .rule → ¬ dialect.Lacks category) ∧
      ∀ other, stored.find? other =
        if code = other then some dialect.normalise else registry.find? other) ∨
    ∃ category, category ≠ .block .rule ∧ dialect.Lacks category ∧
      registry.insert code dialect = .error (.missingKeywords code category) := by
  unfold insert
  split
  · rename_i category missing
    have required := Category.mem_required_iff.mp (List.mem_of_find?_eq_some missing)
    have none : dialect.normalise.words category = [] := by
      simpa using List.find?_some missing
    exact Or.inr ⟨category, required, dialect.words_normalise_eq_nil_iff.mp none, rfl⟩
  · rename_i complete
    refine Or.inl ⟨_, rfl, ?_, fun other => find?_put registry code other _ _⟩
    intro category required lacks
    exact Dialect.complete_of_missing?_eq_none _ complete category required
      (dialect.words_normalise_eq_nil_iff.mpr lacks)

/-- A dialect that is held can be stored again without effect. -/
theorem insert_of_find? (found : registry.find? code = some held) :
    registry.insert code held = .ok registry := by
  have sound := wellFormed_of_find? found
  have normal := Dialect.normalise_eq_self sound.normal
  rcases registry.insert_cases code held with ⟨stored, done, _, finds⟩ | ⟨category, required, lacks, _⟩
  · have same : stored = registry := by
      apply ext_find?
      intro other
      rw [finds, normal]
      split
      · rename_i here
        rw [← here, found]
      · rfl
    rw [done, same]
  · refine absurd ?_ (sound.complete category required)
    rw [← normal]
    exact held.words_normalise_eq_nil_iff.mpr lacks

/-! Entries under different codes do not get into each other's way, so two neighbours can be swapped, and with
swaps any order is reached. -/

theorem insertAll_cons (registry : Registry) (entry : Text × Dialect) (rest : List (Text × Dialect)) :
    registry.insertAll (entry :: rest) =
      match registry.insert entry.1 entry.2 with
      | .ok next => next.insertAll rest
      | .error error => .error error := by
  rw [insertAll, List.foldlM_cons]
  cases registry.insert entry.1 entry.2 <;> rfl

def Alike : Except DialectError Registry → Except DialectError Registry → Prop
  | .ok left, .ok right => left = right
  | .error _, .error _ => True
  | _, _ => False

theorem Alike.refl (result : Except DialectError Registry) : Alike result result := by
  cases result with
  | ok registry => exact rfl
  | error error => trivial

theorem Alike.trans {first second third : Except DialectError Registry} (left : Alike first second)
    (right : Alike second third) : Alike first third := by
  match first, second, third with
  | .ok _, .ok _, .ok _ => exact Eq.trans left right
  | .error _, .error _, .error _ => trivial
  | .ok _, .error _, _ => exact left.elim
  | .error _, .ok _, _ => exact left.elim
  | .ok _, .ok _, .error _ => exact right.elim
  | .error _, .error _, .ok _ => exact right.elim

theorem insert_of_complete (registry : Registry) (code : Text)
    (complete : ¬ ∃ category, category ≠ .block .rule ∧ dialect.Lacks category) :
    ∃ stored, registry.insert code dialect = .ok stored ∧ ∀ other, stored.find? other =
      if code = other then some dialect.normalise else registry.find? other := by
  rcases registry.insert_cases code dialect with ⟨stored, done, _, finds⟩ | ⟨category, required, lacks, _⟩
  · exact ⟨stored, done, finds⟩
  · exact absurd ⟨category, required, lacks⟩ complete

/-- A dialect that lacks something is met in every order. -/
theorem insertAll_of_lacks {entries : List (Text × Dialect)} {entry : Text × Dialect}
    (member : entry ∈ entries) (lacks : ∃ category, category ≠ .block .rule ∧ entry.2.Lacks category)
    (registry : Registry) : ∃ error, registry.insertAll entries = .error error := by
  induction entries generalizing registry with
  | nil => cases member
  | cons first rest ih =>
      rw [insertAll_cons]
      rcases registry.insert_cases first.1 first.2 with
        ⟨stored, done, complete, _⟩ | ⟨_, _, _, refused⟩
      · rw [done]
        rcases List.mem_cons.mp member with rfl | later
        · obtain ⟨category, required, lacks⟩ := lacks
          exact absurd lacks (complete category required)
        · exact ih later stored
      · rw [refused]
        exact ⟨_, rfl⟩

/-- Two dialects under different codes can be inserted in either order. -/
theorem alike_swap (registry : Registry) {first second : Text × Dialect} (apart : first.1 ≠ second.1)
    (rest : List (Text × Dialect)) :
    Alike (registry.insertAll (first :: second :: rest))
      (registry.insertAll (second :: first :: rest)) := by
  -- If one of the two is refused, both orders fail. Otherwise both entries are stored, and their codes differ.
  by_cases failing : ∃ entry, (entry = first ∨ entry = second) ∧
      ∃ category, category ≠ .block .rule ∧ entry.2.Lacks category
  · obtain ⟨entry, among, lacks⟩ := failing
    have left : entry ∈ first :: second :: rest := by grind
    have right : entry ∈ second :: first :: rest := by grind
    obtain ⟨one, refusesLeft⟩ := insertAll_of_lacks left lacks registry
    obtain ⟨other, refusesRight⟩ := insertAll_of_lacks right lacks registry
    rw [refusesLeft, refusesRight]
    trivial
  · have complete : ∀ entry, entry = first ∨ entry = second →
        ¬ ∃ category, category ≠ .block .rule ∧ entry.2.Lacks category :=
      fun entry among lacks => failing ⟨entry, among, lacks⟩
    obtain ⟨one, storesOne, findsOne⟩ :=
      registry.insert_of_complete first.1 (complete first (Or.inl rfl))
    obtain ⟨two, storesTwo, findsTwo⟩ :=
      registry.insert_of_complete second.1 (complete second (Or.inr rfl))
    obtain ⟨left, storesLeft, findsLeft⟩ :=
      one.insert_of_complete second.1 (complete second (Or.inr rfl))
    obtain ⟨right, storesRight, findsRight⟩ :=
      two.insert_of_complete first.1 (complete first (Or.inl rfl))
    have same : left = right := by
      apply ext_find?
      intro code
      rw [findsLeft, findsRight, findsOne, findsTwo]
      by_cases here : first.1 = code
      · have there : second.1 ≠ code := fun there => apart (here.trans there.symm)
        simp [here, there]
      · simp [here]
    simp only [insertAll_cons, storesOne, storesTwo, storesLeft, storesRight, same]
    exact Alike.refl _

/-- Dialects under different codes can be inserted in any order. -/
theorem alike_of_perm {left right : List (Text × Dialect)} (order : left.Perm right)
    (distinct : (left.map (·.1)).Nodup) (registry : Registry) :
    Alike (registry.insertAll left) (registry.insertAll right) := by
  induction order generalizing registry with
  | nil => exact Alike.refl _
  | cons entry _ ih =>
      rw [insertAll_cons, insertAll_cons]
      cases registry.insert entry.1 entry.2 with
      | error error => trivial
      | ok next => exact ih (List.nodup_cons.mp distinct).2 next
  | swap first second rest =>
      refine registry.alike_swap ?_ rest
      intro same
      simp [same] at distinct
  | trans earlier _ first second =>
      exact (first distinct registry).trans
        (second ((earlier.map _).nodup_iff.mp distinct) registry)

inductive Call where
  /-- Puts what a written table holds in the place of the registry. -/
  | load (text : Text)
  | insert (code : Text) (dialect : Dialect)

def table? (text : Text) : Option (List (Text × Dialect)) :=
  (Json.parse text).bind listed?

def answer (registry : Registry) : Call → Except DialectError Registry
  | .load text => Registry.load text
  | .insert code dialect => registry.insert code dialect

/-- The registry after a call, which is the same if the call fails. -/
def after (registry : Registry) (call : Call) : Registry :=
  match registry.answer call with
  | .ok next => next
  | .error _ => registry

inductive Call.Offers : Call → Text → Dialect → Prop where
  | load {text code : Text} {dialect : Dialect} {table : List (Text × Dialect)}
      (read : table? text = some table) (listed : (code, dialect) ∈ table) :
      Offers (.load text) code dialect
  | insert (code : Text) (dialect : Dialect) : Offers (.insert code dialect) code dialect

theorem load_eq {text : Text} {table : List (Text × Dialect)} (read : table? text = some table) :
    Registry.load text = empty.insertAll table := by
  rw [Registry.load, ← table?, read]

theorem nodup_table {text : Text} {table : List (Text × Dialect)} (read : table? text = some table) :
    (table.map (·.1)).Nodup := by
  obtain ⟨json, _, read⟩ := Option.bind_eq_some_iff.mp read
  obtain ⟨members, _, read⟩ := Option.bind_eq_some_iff.mp read
  obtain ⟨dialects, _, same⟩ := Option.bind_eq_some_iff.mp read
  rw [← Option.some.inj same, List.Nodup, List.pairwise_map]
  exact pairwise_keepFirst _ _

theorem offered_of_insertAll {entries : List (Text × Dialect)} {result : Registry}
    (done : registry.insertAll entries = .ok result) (found : result.find? code = some held) :
    registry.find? code = some held ∨ ∃ given, (code, given) ∈ entries ∧ held = given.normalise := by
  induction entries generalizing registry with
  | nil =>
      cases done
      exact Or.inl found
  | cons entry rest ih =>
      rw [insertAll_cons] at done
      rcases registry.insert_cases entry.1 entry.2 with
        ⟨stored, stores, _, finds⟩ | ⟨_, _, _, refused⟩
      · rw [stores] at done
        rcases ih done with earlier | ⟨given, listed, same⟩
        · rw [finds] at earlier
          split at earlier
          · rename_i here
            exact Or.inr ⟨entry.2, by simp [← here], (Option.some.inj earlier).symm⟩
          · exact Or.inl earlier
        · exact Or.inr ⟨given, List.mem_cons_of_mem _ listed, same⟩
      · rw [refused] at done
        cases done

/-- What is found after a call was there before or comes from the call. -/
theorem offered_of_after {call : Call} (found : (registry.after call).find? code = some held) :
    registry.find? code = some held ∨ ∃ given, call.Offers code given ∧ held = given.normalise := by
  cases done : registry.answer call with
  | error error =>
      rw [after, done] at found
      exact Or.inl found
  | ok next =>
      rw [after, done] at found
      cases call with
      | load text =>
          cases read : table? text with
          | none =>
              rw [answer, Registry.load, ← table?, read] at done
              cases done
          | some table =>
              rw [answer, load_eq read] at done
              rcases offered_of_insertAll done found with none | ⟨given, listed, same⟩
              · cases none
              · exact Or.inr ⟨given, .load read listed, same⟩
      | insert name dialect =>
          have one : registry.insertAll [(name, dialect)] = .ok next := by
            rw [answer] at done
            rw [insertAll_cons, done]
            rfl
          rcases offered_of_insertAll one found with earlier | ⟨given, listed, same⟩
          · exact Or.inl earlier
          · obtain ⟨rfl, rfl⟩ := Prod.mk.inj (List.mem_singleton.mp listed)
            exact Or.inr ⟨given, .insert code given, same⟩

theorem offered_of_calls {calls : List Call}
    (found : (calls.foldl after registry).find? code = some held) :
    registry.find? code = some held ∨
      ∃ call ∈ calls, ∃ given, call.Offers code given ∧ held = given.normalise := by
  induction calls generalizing registry with
  | nil => exact Or.inl found
  | cons call rest ih =>
      rcases ih found with earlier | ⟨other, later, offered⟩
      · rcases offered_of_after earlier with before | offered
        · exact Or.inl before
        · exact Or.inr ⟨call, List.mem_cons_self, offered⟩
      · exact Or.inr ⟨other, List.mem_cons_of_mem _ later, offered⟩

/-- Whatever is done to a registry, the dialects found in it are well formed and are normal forms of what
it was given. An insertion stores the normal form of a dialect and touches nothing else, or it fails for
want of a required keyword and changes nothing. Normal forms stay as they are, and so does a registry
that is given a dialect of its own again. The order in which a table is gone through decides neither
whether it is accepted nor what the registry then holds. -/
theorem maintained :
    (∀ (start : Registry) (calls : List Call) (code : Text) (held : Dialect),
      (calls.foldl after start).find? code = some held →
        held.WellFormed ∧ (start.find? code = some held ∨
          ∃ call ∈ calls, ∃ given, call.Offers code given ∧ held = given.normalise)) ∧
    (∀ (registry : Registry) (code : Text) (dialect : Dialect),
      (∃ stored, registry.insert code dialect = .ok stored ∧
        registry.after (.insert code dialect) = stored ∧
        (∀ category, category ≠ .block .rule → ¬ dialect.Lacks category) ∧
        ∀ other, stored.find? other =
          if code = other then some dialect.normalise else registry.find? other) ∨
      ∃ category, category ≠ .block .rule ∧ dialect.Lacks category ∧
        registry.insert code dialect = .error (.missingKeywords code category) ∧
        registry.after (.insert code dialect) = registry) ∧
    (∀ dialect : Dialect, dialect.normalise.normalise = dialect.normalise) ∧
    (∀ (registry : Registry) (code : Text) (held : Dialect), registry.find? code = some held →
      registry.insert code held = .ok registry) ∧
    (∀ table order : List (Text × Dialect), (table.map (·.1)).Nodup → order.Perm table →
      Alike (empty.insertAll table) (empty.insertAll order)) ∧
    ∀ (text : Text) (table : List (Text × Dialect)), table? text = some table →
      (table.map (·.1)).Nodup ∧ load text = empty.insertAll table := by
  refine ⟨?_, ?_, Dialect.normalise_idem, fun _ _ _ => insert_of_find?, ?_, ?_⟩
  · intro start calls code held found
    exact ⟨wellFormed_of_find? found, offered_of_calls found⟩
  · intro registry code dialect
    rcases registry.insert_cases code dialect with
      ⟨stored, done, complete, finds⟩ | ⟨category, required, lacks, refused⟩
    · exact Or.inl ⟨stored, done, by rw [after, answer, done], complete, finds⟩
    · exact Or.inr ⟨category, required, lacks, refused, by rw [after, answer, refused]⟩
  · intro table order distinct permuted
    exact alike_of_perm permuted.symm distinct empty
  · intro text table read
    exact ⟨nodup_table read, load_eq read⟩

def untidy : Dialect :=
  { Dialect.english with given := [" Given\t ".toList, "\t".toList] }

def butless : Dialect :=
  { Dialect.english with but := [" ".toList] }

theorem lacks_butless : butless.Lacks (.step .but) := by
  intro word member c inside
  obtain rfl := List.mem_singleton.mp member
  obtain rfl : c = ' ' := List.mem_singleton.mp inside
  rfl

def twiceText : Text :=
  ("\x7b\"a\": [\"A\", \"A\", [\"F\"], [], [\"B\"], [\"S\"], [\"O\"], [\"E\"], [\"G \"], [\"W\"], [\"T\"], [\"N\"], [\"U\"]], " ++
    "\"a\": [\"L\", \"L\", [\" F\"], [\"\"], [\"B\"], [\"S\"], [\"O\"], [\"E\"], [\"G \"], [\"W\"], [\"T\"], [\"N\"], [\"U\"]]\x7d").toList

theorem maintained_untidy :
    (([.insert "xx".toList untidy, .insert "xx".toList butless].foldl after empty).find?
        "xx".toList = some Dialect.english ∧ Dialect.english.WellFormed) ∧
      (after empty (.insert "xx".toList butless) = empty) ∧
      (after empty (.insert "xx".toList untidy)).insert "xx".toList Dialect.english =
        .ok (after empty (.insert "xx".toList untidy)) ∧
      Alike (empty.insertAll [("xx".toList, untidy), ("yy".toList, butless)])
        (empty.insertAll [("yy".toList, butless), ("xx".toList, untidy)]) ∧
      ∃ table, table? twiceText = some table ∧
        table.map (fun entry => (entry.1, entry.2.name)) = [("a".toList, "L".toList)] ∧
        load twiceText = empty.insertAll table := by
  obtain ⟨sound, inserts, _, again, orders, loads⟩ := maintained
  have found : ([.insert "xx".toList untidy, .insert "xx".toList butless].foldl after empty).find?
      "xx".toList = some Dialect.english := by decide +kernel
  refine ⟨⟨found, (sound _ _ _ _ found).1⟩, ?_, again _ _ _ (by decide +kernel),
    orders _ _ (by decide) (List.Perm.swap _ _ _), ?_⟩
  · rcases inserts empty "xx".toList butless with ⟨_, _, _, complete, _⟩ | ⟨_, _, _, _, same⟩
    · exact absurd lacks_butless (complete (.step .but) (by decide))
    · exact same
  · have listed : (table? twiceText).map (·.map fun entry => (entry.1, entry.2.name)) =
        some [("a".toList, "L".toList)] := by decide +kernel
    obtain ⟨table, read, names⟩ := Option.map_eq_some_iff.mp listed
    exact ⟨table, read, names, (loads twiceText table read).2⟩

end Registry

end Gherkin
