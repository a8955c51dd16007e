import Mathlib.Data.List.Nodup
import ThreeWay.Forest

/-!
# Looking Up Names in a Forest

A forest is read in two ways: walked entry by entry, and looked up by a chain of names. The two agree
where the names of one folder differ, because then the first entry with a name is the only one.

`Forest.AllNames` says that something holds of every name at every level, and it is how the conditions on
the names of a disk or a tree are stated. A lookup that succeeds only passes names that the forest has.

Whether the first entry is a leaf or a folder rarely matters, since a leaf is an entry without members. So
most inductions here are on `Forest.cons`, with one case for both.

A property of every name, or of every leaf, is defined by recursion, so it can be decided on a given forest. What
it says of a single name or leaf is what `AllNames.of_lookup` and `AllLeaves.of_lookup` say.

A chain of names that is looked up passes through entries. `Entry.lookup` starts at an entry and `Forest.lookup`
at the members of a folder; the empty chain leads from an entry to itself and from a forest nowhere, and this is
the only difference between the two. A chain of one more name is looked up in two steps, which is what lets a path
be followed either from the front, as the recursion does, or from the back, by the folder that holds the last
name.

`lookup_cons_eq_some_iff` is the lemma that most inductions use. It has one disjunct for each place of what is
found, the first entry, something below it, something behind it, and needs that the first name does not occur
again.

## Main definitions

* `Forest.Distinct`: The names of every folder differ.
* `Forest.AllNames`, `Forest.AllLeaves`: A property of every name, of every leaf, at every level.

## Theorems

* `cons_induction`: An induction with one case for leaves and folders.
* `firstNames_cons`, `distinct_cons`, `allNames_cons`, `allLeaves_cons`: What is defined by recursion, entry by
  entry.
* `find?_cons`, `lookup_cons_eq_some_iff`: Looking up a name, and a chain of names, entry by entry.
* `lookup_cons_of_rest`: What is found behind the first entry is found in the whole forest.
* `Entry.lookup_append`, `Entry.lookup_concat`: A lookup can be done in two steps.
* `Entry.lookup_eq_some_iff`, `Entry.folder_of_lookup_concat`: An entry leads to itself, and a folder further
  down.
* `lookup_below_leaf`: Nothing lies below a leaf.
* `AllNames.of_find?`, `AllLeaves.of_find?`: What holds everywhere holds below a name that is found.
* `AllNames.of_lookup`, `AllLeaves.of_lookup`: A lookup passes names of the forest only.
* `Distinct.of_find?`, `Distinct.of_lookup_folder`: Names that differ in a forest differ in a folder of it.
* `mem_entries_iff`, `mem_entries_iff_lookup`: The entries of a folder are what its names lead to.
* `mem_leaves_iff`, `nodup_leavesFrom`: The leaves of a forest are what its chains of names lead to, each once.
-/

namespace ThreeWay

namespace Forest

variable {α β : Type}

/-- The names of one folder. -/
def firstNames (f : Forest α β) : List Bytes :=
  f.entries.map Prod.fst

/-- The names of every folder differ. -/
def Distinct : Forest α β → Prop
  | .nil => True
  | .leaf name _ rest => name ∉ rest.firstNames ∧ rest.Distinct
  | .folder name _ members rest => name ∉ rest.firstNames ∧ members.Distinct ∧ rest.Distinct

/-- Every name at every level has a property. -/
def AllNames (P : Bytes → Prop) : Forest α β → Prop
  | .nil => True
  | .leaf name _ rest => P name ∧ rest.AllNames P
  | .folder name _ members rest => P name ∧ members.AllNames P ∧ rest.AllNames P

/-- Every leaf at every level has a property. -/
def AllLeaves (P : α → Prop) : Forest α β → Prop
  | .nil => True
  | .leaf _ value rest => P value ∧ rest.AllLeaves P
  | .folder _ _ members rest => members.AllLeaves P ∧ rest.AllLeaves P

/-- Whether the names of every folder differ. -/
def decideDistinct : (f : Forest α β) → Decidable f.Distinct
  | .nil => isTrue trivial
  | .leaf name _ rest => @instDecidableAnd (name ∉ rest.firstNames) _ _ rest.decideDistinct
  | .folder name _ members rest => @instDecidableAnd (name ∉ rest.firstNames) _ _
      (@instDecidableAnd _ _ members.decideDistinct rest.decideDistinct)

instance (f : Forest α β) : Decidable f.Distinct :=
  f.decideDistinct

/-- Whether every name has a property. -/
def decideAllNames (P : Bytes → Prop) [DecidablePred P] : (f : Forest α β) → Decidable (f.AllNames P)
  | .nil => isTrue trivial
  | .leaf name _ rest => @instDecidableAnd (P name) _ _ (rest.decideAllNames P)
  | .folder name _ members rest => @instDecidableAnd (P name) _ _
      (@instDecidableAnd _ _ (members.decideAllNames P) (rest.decideAllNames P))

instance (P : Bytes → Prop) [DecidablePred P] (f : Forest α β) : Decidable (f.AllNames P) :=
  f.decideAllNames P

/-- Whether every leaf has a property. -/
def decideAllLeaves (P : α → Prop) [DecidablePred P] : (f : Forest α β) → Decidable (f.AllLeaves P)
  | .nil => isTrue trivial
  | .leaf _ value rest => @instDecidableAnd (P value) _ _ (rest.decideAllLeaves P)
  | .folder _ _ members rest =>
      @instDecidableAnd _ _ (members.decideAllLeaves P) (rest.decideAllLeaves P)

instance (P : α → Prop) [DecidablePred P] (f : Forest α β) : Decidable (f.AllLeaves P) :=
  f.decideAllLeaves P

/-- What holds of the empty forest, and of a forest with one more entry in front if it holds of what lies
    below that entry, holds of every forest. -/
@[elab_as_elim]
theorem cons_induction {Q : Forest α β → Prop} (nil : Q .nil)
    (cons : ∀ name (entry : Entry α β) rest, Q entry.members → Q rest → Q (cons name entry rest))
    (f : Forest α β) : Q f := by
  induction f with
  | nil => exact nil
  | leaf name value rest ih => exact cons name (.leaf value) rest nil ih
  | folder name value members rest ihm ih => exact cons name (.folder value members) rest ihm ih

section

variable {name other : Bytes} {entry : Entry α β} {rest : Forest α β}

theorem entries_cons : (cons name entry rest).entries = (name, entry) :: rest.entries := by
  cases entry <;> rfl

theorem firstNames_cons : (cons name entry rest).firstNames = name :: rest.firstNames := by
  cases entry <;> rfl

theorem distinct_cons : (cons name entry rest).Distinct ↔
    name ∉ rest.firstNames ∧ entry.members.Distinct ∧ rest.Distinct := by
  cases entry with
  | leaf value => exact and_congr_right fun _ => iff_of_eq (true_and _).symm
  | folder value members => rfl

theorem allNames_cons {P : Bytes → Prop} : (cons name entry rest).AllNames P ↔
    P name ∧ entry.members.AllNames P ∧ rest.AllNames P := by
  cases entry with
  | leaf value => exact and_congr_right fun _ => iff_of_eq (true_and _).symm
  | folder value members => rfl

theorem allLeaves_cons {P : α → Prop} : (cons name entry rest).AllLeaves P ↔
    (∀ value, entry = .leaf value → P value) ∧ entry.members.AllLeaves P ∧ rest.AllLeaves P := by
  cases entry with
  | leaf value =>
      constructor
      · rintro ⟨hvalue, hrest⟩
        refine ⟨fun v hv => ?_, trivial, hrest⟩
        cases hv
        exact hvalue
      · rintro ⟨hvalue, _, hrest⟩
        exact ⟨hvalue value rfl, hrest⟩
  | folder value members =>
      constructor
      · rintro ⟨hmembers, hrest⟩
        exact ⟨fun _ hv => (nomatch hv), hmembers, hrest⟩
      · rintro ⟨_, hmembers, hrest⟩
        exact ⟨hmembers, hrest⟩

/-- A name is looked up entry by entry. -/
theorem find?_cons : (cons other entry rest).find? name =
    if name = other then some entry else rest.find? name := by
  unfold find?
  rw [entries_cons, List.lookup_cons]
  by_cases h : name = other
  · rw [if_pos h, beq_iff_eq.mpr h]
  · rw [if_neg h, beq_eq_false_iff_ne.mpr h]

end

theorem mem_firstNames_of_find? {f : Forest α β} {name : Bytes} {entry : Entry α β}
    (h : f.find? name = some entry) : name ∈ f.firstNames := by
  induction f using cons_induction with
  | nil => cases h
  | cons other e rest _ ih =>
      rw [find?_cons] at h
      rw [firstNames_cons, List.mem_cons]
      split_ifs at h with hn
      · exact Or.inl hn
      · exact Or.inr (ih h)

section

variable {name : Bytes} {entry found : Entry α β} {rest : Forest α β}

/-- A chain of names that starts with the name of the first entry is looked up in that entry. -/
theorem lookup_cons_self (more : List Bytes) :
    (cons name entry rest).lookup (name :: more) = entry.lookup more := by
  rw [lookup, find?_cons, if_pos rfl, Option.bind_some]

theorem lookup_cons_of_ne {first : Bytes} (hne : first ≠ name) (more : List Bytes) :
    (cons name entry rest).lookup (first :: more) = rest.lookup (first :: more) := by
  rw [lookup, find?_cons, if_neg hne, lookup]

/-- What is found behind the first entry is found in the whole forest, because its name differs. -/
theorem lookup_cons_of_rest (distinct : name ∉ rest.firstNames) {names : List Bytes}
    (h : rest.lookup names = some found) : (cons name entry rest).lookup names = some found := by
  cases names with
  | nil => cases h
  | cons first more =>
      rcases Option.bind_eq_some_iff.mp h with ⟨below, hf, _⟩
      have hne : first ≠ name := by
        rintro rfl
        exact distinct (mem_firstNames_of_find? hf)
      rw [lookup_cons_of_ne hne]
      exact h

end

theorem Entry.lookup_folder (value : β) (members : Forest α β) {names : List Bytes} (h : names ≠ []) :
    (Entry.folder value members : Entry α β).lookup names = members.lookup names := by
  cases names with
  | nil => exact absurd rfl h
  | cons name names => rfl

/-- The root is no leaf, so a leaf is found in a folder as among its members. -/
theorem Entry.lookup_folder_eq_leaf_iff (value : β) (members : Forest α β) {names : List Bytes}
    {leaf : α} : (Entry.folder value members : Entry α β).lookup names = some (.leaf leaf) ↔
      members.lookup names = some (.leaf leaf) := by
  cases names with
  | nil =>
      constructor
      · intro h
        cases h
      · intro h
        cases h
  | cons name names => exact Iff.rfl

/-- A lookup can be done in two steps. -/
theorem Entry.lookup_append (e : Entry α β) (as bs : List Bytes) :
    e.lookup (as ++ bs) = (e.lookup as).bind fun below => below.lookup bs := by
  -- Name by name, and a leaf on the way ends both lookups alike.
  induction as generalizing e with
  | nil => rfl
  | cons a as ih =>
      cases e with
      | leaf value => rfl
      | folder value members =>
          rw [List.cons_append, lookup, lookup, Option.bind_assoc]
          exact congrArg _ (funext ih)

/-- Nothing lies below a leaf. -/
theorem lookup_below_leaf {f : Forest α β} {names : List Bytes} {value : α}
    (h : f.lookup names = some (.leaf value)) (name : Bytes) (more : List Bytes) :
    f.lookup (names ++ name :: more) = none := by
  cases names with
  | nil => cases h
  | cons first rest =>
      rcases Option.bind_eq_some_iff.mp h with ⟨below, hf, hb⟩
      rw [List.cons_append, lookup, hf, Option.bind_some, Entry.lookup_append, hb]
      rfl

/-- One more name leads to a member of a folder. -/
theorem Entry.lookup_concat {e : Entry α β} {above : List Bytes} {value : β} {members : Forest α β}
    (h : e.lookup above = some (.folder value members)) (name : Bytes) :
    e.lookup (above ++ [name]) = members.find? name := by
  rw [lookup_append, h]
  exact Option.bind_fun_some (members.find? name)

/-- Only a folder leads further down. -/
theorem Entry.folder_of_lookup_concat {e found : Entry α β} {above : List Bytes} {name : Bytes}
    (h : e.lookup (above ++ [name]) = some found) :
    ∃ value members, e.lookup above = some (.folder value members) := by
  rw [lookup_append] at h
  rcases Option.bind_eq_some_iff.mp h with ⟨entry, he, hname⟩
  cases entry with
  | leaf value => cases hname
  | folder value members => exact ⟨value, members, he⟩

theorem AllNames.of_mem_firstNames {P : Bytes → Prop} {f : Forest α β} (h : f.AllNames P)
    {name : Bytes} (hn : name ∈ f.firstNames) : P name := by
  induction f using cons_induction with
  | nil => cases hn
  | cons other e rest _ ih =>
      rw [allNames_cons] at h
      rw [firstNames_cons] at hn
      rcases List.mem_cons.mp hn with rfl | hn
      · exact h.1
      · exact ih h.2.2 hn

/-- What holds of every name holds of a name that is found and of everything below it. -/
theorem AllNames.of_find? {P : Bytes → Prop} {f : Forest α β} (h : f.AllNames P) {name : Bytes}
    {entry : Entry α β} (hf : f.find? name = some entry) : P name ∧ entry.members.AllNames P := by
  induction f using cons_induction with
  | nil => cases hf
  | cons other e rest _ ih =>
      rw [allNames_cons] at h
      rw [find?_cons] at hf
      split_ifs at hf with hn
      · cases hf
        exact ⟨hn ▸ h.1, h.2.1⟩
      · exact ih h.2.2 hf

/-- A lookup passes names of the forest only. -/
theorem AllNames.of_lookup {P : Bytes → Prop} {f : Forest α β} (h : f.AllNames P)
    {names : List Bytes} {entry : Entry α β} (hl : f.lookup names = some entry) :
    (∀ name ∈ names, P name) ∧ entry.members.AllNames P := by
  induction names generalizing f with
  | nil => cases hl
  | cons name names ih =>
      rw [lookup] at hl
      rcases Option.bind_eq_some_iff.mp hl with ⟨below, hf, hb⟩
      rcases h.of_find? hf with ⟨hp, hm⟩
      -- The last name is where the lookup ends. Any other one has to stand for a folder.
      cases names with
      | nil =>
          cases hb
          exact ⟨by simpa using hp, hm⟩
      | cons next names =>
          cases below with
          | leaf value => cases hb
          | folder value members =>
              rcases ih hm hb with ⟨hall, he⟩
              refine ⟨fun n hn => ?_, he⟩
              rcases List.mem_cons.mp hn with rfl | hn
              · exact hp
              · exact hall n hn

theorem AllNames.of_lookup_folder {P : Bytes → Prop} {f : Forest α β} (h : f.AllNames P) {value : β}
    {names : List Bytes} {entry : Entry α β}
    (hl : (Entry.folder value f).lookup names = some entry) :
    (∀ name ∈ names, P name) ∧ entry.members.AllNames P := by
  cases names with
  | nil =>
      cases hl
      exact ⟨fun name hm => absurd hm List.not_mem_nil, h⟩
  | cons name names => exact h.of_lookup hl

/-- Where names differ, they differ below every name. -/
theorem Distinct.of_find? {f : Forest α β} (h : f.Distinct) {name : Bytes} {entry : Entry α β}
    (hf : f.find? name = some entry) : entry.members.Distinct := by
  induction f using cons_induction with
  | nil => cases hf
  | cons other e rest _ ih =>
      rw [distinct_cons] at h
      rw [find?_cons] at hf
      split_ifs at hf with hn
      · cases hf
        exact h.2.1
      · exact ih h.2.2 hf

theorem Distinct.of_lookup_folder {f : Forest α β} (h : f.Distinct) {value : β} {names : List Bytes}
    {entry : Entry α β} (hl : (Entry.folder value f).lookup names = some entry) :
    entry.members.Distinct := by
  induction names generalizing value f with
  | nil =>
      cases hl
      exact h
  | cons name names ih =>
      rcases Option.bind_eq_some_iff.mp hl with ⟨below, hf, hb⟩
      cases below with
      | folder w members => exact ih (h.of_find? hf) hb
      | leaf leaf =>
          cases names with
          | nil =>
              cases hb
              trivial
          | cons _ _ => cases hb

/-- Where names differ, the entries of a folder are what its names lead to. -/
theorem mem_entries_iff {f : Forest α β} (distinct : f.Distinct) {name : Bytes} {entry : Entry α β} :
    (name, entry) ∈ f.entries ↔ f.find? name = some entry := by
  induction f using cons_induction with
  | nil => simp [entries, find?]
  | cons other e rest _ ih =>
      rw [distinct_cons] at distinct
      rw [find?_cons, entries_cons, List.mem_cons, ih distinct.2.2, Prod.mk.injEq]
      -- The first entry with the name is found. Another one with the same name behind it is what distinct names rule
      -- out.
      by_cases hn : name = other
      · rw [if_pos hn]
        have hrest : ¬ rest.find? name = some entry :=
          fun h => distinct.1 (hn ▸ mem_firstNames_of_find? h)
        simp only [hn, true_and, Option.some.injEq]
        constructor
        · rintro (h | h)
          · exact h.symm
          · exact absurd (hn ▸ h) hrest
        · intro h
          exact Or.inl h.symm
      · rw [if_neg hn]
        simp only [hn, false_and, false_or]

/-- The entries of a folder at the end of a chain of names are what one more name leads to. -/
theorem mem_entries_iff_lookup {f members : Forest α β} (distinct : f.Distinct) {root value : β}
    {above : List Bytes} (hf : (Entry.folder root f).lookup above = some (.folder value members))
    {name : Bytes} {entry : Entry α β} : (name, entry) ∈ members.entries ↔
      (Entry.folder root f).lookup (above ++ [name]) = some entry := by
  have hmembers : members.Distinct := distinct.of_lookup_folder hf
  rw [mem_entries_iff hmembers, Entry.lookup_concat hf]

/-- What holds of every leaf holds of a leaf that is found, and of every leaf below a folder that is. -/
theorem AllLeaves.of_find? {P : α → Prop} {f : Forest α β} (h : f.AllLeaves P) {name : Bytes}
    {entry : Entry α β} (hf : f.find? name = some entry) :
    (∀ value, entry = .leaf value → P value) ∧ entry.members.AllLeaves P := by
  induction f using cons_induction with
  | nil => cases hf
  | cons other e rest _ ih =>
      rw [allLeaves_cons] at h
      rw [find?_cons] at hf
      split_ifs at hf with hn
      · cases hf
        exact ⟨h.1, h.2.1⟩
      · exact ih h.2.2 hf

theorem AllNames.imp {P Q : Bytes → Prop} (hpq : ∀ name, P name → Q name) {f : Forest α β}
    (h : f.AllNames P) : f.AllNames Q := by
  induction f using cons_induction with
  | nil => trivial
  | cons other e rest ihm ih =>
      rw [allNames_cons] at h ⊢
      exact ⟨hpq other h.1, ihm h.2.1, ih h.2.2⟩

theorem AllLeaves.of_lookup {P : α → Prop} {f : Forest α β} (h : f.AllLeaves P) {names : List Bytes}
    {value : α} (hl : f.lookup names = some (.leaf value)) : P value := by
  induction names generalizing f with
  | nil => cases hl
  | cons name names ih =>
      rw [lookup] at hl
      rcases Option.bind_eq_some_iff.mp hl with ⟨below, hf, hb⟩
      rcases h.of_find? hf with ⟨hp, hm⟩
      cases names with
      | nil =>
          cases hb
          exact hp value rfl
      | cons next names =>
          cases below with
          | leaf value => cases hb
          | folder value members => exact ih hm hb

/-- An entry leads to itself, and further down to what its members lead to. -/
theorem Entry.lookup_eq_some_iff {entry found : Entry α β} {names : List Bytes} :
    entry.lookup names = some found ↔
      (names = [] ∧ found = entry) ∨ entry.members.lookup names = some found := by
  cases names with
  | nil =>
      constructor
      · intro h
        exact Or.inl ⟨rfl, (Option.some.inj h).symm⟩
      · rintro (⟨_, rfl⟩ | h)
        · rfl
        · cases h
  | cons first more =>
      have hmembers : entry.lookup (first :: more) = entry.members.lookup (first :: more) := by
        cases entry <;> rfl
      rw [hmembers]
      constructor
      · exact Or.inr
      · rintro (⟨h, _⟩ | h)
        · cases h
        · exact h

theorem not_lookup_nil {names : List Bytes} {found : Entry α β} :
    ¬ (nil : Forest α β).lookup names = some found := by
  intro h
  cases names with
  | nil => cases h
  | cons first more => cases h

/-- What a chain of names leads to is the first entry, or stands below it, or behind it. -/
theorem lookup_cons_eq_some_iff {name : Bytes} {entry found : Entry α β} {rest : Forest α β}
    (distinct : name ∉ rest.firstNames) {names : List Bytes} :
    (cons name entry rest).lookup names = some found ↔
      (names = [name] ∧ found = entry) ∨
        (∃ more, names = name :: more ∧ entry.members.lookup more = some found) ∨
          rest.lookup names = some found := by
  constructor
  · intro h
    cases names with
    | nil => cases h
    | cons first more =>
        -- A chain begins with the first name, and ends there or goes on below it, or it begins with another one.
        by_cases hn : first = name
        · rw [hn, lookup_cons_self, Entry.lookup_eq_some_iff] at h
          rcases h with ⟨rfl, rfl⟩ | h
          · exact Or.inl ⟨by rw [hn], rfl⟩
          · exact Or.inr (Or.inl ⟨more, by rw [hn], h⟩)
        · rw [lookup_cons_of_ne hn] at h
          exact Or.inr (Or.inr h)
  · rintro (⟨rfl, rfl⟩ | ⟨more, rfl, h⟩ | h)
    · rw [lookup_cons_self]
      rfl
    · rw [lookup_cons_self, Entry.lookup_eq_some_iff]
      exact Or.inr h
    · exact lookup_cons_of_rest distinct h

/-- The leaves below a forest are what its chains of names lead to. -/
theorem mem_leavesFrom_iff {f : Forest α β} (distinct : f.Distinct) (above names : List Bytes)
    (value : α) : (names, value) ∈ f.leavesFrom above ↔
      ∃ more, names = above ++ more ∧ f.lookup more = some (.leaf value) := by
  -- On the forest and not on its entries, since the leaves are listed differently for a leaf and for a folder.
  induction f generalizing above with
  | nil =>
      simp only [leavesFrom, List.not_mem_nil, not_lookup_nil, and_false, exists_false]
  | leaf name other rest ih =>
      have look : ∀ more : List Bytes, (leaf name other rest).lookup more = some (.leaf value) ↔ _ :=
        fun more => @lookup_cons_eq_some_iff α β name (.leaf other) (.leaf value) rest distinct.1 more
      simp only [leavesFrom, List.mem_cons, ih distinct.2, Prod.mk.injEq, look]
      constructor
      · rintro (⟨rfl, rfl⟩ | ⟨more, hn, hl⟩)
        · exact ⟨[name], rfl, Or.inl ⟨rfl, rfl⟩⟩
        · exact ⟨more, hn, Or.inr (Or.inr hl)⟩
      · rintro ⟨more, hn, ⟨rfl, he⟩ | ⟨_, _, hl⟩ | hl⟩
        · exact Or.inl ⟨hn, Entry.leaf.inj he⟩
        · exact absurd hl not_lookup_nil
        · exact Or.inr ⟨more, hn, hl⟩
  | folder name other members rest ihm ih =>
      have look : ∀ more : List Bytes,
          (folder name other members rest).lookup more = some (.leaf value) ↔ _ :=
        fun more =>
          @lookup_cons_eq_some_iff α β name (.folder other members) (.leaf value) rest distinct.1 more
      simp only [leavesFrom, List.mem_append, ihm distinct.2.1, ih distinct.2.2, look]
      constructor
      · rintro (⟨more, hn, hl⟩ | ⟨more, hn, hl⟩)
        · exact ⟨name :: more, by rw [hn, List.append_assoc]; rfl, Or.inr (Or.inl ⟨more, rfl, hl⟩)⟩
        · exact ⟨more, hn, Or.inr (Or.inr hl)⟩
      · rintro ⟨more, hn, ⟨_, he⟩ | ⟨below, rfl, hl⟩ | hl⟩
        · cases he
        · exact Or.inl ⟨below, by rw [hn, List.append_assoc]; rfl, hl⟩
        · exact Or.inr ⟨more, hn, hl⟩

theorem mem_leaves_iff {f : Forest α β} (distinct : f.Distinct) (names : List Bytes) (value : α) :
    (names, value) ∈ f.leaves ↔ f.lookup names = some (.leaf value) := by
  rw [leaves, mem_leavesFrom_iff distinct]
  simp only [List.nil_append, exists_eq_left']

theorem mem_firstNames_of_lookup {f : Forest α β} {name : Bytes} {more : List Bytes} {entry : Entry α β}
    (h : f.lookup (name :: more) = some entry) : name ∈ f.firstNames := by
  rcases Option.bind_eq_some_iff.mp h with ⟨below, hf, _⟩
  exact mem_firstNames_of_find? hf

/-- Each leaf has a chain of names of its own. -/
theorem nodup_leavesFrom {f : Forest α β} (distinct : f.Distinct) (above : List Bytes) :
    ((f.leavesFrom above).map Prod.fst).Nodup := by
  -- What stands behind the first entry does not share its name.
  have apart : ∀ (rest : Forest α β) (name : Bytes) (more : List Bytes), rest.Distinct →
      name ∉ rest.firstNames → ∀ above, above ++ name :: more ∉ (rest.leavesFrom above).map Prod.fst := by
    intro rest name more hr hn above hm
    rcases List.mem_map.mp hm with ⟨⟨names, value⟩, he, heq⟩
    rcases (mem_leavesFrom_iff hr above names value).mp he with ⟨behind, hnames, hl⟩
    rw [← List.append_cancel_left (heq.symm.trans hnames)] at hl
    exact hn (mem_firstNames_of_lookup hl)
  induction f generalizing above with
  | nil => exact List.nodup_nil
  | leaf name value rest ih =>
      rw [leavesFrom, List.map_cons, List.nodup_cons]
      exact ⟨apart rest name [] distinct.2 distinct.1 above, ih distinct.2 above⟩
  | folder name value members rest ihm ih =>
      rw [leavesFrom, List.map_append, List.nodup_append]
      refine ⟨ihm distinct.2.1 _, ih distinct.2.2 above, ?_⟩
      rintro names hm _ hr rfl
      rcases List.mem_map.mp hm with ⟨⟨_, leaf⟩, he, rfl⟩
      rcases (mem_leavesFrom_iff distinct.2.1 _ _ leaf).mp he with ⟨more, hnames, _⟩
      rw [hnames, List.append_assoc] at hr
      exact apart rest name more distinct.2.2 distinct.1 above hr

end Forest

end ThreeWay
