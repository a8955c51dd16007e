import ThreeWay.Object.Tree
import ThreeWay.Proofs.Ascending
import ThreeWay.Proofs.Forest

/-!
# Forests in Order

An entry is put in front of the first greater name, so whether its own name is taken is seen only where the
names ascend. That is why a forest that is built entry by entry has every name once: the order is kept at every
level, and names in order differ. Putting an entry in adds no names but those of the chain either.

What is read from a forest is told by its names and does not depend on the order. The order only serves to build
the tree of any leaves.

The order is kept at the names of one folder by `insert`, and along a chain of names by `put`, which inserts at
each level. Each property is shown of the two in this order, and the tree of some leaves is many times `put`.

## Main definitions

* `Forest.Sorted`: The names of every folder ascend.

## Theorems

* `Sorted.distinct`: Names in order differ.
* `depth_lt_of_find?`: A folder is deeper than any folder in it.
* `length_add_depth_le`: A chain of names is no longer than the forest is deep.
* `sorted_insert`, `sorted_put`: Putting an entry in keeps the order.
* `allNames_put`: Putting an entry in adds no other names.
* `Tree.ofLeaves_induction`: What one leaf after the other keeps, the tree of any leaves has.
* `Tree.sorted_ofLeaves`, `Tree.allNames_ofLeaves`: The tree of any leaves.
-/

namespace ThreeWay

namespace Forest

variable {α β : Type}

/-- The names of every folder ascend. -/
def Sorted : Forest α β → Prop
  | .nil => True
  | .leaf name _ rest => (∀ n ∈ rest.firstNames, name < n) ∧ rest.Sorted
  | .folder name _ members rest =>
    (∀ n ∈ rest.firstNames, name < n) ∧ members.Sorted ∧ rest.Sorted

/-- Whether the names of every folder ascend. -/
def decideSorted : (f : Forest α β) → Decidable f.Sorted
  | .nil => isTrue trivial
  | .leaf name _ rest => @instDecidableAnd (∀ n ∈ rest.firstNames, name < n) _ _ rest.decideSorted
  | .folder name _ members rest => @instDecidableAnd (∀ n ∈ rest.firstNames, name < n) _ _
      (@instDecidableAnd _ _ members.decideSorted rest.decideSorted)

instance (f : Forest α β) : Decidable f.Sorted :=
  f.decideSorted

theorem sorted_cons {name : Bytes} {entry : Entry α β} {rest : Forest α β} :
    (cons name entry rest).Sorted ↔
      (∀ n ∈ rest.firstNames, name < n) ∧ entry.members.Sorted ∧ rest.Sorted := by
  cases entry with
  | leaf value => exact and_congr_right fun _ => iff_of_eq (true_and _).symm
  | folder value members => rfl

theorem Sorted.distinct {f : Forest α β} (h : f.Sorted) : f.Distinct := by
  induction f using cons_induction with
  | nil => trivial
  | cons name entry rest ihm ih =>
      rw [sorted_cons] at h
      rw [distinct_cons]
      exact ⟨fun hm => List.lt_irrefl name (h.1 name hm), ihm h.2.1, ih h.2.2⟩

/-- What stands under a name is in order too. -/
theorem Sorted.of_find? {f : Forest α β} (h : f.Sorted) {name : Bytes} {entry : Entry α β}
    (hf : f.find? name = some entry) : entry.members.Sorted := by
  induction f using cons_induction with
  | nil => cases hf
  | cons other e rest _ ih =>
      rw [sorted_cons] at h
      rw [find?_cons] at hf
      split_ifs at hf with hn
      · cases hf
        exact h.2.1
      · exact ih h.2.2 hf

/-- A folder is deeper than any folder in it. -/
theorem depth_lt_of_find? {f : Forest α β} {name : Bytes} {value : β} {members : Forest α β}
    (hf : f.find? name = some (.folder value members)) : members.depth < f.depth := by
  induction f using cons_induction with
  | nil => cases hf
  | cons other e rest _ ih =>
      rw [find?_cons] at hf
      split_ifs at hf
      · cases hf
        rw [cons, depth]
        omega
      · have hrest := ih hf
        -- A leaf has no depth, and a folder in front may be deeper than the one that is found.
        cases e with
        | leaf value => exact hrest
        | folder value below =>
            rw [cons, depth]
            omega

/-- A folder at the end of a chain of names is less deep by at least as many names. -/
theorem length_add_depth_le {f : Forest α β} {value w : β} {names : List Bytes}
    {members : Forest α β}
    (hl : (Entry.folder value f).lookup names = some (.folder w members)) :
    names.length + members.depth ≤ f.depth := by
  induction names generalizing value f with
  | nil =>
      cases hl
      rw [List.length_nil]
      omega
  | cons name names ih =>
      rcases Option.bind_eq_some_iff.mp hl with ⟨below, hf, hb⟩
      cases below with
      | leaf leaf => cases names <;> cases hb
      | folder u inner =>
          have hless := depth_lt_of_find? hf
          have hrest := ih hb
          rw [List.length_cons]
          omega

section

variable {name : Bytes} {entry : Entry α β}

/-- An entry is put in front of the first greater name, or takes the place of its own name. -/
theorem insert_cons {other : Bytes} {e : Entry α β} {rest : Forest α β} :
    (cons other e rest).insert name entry =
      if name < other then cons name entry (cons other e rest)
      else if name = other then cons name entry rest
      else cons other e (rest.insert name entry) := by
  cases e <;> rfl

/-- Putting an entry in adds no name but its own. -/
theorem mem_firstNames_insert {f : Forest α β} {n : Bytes} (h : n ∈ (f.insert name entry).firstNames) :
    n = name ∨ n ∈ f.firstNames := by
  induction f using cons_induction with
  | nil =>
      rw [insert, firstNames_cons, List.mem_cons] at h
      exact h
  | cons other e rest _ ih =>
      rw [insert_cons] at h
      rw [firstNames_cons]
      split_ifs at h
      · rw [firstNames_cons, firstNames_cons, List.mem_cons] at h
        exact h
      · rw [firstNames_cons, List.mem_cons] at h
        exact h.imp id (List.mem_cons_of_mem _)
      · rw [firstNames_cons] at h
        rcases List.mem_cons.mp h with h | h
        · exact Or.inr (h ▸ List.mem_cons_self)
        · exact (ih h).imp id (List.mem_cons_of_mem _)

/-- Putting an entry in keeps the order. -/
theorem sorted_insert {f : Forest α β} (h : f.Sorted) (he : entry.members.Sorted) :
    (f.insert name entry).Sorted := by
  induction f using cons_induction with
  | nil =>
      rw [insert, sorted_cons]
      exact ⟨fun n hn => absurd hn List.not_mem_nil, he, h⟩
  | cons other e rest _ ih =>
      have hcons := h
      rw [sorted_cons] at h
      rw [insert_cons]
      -- In front of a greater name, in the place of its own, or further back.
      split_ifs with hlt heq
      · rw [sorted_cons, firstNames_cons]
        refine ⟨fun n hn => ?_, he, hcons⟩
        rcases List.mem_cons.mp hn with rfl | hn
        · exact hlt
        · exact List.lt_trans hlt (h.1 n hn)
      · rw [sorted_cons]
        exact ⟨heq ▸ h.1, he, h.2.2⟩
      · rw [sorted_cons]
        refine ⟨fun n hn => ?_, h.2.1, ih h.2.2⟩
        -- Behind the first entry stand the names that stood there, and the new one, which is greater.
        rcases mem_firstNames_insert hn with rfl | hn
        · exact by_contra fun hle => heq (List.le_antisymm hle hlt)
        · exact h.1 n hn

/-- Putting an entry at the end of a chain of names keeps the order. -/
theorem sorted_put (fresh : β) (he : entry.members.Sorted) (names : List Bytes) {f : Forest α β}
    (h : f.Sorted) : (put fresh entry names f).Sorted := by
  -- On the recursion of putting in, which goes down into a folder or makes a new one.
  induction names, f using put.induct with
  | case1 f => exact h
  | case2 name f => exact sorted_insert h he
  | case3 name names f hne value members hf ih =>
      rw [put, hf]
      · exact sorted_insert h (ih (h.of_find? hf))
      · exact hne
  | case4 name names f hne hf ih =>
      rw [put]
      · split
        · rename_i value members hfound
          exact absurd hfound (hf value members)
        · exact sorted_insert h (ih trivial)
      · exact hne

variable {P : Bytes → Prop}

theorem allNames_insert {f : Forest α β} (h : f.AllNames P) (hn : P name)
    (he : entry.members.AllNames P) : (f.insert name entry).AllNames P := by
  induction f using cons_induction with
  | nil =>
      rw [insert, allNames_cons]
      exact ⟨hn, he, h⟩
  | cons other e rest _ ih =>
      have hcons := h
      rw [allNames_cons] at h
      rw [insert_cons]
      split_ifs
      · rw [allNames_cons]
        exact ⟨hn, he, hcons⟩
      · rw [allNames_cons]
        exact ⟨hn, he, h.2.2⟩
      · rw [allNames_cons]
        exact ⟨h.1, h.2.1, ih h.2.2⟩

/-- Putting an entry in adds no names but those that lead to it. -/
theorem allNames_put (fresh : β) (he : entry.members.AllNames P) (names : List Bytes)
    (hnames : ∀ n ∈ names, P n) {f : Forest α β} (h : f.AllNames P) :
    (put fresh entry names f).AllNames P := by
  induction names, f using put.induct with
  | case1 f => exact h
  | case2 name f => exact allNames_insert h (hnames name List.mem_cons_self) he
  | case3 name names f hne value members hf ih =>
      have hbelow := ih (fun n hn => hnames n (List.mem_cons_of_mem _ hn)) (h.of_find? hf).2
      rw [put, hf]
      · exact allNames_insert h (hnames name List.mem_cons_self) hbelow
      · exact hne
  | case4 name names f hne hf ih =>
      have hbelow := ih (fun n hn => hnames n (List.mem_cons_of_mem _ hn)) trivial
      rw [put]
      · split
        · rename_i value members hfound
          exact absurd hfound (hf value members)
        · exact allNames_insert h (hnames name List.mem_cons_self) hbelow
      · exact hne

end

end Forest

namespace Tree

/-- Giving ids to the folders keeps their names. -/
theorem firstNames_identify (f : Forest Leaf Unit) : (identify f).firstNames = f.firstNames := by
  induction f with
  | nil => rfl
  | leaf name leaf rest ih =>
      rw [identify, Forest.firstNames, Forest.entries, List.map_cons]
      exact congrArg (name :: ·) ih
  | folder name _ members rest _ ih =>
      rw [identify, Forest.firstNames, Forest.entries, List.map_cons]
      exact congrArg (name :: ·) ih

theorem sorted_identify {f : Forest Leaf Unit} (h : f.Sorted) : (identify f).Sorted := by
  induction f with
  | nil => trivial
  | leaf name leaf rest ih => exact ⟨firstNames_identify rest ▸ h.1, ih h.2⟩
  | folder name _ members rest ihm ih =>
      exact ⟨firstNames_identify rest ▸ h.1, ihm h.2.1, ih h.2.2⟩

theorem allNames_identify {P : Bytes → Prop} {f : Forest Leaf Unit} (h : f.AllNames P) :
    (identify f).AllNames P := by
  induction f with
  | nil => trivial
  | leaf name leaf rest ih => exact ⟨h.1, ih h.2⟩
  | folder name _ members rest ihm ih => exact ⟨h.1, ihm h.2.1, ih h.2.2⟩

/-- What one leaf after the other keeps, the tree of any leaves has. -/
theorem ofLeaves_induction {Q : Forest Leaf Unit → Prop} (leaves : List (List Bytes × Leaf))
    (start : Q .nil) (step : ∀ e ∈ leaves, ∀ f, Q f → Q (f.put () (.leaf e.2) e.1)) :
    Q (leaves.foldl (fun forest e => forest.put () (.leaf e.2) e.1) .nil) := by
  -- For any forest to start with, since each step starts with what was built before.
  have hput : ∀ f, Q f → Q (leaves.foldl (fun forest e => forest.put () (.leaf e.2) e.1) f) := by
    induction leaves with
    | nil => exact fun f hf => hf
    | cons e leaves ih =>
        intro f hf
        exact ih (fun e he => step e (List.mem_cons_of_mem _ he)) _
          (step e List.mem_cons_self f hf)
  exact hput .nil start

/-- The tree of any leaves is in order. -/
theorem sorted_ofLeaves (leaves : List (List Bytes × Leaf)) : (ofLeaves leaves).members.Sorted := by
  refine sorted_identify (ofLeaves_induction leaves trivial fun e _ f hf => ?_)
  have hleaf : (Forest.Entry.leaf e.2 : Forest.Entry Leaf Unit).members.Sorted := trivial
  exact Forest.sorted_put () hleaf e.1 hf

/-- The tree of any leaves has no names but theirs. -/
theorem allNames_ofLeaves {P : Bytes → Prop} {leaves : List (List Bytes × Leaf)}
    (h : ∀ e ∈ leaves, ∀ name ∈ e.1, P name) : (ofLeaves leaves).members.AllNames P := by
  refine allNames_identify (ofLeaves_induction leaves trivial fun e he f hf => ?_)
  have hleaf : (Forest.Entry.leaf e.2 : Forest.Entry Leaf Unit).members.AllNames P := trivial
  exact Forest.allNames_put () hleaf e.1 (h e he) hf

end Tree

end ThreeWay
