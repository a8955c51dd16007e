import ThreeWay.Diff.Build
import ThreeWay.Proofs.Ascending
import ThreeWay.Proofs.Text.Utf8

/-!
# What a Difference Tree Has to Be

The difference of two hierarchies, said by name and not by the order in which two listings are walked.

A folder is known by its listing, loaded or asked from a store, and `WellListed` says that every listing
down to some depth is what a store promises: valid members in ascending byte order of their names. The
depth is what makes a hierarchy finite; a store may make one up that never ends.

`Whole` is the tree of one side alone. `Differs` tells which two members of one name are a difference,
and `IsDifference` puts both together: under a change of two folders stand exactly the members of one
side alone, whole, and the pairs that differ, for which the same holds again.

The constructor for two folders takes the changed pairs as a function `below`, since a name that both
sides have belongs to one pair. Both directions are asked for: everything that has to be there is
there, and nothing else is.

## Main definitions

* `Store.listed`: The members of a folder.
* `ValidMember`, `WellListed`: What listings are supposed to be.
* `ValidBelow`: The same without the order.
* `Whole`: A one-sided tree with everything below it.
* `Differs`: Two members of one name that are a difference.
* `IsDifference`: The law of a difference tree.
* `Readable`, `ReadableBelow`: The contents that a comparison has to read can be read.
* `ListsWell`: The listing of a folder in such a hierarchy.

## Theorems

* `checkMember_eq_ok_iff`: The check lets exactly the valid members pass.
* `forM_checkMember_eq_ok_iff`: A listing passes the check if all of its members do.
* `ascending_encode_iff`: The order of names is the order of their bytes.
* `WellListed.flat_or_folders`: Two variants have a file among them, or both are listed.
* `WellListed.validBelow`: What is well listed is valid.
-/

namespace ThreeWay

/-- The members of a folder: those listed up front, or else those that the store lists. -/
def Store.listed (s : Store) (f : Folder) : Option (List Variant) → Except Error (List Variant)
  | some members => .ok members
  | none => s.listing f

/-- A listed member exists, and its name is not empty and holds no slash. -/
structure ValidMember (v : Variant) : Prop where
  present : v.present = true
  named : v.name ≠ ""
  single : '/' ∉ v.name.toList

instance (v : Variant) : Decidable (ValidMember v) :=
  decidable_of_iff (v.present = true ∧ v.name ≠ "" ∧ '/' ∉ v.name.toList)
    ⟨fun h => ⟨h.1, h.2.1, h.2.2⟩, fun h => ⟨h.present, h.named, h.single⟩⟩

/-- A hierarchy of at most so many levels of folders. Every listing holds valid members only, in strictly
    ascending byte order of their names. -/
inductive WellListed (s : Store) : Nat → Variant → Prop
  | blob (levels : Nat) (b : Blob) : WellListed s levels (.blob b)
  | tree (levels : Nat) (f : Folder) (members : Option (List Variant)) (found : List Variant)
      (listed : s.listed f members = .ok found)
      (ordered : Ascending (fun v => Utf8.encode v.name) found)
      (valid : ∀ v ∈ found, ValidMember v)
      (below : ∀ v ∈ found, WellListed s levels v) :
      WellListed s (levels + 1) (.tree f members)

/-- A hierarchy of at most so many levels of folders. Every listing holds valid members only; their order is
    open, and names may repeat. -/
inductive ValidBelow (s : Store) : Nat → Variant → Prop
  | blob (levels : Nat) (b : Blob) : ValidBelow s levels (.blob b)
  | tree (levels : Nat) (f : Folder) (members : Option (List Variant)) (found : List Variant)
      (listed : s.listed f members = .ok found)
      (valid : ∀ v ∈ found, ValidMember v)
      (below : ∀ v ∈ found, ValidBelow s levels v) :
      ValidBelow s (levels + 1) (.tree f members)

/-- A one-sided node with everything that lies below a variant, each member once and in its place. -/
inductive Whole (s : Store) (kind : DiffKind) : Variant → DiffNode → Prop
  | blob (b : Blob) : Whole s kind (.blob b) (Differ.oneSided (.blob b) kind [])
  | tree (f : Folder) (members : Option (List Variant)) (found : List Variant)
      (children : List DiffNode)
      (listed : s.listed f members = .ok found)
      (below : List.Forall₂ (Whole s kind) found children) :
      Whole s kind (.tree f members) (Differ.oneSided (.tree f members) kind children)

/-- Two members of one name that are a difference: a file and a folder, two files of different content,
    two folders with different tree ids, or two folders of which one has no tree id and below which
    something differs. -/
inductive Differs (c : Comparator) : Variant → Variant → Prop
  | kinds (l r : Variant) (apart : l.isTree ≠ r.isTree) : Differs c l r
  | contents (a b : Blob) (unequal : c.equal (some (.blob a)) (some (.blob b)) = .ok false) :
      Differs c (.blob a) (.blob b)
  | ids (f g : Folder) (fs gs : Option (List Variant)) (x y : TreeId) (hx : f.treeId = some x)
      (hy : g.treeId = some y) (unequal : x ≠ y) : Differs c (.tree f fs) (.tree g gs)
  | onlyLeft (f g : Folder) (fs gs : Option (List Variant)) (ls rs : List Variant)
      (unknown : f.treeId = none ∨ g.treeId = none)
      (left : c.store.listed f fs = .ok ls) (right : c.store.listed g gs = .ok rs)
      (l : Variant) (hl : l ∈ ls) (alone : ∀ r ∈ rs, r.name ≠ l.name) :
      Differs c (.tree f fs) (.tree g gs)
  | onlyRight (f g : Folder) (fs gs : Option (List Variant)) (ls rs : List Variant)
      (unknown : f.treeId = none ∨ g.treeId = none)
      (left : c.store.listed f fs = .ok ls) (right : c.store.listed g gs = .ok rs)
      (r : Variant) (hr : r ∈ rs) (alone : ∀ l ∈ ls, l.name ≠ r.name) :
      Differs c (.tree f fs) (.tree g gs)
  | pair (f g : Folder) (fs gs : Option (List Variant)) (ls rs : List Variant)
      (unknown : f.treeId = none ∨ g.treeId = none)
      (left : c.store.listed f fs = .ok ls) (right : c.store.listed g gs = .ok rs)
      (l r : Variant) (hl : l ∈ ls) (hr : r ∈ rs) (same : l.name = r.name)
      (differ : Differs c l r) : Differs c (.tree f fs) (.tree g gs)

/-- The difference of two variants. Where one of them is a file, it is a change without anything below.
    Below a change of two folders stand, in strictly ascending byte order of their names: every member
    of one side alone, whole, and every pair of one name that differs, with its own difference. -/
inductive IsDifference (c : Comparator) : Variant → Variant → DiffNode → Prop
  | leaf (l r : Variant) (flat : ¬ (l.isTree ∧ r.isTree)) :
      IsDifference c l r (.make (some l) (some r) .change [])
  | folders (f g : Folder) (fs gs : Option (List Variant)) (ls rs : List Variant)
      (children : List DiffNode) (below : Variant → Variant → DiffNode)
      (left : c.store.listed f fs = .ok ls) (right : c.store.listed g gs = .ok rs)
      (ordered : Ascending (fun n => Utf8.encode n.name) children)
      (additions : ∀ l ∈ ls, (∀ r ∈ rs, r.name ≠ l.name) →
        ∃ n ∈ children, Whole c.store .addition l n)
      (deletions : ∀ r ∈ rs, (∀ l ∈ ls, l.name ≠ r.name) →
        ∃ n ∈ children, Whole c.store .deletion r n)
      (changes : ∀ l ∈ ls, ∀ r ∈ rs, l.name = r.name → Differs c l r → below l r ∈ children)
      (nested : ∀ l ∈ ls, ∀ r ∈ rs, l.name = r.name → Differs c l r →
        IsDifference c l r (below l r))
      (nothingElse : ∀ n ∈ children,
        (∃ l ∈ ls, (∀ r ∈ rs, r.name ≠ l.name) ∧ Whole c.store .addition l n) ∨
        (∃ r ∈ rs, (∀ l ∈ ls, l.name ≠ r.name) ∧ Whole c.store .deletion r n) ∨
        ∃ l ∈ ls, ∃ r ∈ rs, l.name = r.name ∧ Differs c l r ∧ n = below l r) :
      IsDifference c (.tree f fs) (.tree g gs)
        (.make (some (.tree f fs)) (some (.tree g gs)) .change children)

/-- Whatever has to be read to tell two members apart can be read. Nothing is read below two folders with
    the same tree id. -/
inductive Readable (c : Comparator) : Variant → Variant → Prop
  | kinds (l r : Variant) (apart : l.isTree ≠ r.isTree) : Readable c l r
  | contents (a b : Blob) (same : Bool)
      (read : c.equal (some (.blob a)) (some (.blob b)) = .ok same) :
      Readable c (.blob a) (.blob b)
  | identical (f g : Folder) (fs gs : Option (List Variant)) (x : TreeId)
      (hx : f.treeId = some x) (hy : g.treeId = some x) : Readable c (.tree f fs) (.tree g gs)
  | folders (f g : Folder) (fs gs : Option (List Variant)) (ls rs : List Variant)
      (left : c.store.listed f fs = .ok ls) (right : c.store.listed g gs = .ok rs)
      (below : ∀ l ∈ ls, ∀ r ∈ rs, l.name = r.name → Readable c l r) :
      Readable c (.tree f fs) (.tree g gs)

/-- Whatever a difference of two variants has to read below them can be read. -/
def ReadableBelow (c : Comparator) : Variant → Variant → Prop
  | .tree f fs, .tree g gs => ∀ ls rs, c.store.listed f fs = .ok ls → c.store.listed g gs = .ok rs →
    ∀ l ∈ ls, ∀ r ∈ rs, l.name = r.name → Readable c l r
  | _, _ => True

/-- The check lets exactly the valid members pass. -/
theorem checkMember_eq_ok_iff (v : Variant) : checkMember v = .ok () ↔ ValidMember v := by
  unfold checkMember requirePresent
  constructor
  · intro h
    -- The check asks three questions one after the other, and each of them has a failure of its own.
    split_ifs at h with hn hs hp
    exact ⟨hp, hn, by simpa using hs⟩
  · intro h
    rw [if_neg h.named, if_neg (by simpa using h.single), if_pos h.present]

/-- The check of a listing lets it pass exactly when all its members are valid. -/
theorem forM_checkMember_eq_ok_iff (vs : List Variant) :
    vs.forM checkMember = .ok () ↔ ∀ v ∈ vs, ValidMember v := by
  induction vs with
  | nil =>
      simp only [List.not_mem_nil, false_implies, implies_true, iff_true]
      rfl
  | cons v vs ih =>
      have hc : (v :: vs).forM checkMember = (checkMember v >>= fun _ => vs.forM checkMember) := rfl
      rw [hc, List.forall_mem_cons, ← ih, ← checkMember_eq_ok_iff]
      -- The first member that is refused ends the check, so the rest counts only if it passes.
      cases checkMember v with
      | error e =>
          constructor
          · intro h
            cases h
          · rintro ⟨h, _⟩
            cases h
      | ok u =>
          constructor
          · intro h
            exact ⟨rfl, h⟩
          · rintro ⟨_, h⟩
            exact h

/-- The order of names is the order of their bytes. -/
theorem ascending_encode_iff {α : Type} (name : α → String) (xs : List α) :
    Ascending (fun x => Utf8.encode (name x)) xs ↔ Ascending name xs := by
  unfold Ascending
  simp only [Utf8.encode_lt_encode]

/-- What is well listed is valid. -/
theorem WellListed.validBelow {s : Store} {n : Nat} {v : Variant} (h : WellListed s n v) :
    ValidBelow s n v := by
  induction h with
  | blob n b => exact ValidBelow.blob n b
  | tree n f members found listed ordered valid below ih =>
      exact ValidBelow.tree n f members found listed valid ih

/-- What is known of the listing of a folder in a well listed hierarchy. -/
structure ListsWell (s : Store) (levels : Nat) (f : Folder) (members : Option (List Variant))
    (found : List Variant) : Prop where
  listed : s.listed f members = .ok found
  ordered : Ascending Variant.name found
  valid : ∀ v ∈ found, ValidMember v
  below : ∀ v ∈ found, WellListed s levels v

/-- Of two variants one is a file, or both are folders with their listings. -/
theorem WellListed.flat_or_folders {s : Store} {n m : Nat} {l r : Variant} (hl : WellListed s n l)
    (hr : WellListed s m r) : ¬ (l.isTree ∧ r.isTree) ∨
      ∃ i j f fs ls g gs rs, n = i + 1 ∧ m = j + 1 ∧ l = .tree f fs ∧ r = .tree g gs ∧
        ListsWell s i f fs ls ∧ ListsWell s j g gs rs := by
  -- A hierarchy that is listed is a file, or a folder with one level less below it.
  cases hl with
  | blob n b => exact Or.inl fun h => absurd h.1 Bool.false_ne_true
  | tree i f fs ls listedL orderedL validL belowL =>
      cases hr with
      | blob m b => exact Or.inl fun h => absurd h.2 Bool.false_ne_true
      | tree j g gs rs listedR orderedR validR belowR =>
          rw [ascending_encode_iff] at orderedL orderedR
          exact Or.inr ⟨i, j, f, fs, ls, g, gs, rs, rfl, rfl, rfl, rfl,
            ⟨listedL, orderedL, validL, belowL⟩, ⟨listedR, orderedR, validR, belowR⟩⟩

end ThreeWay
