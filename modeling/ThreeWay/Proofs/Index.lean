import ThreeWay.Index
import ThreeWay.Proofs.Ascending
import ThreeWay.Proofs.Forest.Leaves
import ThreeWay.Proofs.Path.Join

/-!
# Entries of the Index by Their Names

An index is a flat list of paths, and the folders on the way to an entry are nowhere written down. They are
read off the paths, so what there is to know about a folder of the index is which entries lie below it. Here
an entry is its chain of names, and lying below is a chain that continues another one.

`Index.WellFormed` is what an index is: entries in the order of their keys, paths made of ordinary names,
and no entry below another one. The last part is what makes files and folders of the index different
things, since a name then stands for an entry or for a folder on the way to one, never for both. It is asked
of all stages together; the plain entries alone would not keep an unfinished merge apart from them.

Chains of names are used instead of paths because a path is a text with separators in it, and "below" for texts is
a statement about characters. The translation is made once, in `IndexEntry.path_eq_iff` and
`Index.WellFormed.startsWith_iff`, and needs that the names are ordinary: a name with a separator in it would be
read as two.

## Main definitions

* `Index.WellFormed`: Entries in order, with ordinary names, none below another one.

## Theorems

* `IndexEntry.place_eq`: The place of an entry is what its names lead to.
* `IndexEntry.path_eq_iff`: An entry is at a path exactly if it has the names of the path.
* `IndexEntry.eq_or_below`: A chain that an entry continues is its own, or leads to a folder.
* `Index.WellFormed.find?_eq_some_iff`: Looking up a path finds the plain entry that has its names.
* `Index.WellFormed.startsWith_iff`: An entry lies at or below a path whose names its own continue.
* `Index.WellFormed.not_below`, `Index.WellFormed.pairwise_apart`: No entry lies below another one.
* `Index.WellFormed.spans_tree`: The tree of an index shows its plain entries and the folders on the way.
* `Index.WellFormed.lookup_tree_leaf_iff`, `Index.WellFormed.lookup_tree_folder_iff`: The files and the folders of
  the tree.
-/

namespace ThreeWay

open ThreeWay.Path Scanner

/-- Byte strings are ordered byte by byte. -/
instance : IsStrictTotalOrder Bytes (· < ·) where
  trichotomous _ _ hab hba := List.le_antisymm (List.not_lt.mp hba) (List.not_lt.mp hab)
  irrefl := List.lt_irrefl
  trans _ _ _ := List.lt_trans

namespace IndexEntry

variable {e f : IndexEntry} {names : List Bytes}

theorem names_ne_nil (e : IndexEntry) : e.names ≠ [] :=
  List.splitOn_ne_nil _ _

theorem intercalate_names (e : IndexEntry) : [RawPath.slash].intercalate e.names = e.path :=
  List.intercalate_splitOn _

theorem place_eq (e : IndexEntry) : e.place = pathOf e.names := by
  rw [place, pathOf, intercalate_names]

theorem path_eq_of_names (h : e.names = f.names) : e.path = f.path := by
  rw [← intercalate_names e, h, intercalate_names f]

/-- An entry is at the path that some names spell exactly if these are its names. -/
theorem path_eq_iff (named : ∀ name ∈ names, IsName name) (hne : names ≠ []) :
    e.path = [RawPath.slash].intercalate names ↔ e.names = names := by
  constructor
  · intro h
    -- Ordinary names have no separator, so the text splits where it was joined.
    rw [IndexEntry.names, h, List.splitOn_intercalate _ (fun name hm => (named name hm).bytes.2.2.2) hne]
  · rintro rfl
    exact (intercalate_names e).symm

/-- A chain of names that an entry continues is the chain of the entry, or leaves at least one name. -/
theorem eq_or_below (h : names <+: e.names) :
    e.names = names ∨ ∃ name more, e.names = names ++ name :: more := by
  rcases h with ⟨_ | ⟨name, more⟩, hmore⟩
  · exact Or.inl (by rw [← hmore, List.append_nil])
  · exact Or.inr ⟨name, more, hmore.symm⟩

end IndexEntry

namespace Index

variable {index : Index} {e f : IndexEntry} {names : List Bytes}

/-- What an index is: entries in ascending order, with ordinary names, and none below another one. -/
structure WellFormed (index : Index) : Prop where
  ordered : Ascending IndexEntry.key index
  named : ∀ e ∈ index, ∀ name ∈ e.names, IsName name ∧ 0 ∉ name
  apart : ∀ e ∈ index, ∀ f ∈ index, e.names <+: f.names → e.names = f.names

theorem mem_plain : e ∈ index.plain ↔ e ∈ index ∧ e.stage = 0 := by
  rw [plain, List.mem_filter, decide_eq_true_iff]

/-- A plain entry is found by its own path. -/
theorem find?_of_mem_plain (ordered : Ascending IndexEntry.key index) (he : e ∈ index.plain) :
    index.find? e.path 0 = some e := by
  rcases mem_plain.mp he with ⟨hmem, hstage⟩
  rw [find?]
  -- Some entry is found, as this one would be, and a key belongs to one entry.
  cases hf : List.find? (fun f => f.path = e.path && f.stage = 0) index with
  | none =>
      refine absurd ?_ (List.find?_eq_none.mp hf e hmem)
      rw [Bool.and_eq_true, decide_eq_true_iff, decide_eq_true_iff]
      exact ⟨rfl, hstage⟩
  | some f =>
      have hp := List.find?_some hf
      rw [Bool.and_eq_true, decide_eq_true_iff, decide_eq_true_iff] at hp
      refine congrArg some (ordered.eq_of_key_eq (List.mem_of_find?_eq_some hf) hmem ?_)
      rw [IndexEntry.key, IndexEntry.key, hp.1, hp.2, hstage]

namespace WellFormed

variable (h : index.WellFormed)

include h

theorem isName (he : e ∈ index) : ∀ name ∈ e.names, IsName name :=
  fun name hm => (h.named e he name hm).1

/-- A path has one entry of each stage. -/
theorem eq_of_names (he : e ∈ index) (hf : f ∈ index) (hs : e.stage = f.stage)
    (hn : e.names = f.names) : e = f := by
  refine h.ordered.eq_of_key_eq he hf ?_
  rw [IndexEntry.key, IndexEntry.key, IndexEntry.path_eq_of_names hn, hs]

/-- Looking up a path finds the plain entry that has its names. -/
theorem find?_eq_some_iff (named : ∀ name ∈ names, IsName name) (hne : names ≠ []) :
    index.find? ([RawPath.slash].intercalate names) 0 = some e ↔ e ∈ index.plain ∧ e.names = names := by
  -- The search asks for the text of the path, which is to ask for the names.
  have asked : ∀ f : IndexEntry,
      (decide (f.path = [RawPath.slash].intercalate names) && decide (f.stage = 0)) = true ↔
        f.names = names ∧ f.stage = 0 := by
    intro f
    rw [Bool.and_eq_true, decide_eq_true_iff, decide_eq_true_iff, IndexEntry.path_eq_iff named hne]
  rw [mem_plain, find?]
  constructor
  · intro hf
    have hp := List.find?_some hf
    have hfound := (asked e).mp hp
    exact ⟨⟨List.mem_of_find?_eq_some hf, hfound.2⟩, hfound.1⟩
  · rintro ⟨⟨he, hs⟩, hn⟩
    cases hf : List.find? (fun e => e.path = [RawPath.slash].intercalate names && e.stage = 0) index with
    | none => exact absurd ((asked e).mpr ⟨hn, hs⟩) (List.find?_eq_none.mp hf e he)
    | some f =>
        have hp := List.find?_some hf
        have hfound := (asked f).mp hp
        exact congrArg some (h.eq_of_names (List.mem_of_find?_eq_some hf) he (hfound.2.trans hs.symm)
          (hfound.1.trans hn.symm))

/-- An entry lies at or below a path exactly if its names continue those of the path. -/
theorem startsWith_iff (he : e ∈ index) (named : ∀ name ∈ names, IsName name) :
    e.place.startsWith (pathOf names) = true ↔ names <+: e.names := by
  rw [e.place_eq, startsWith_pathOf_iff (isOrdinary_pathOf (h.isName he)) named,
    names_pathOf (h.isName he)]

/-- Nothing lies below an entry. -/
theorem not_below (he : e ∈ index) (hf : f ∈ index) (name : Bytes) (more : List Bytes) :
    f.names ≠ e.names ++ name :: more := by
  intro hn
  -- An entry below another one has the same names, so nothing can come after them.
  have hsame := h.apart e he f hf (hn ▸ List.prefix_append _ _)
  rw [hn] at hsame
  exact List.cons_ne_nil _ _ (List.self_eq_append_right.mp hsame)

/-- No plain entry lies at or below another one. -/
theorem pairwise_apart : index.plain.Pairwise fun e f => Apart e.names f.names := by
  -- Two different plain entries have different names, since they have the same stage.
  have distinct : index.plain.Nodup := (h.ordered.sublist List.filter_sublist).nodup
  refine List.Pairwise.imp_of_mem (fun {e f} he hf hne => ?_) distinct
  rw [mem_plain] at he hf
  constructor
  · exact fun hp => hne (h.eq_of_names he.1 hf.1 (he.2.trans hf.2.symm) (h.apart e he.1 f hf.1 hp))
  · exact fun hp => hne (h.eq_of_names hf.1 he.1 (hf.2.trans he.2.symm) (h.apart f hf.1 e he.1 hp)).symm

/-- The tree of an index shows its plain entries and the folders on the way to them. -/
theorem spans_tree :
    index.tree.members.Spans (index.plain.map fun e => (e.names, ⟨e.mode, e.id⟩)) := by
  -- The tree is built from the chains of the plain entries, and none of them leads through another.
  refine Tree.spans_ofLeaves (fun e he => ?_) (List.pairwise_map.mpr h.pairwise_apart)
  rcases List.mem_map.mp he with ⟨entry, _, rfl⟩
  exact entry.names_ne_nil

/-- A leaf of the tree is a plain entry. -/
theorem lookup_tree_leaf_iff {leaf : Leaf} : index.tree.members.lookup names = some (.leaf leaf) ↔
    ∃ e ∈ index.plain, e.names = names ∧ leaf = ⟨e.mode, e.id⟩ := by
  rw [h.spans_tree.leaf_iff, List.mem_map]
  refine exists_congr fun e => and_congr_right fun _ => ?_
  rw [Prod.mk.injEq, eq_comm (a := leaf)]

/-- A folder of the tree lies on the way to a plain entry. -/
theorem lookup_tree_folder_iff :
    (∃ id members, index.tree.members.lookup names = some (.folder id members)) ↔
      names ≠ [] ∧ ∃ e ∈ index.plain, ∃ name more, e.names = names ++ name :: more := by
  rw [h.spans_tree.folder_iff]
  simp only [List.mem_map, exists_exists_and_eq_and]

end WellFormed

end Index

end ThreeWay
