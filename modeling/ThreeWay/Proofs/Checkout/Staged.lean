import Mathlib.Data.List.Fold
import Mathlib.Data.List.MinMax
import ThreeWay.Checkout.Content
import ThreeWay.Proofs.Diff.Build
import ThreeWay.Proofs.Diff.Hierarchy
import ThreeWay.Proofs.Index

/-!
# The Index as a Hierarchy

The listings of the index group its entries by their first name below a folder. What they show together is
a function of chains of names: a file where a plain entry is, a folder on the way to one, and nothing
elsewhere. `staged` is that function, and a listing is read off it one name at a time.

No member stands for an entry and a folder at once, since no entry lies below another one. So all entries
that begin with one name make the same member, and it does not matter which of them a listing keeps.

The index has no folders of its own, and a listing makes them up from what begins with the same name. That is why
the members are found by cutting texts: the path of the folder in front, up to the next slash behind. With
ordinary names the texts are chains of names, and cutting them is taking a name off the chain (`firstName_pathOf`,
`textBelow_eq`).

## Main definitions

* `stagedFile`: The file that an entry is shown as.
* `staged`: What the listings of an index show at the end of a chain of names.

## Theorems

* `cases_of_staged`, `exists_entry_of_staged`: What is shown has an entry at its names or below them.
* `firstName_pathOf`: The first name of a chain is the text in front of the first slash.
* `textBelow_eq`, `textBelow_of_apart`: The text of an entry below a folder.
* `stagedMember_eq`: An entry below a folder makes the member that its next name stands for.
* `exists_stagedMembers`: A folder of the index lists what is shown one name further down.
* `hierarchy_staged`: The listings of an index are a hierarchy.
-/

namespace ThreeWay

open ThreeWay.Path Scanner

namespace Checkout

/-- The file that an entry of the index is shown as. -/
def stagedFile (e : IndexEntry) : Blob :=
  { Blob.at e.place .index with contentId := some ⟨e.id.hex⟩ }

/-- What the listings of an index show at the end of a chain of names: a plain entry as a file, and a folder
    on the way to one. The root is always there. -/
def staged (index : Index) (names : List Bytes) : Option Variant :=
  match List.find? (·.names = names) index.plain with
  | some e => some (.blob (stagedFile e))
  | none =>
    if names = [] ∨ ∃ e ∈ index.plain, names <+: e.names then
      some (.ofFolder (.at (pathOf names) .index))
    else none

variable {index : Index} {names above : List Bytes} {e : IndexEntry} {v : Variant}

/-- Only an entry and a folder on the way to one are shown. -/
theorem cases_of_staged (h : staged index names = some v) :
    (∃ e ∈ index.plain, e.names = names ∧ v = .blob (stagedFile e)) ∨
      v = .ofFolder (.at (pathOf names) .index) ∧
        (names = [] ∨ ∃ e ∈ index.plain, ∃ name more, e.names = names ++ name :: more) := by
  unfold staged at h
  cases hf : List.find? (·.names = names) index.plain with
  | some e =>
      rw [hf, Option.some.injEq] at h
      have hnames := List.find?_some hf
      exact Or.inl ⟨e, List.mem_of_find?_eq_some hf, of_decide_eq_true hnames, h.symm⟩
  | none =>
      rw [hf] at h
      simp only at h
      split_ifs at h with hfolder
      rw [Option.some.injEq] at h
      refine Or.inr ⟨h.symm, hfolder.imp_right ?_⟩
      rintro ⟨e, he, hpre⟩
      -- No entry has these names, so the entry that continues them lies below.
      rcases IndexEntry.eq_or_below hpre with hn | below
      · exact absurd (decide_eq_true hn) (List.find?_eq_none.mp hf e he)
      · exact ⟨e, he, below⟩

theorem staged_root (index : Index) : staged index [] = some (.ofFolder (.at .root .index)) := by
  have hf : List.find? (·.names = []) index.plain = none :=
    List.find?_eq_none.mpr fun e _ hn => e.names_ne_nil (of_decide_eq_true hn)
  unfold staged
  rw [hf]
  exact if_pos (Or.inl rfl)

/-- Where something is shown, an entry lies at or below. -/
theorem exists_entry_of_staged (hv : staged index (above ++ [name]) = some v) :
    ∃ e ∈ index.plain, ∃ more, e.names = above ++ name :: more := by
  rcases cases_of_staged hv with ⟨e, he, hn, _⟩ | ⟨_, hroot | ⟨e, he, next, more, hn⟩⟩
  · exact ⟨e, he, [], hn⟩
  · exact absurd hroot (List.append_ne_nil_of_right_ne_nil _ (List.cons_ne_nil _ _))
  · exact ⟨e, he, next :: more, by rw [hn, List.append_assoc]; rfl⟩

theorem sides_of_staged (hv : staged index names = some v) :
    v.present = true ∧ v.path = pathOf names ∧ v.name = (pathOf names).fileName := by
  rcases cases_of_staged hv with ⟨e, _, hn, rfl⟩ | ⟨rfl, _⟩
  · rw [← hn, ← e.place_eq]
    simp only [Variant.present, Variant.path, Variant.name, stagedFile, Blob.at, and_self]
  · simp only [Variant.ofFolder, Variant.present, Variant.path, Variant.name, Folder.at, and_self]

/-- Folders of the index have no ids. -/
theorem treeId_of_staged {f : Folder} {fs : Option (List Variant)}
    (hf : staged index names = some (.tree f fs)) : f.treeId = none := by
  rcases cases_of_staged hf with ⟨_, _, _, he⟩ | ⟨he, _⟩
  · cases he
  · rw [Variant.ofFolder, Variant.tree.injEq] at he
    rw [he.1, Folder.at]

theorem length_le_of_mem (he : e ∈ index) :
    e.names.length ≤ (index.map (·.names.length)).foldl max 0 := by
  rw [List.foldl_eq_foldr]
  exact List.le_max_of_le' 0 (List.mem_map_of_mem he) le_rfl

/-- The first name of a chain is the text in front of the first slash, and there is a slash if more names
    follow. -/
theorem firstName_pathOf {s : String} {more : List Bytes} (hs : IsName (Utf8.encode s))
    (hmore : ∀ name ∈ more, IsName name) :
    (pathOf (Utf8.encode s :: more)).chars.takeWhile (· ≠ '/') = s.toList ∧
      ((pathOf (Utf8.encode s :: more)).chars.contains '/' = true ↔ more ≠ []) := by
  have hslash : '/' ∉ s.toList := hs.plain.2.1
  have hfree : ∀ c ∈ s.toList, decide (c ≠ '/') = true := fun c hc =>
    decide_eq_true fun he => hslash (he ▸ hc)
  by_cases hne : more = []
  · rw [hne, chars_pathOf_singleton hs, List.contains_iff_mem]
    have htake : (s.toList ++ []).takeWhile (· ≠ '/') = s.toList ++ [].takeWhile (· ≠ '/') :=
      List.takeWhile_append_of_pos hfree
    rw [List.append_nil, List.takeWhile_nil, List.append_nil] at htake
    exact ⟨htake, iff_of_false hslash (not_not_intro rfl)⟩
  · rw [← List.singleton_append, chars_pathOf_append (List.forall_mem_singleton.mpr hs) hmore
      (List.cons_ne_nil _ _) hne, chars_pathOf_singleton hs, List.takeWhile_append_of_pos hfree,
      List.contains_iff_mem]
    refine ⟨by simp, iff_of_true (List.mem_append_right _ List.mem_cons_self) hne⟩

section

variable (h : index.WellFormed)

include h

theorem staged_of_plain (he : e ∈ index.plain) : staged index e.names = some (.blob (stagedFile e)) := by
  unfold staged
  cases hf : List.find? (·.names = e.names) index.plain with
  | none => exact absurd (decide_eq_true rfl) (List.find?_eq_none.mp hf e he)
  | some f =>
      have hfound := Index.mem_plain.mp (List.mem_of_find?_eq_some hf)
      have hplain := Index.mem_plain.mp he
      have hnames := List.find?_some hf
      rw [h.eq_of_names hfound.1 hplain.1 (hfound.2.trans hplain.2.symm) (of_decide_eq_true hnames)]

theorem staged_of_below (he : e ∈ index.plain) {name : Bytes} {more : List Bytes}
    (hn : e.names = names ++ name :: more) :
    staged index names = some (.ofFolder (.at (pathOf names) .index)) := by
  -- An entry with these names would have this one below it.
  have hf : List.find? (·.names = names) index.plain = none := by
    refine List.find?_eq_none.mpr fun f hf hnames => ?_
    rw [← of_decide_eq_true hnames] at hn
    exact h.not_below (Index.mem_plain.mp hf).1 (Index.mem_plain.mp he).1 name more hn
  unfold staged
  rw [hf]
  exact if_pos (Or.inr ⟨e, he, hn ▸ List.prefix_append _ _⟩)

theorem isName_of_staged (hv : staged index names = some v) : ∀ name ∈ names, IsName name := by
  rcases List.eq_nil_or_concat names with rfl | ⟨above, name, rfl⟩
  · exact fun _ hm => absurd hm List.not_mem_nil
  · rw [List.concat_eq_append] at hv ⊢
    rcases exists_entry_of_staged hv with ⟨e, he, more, hn⟩
    have hpre : above ++ [name] <+: e.names := ⟨more, by rw [hn, List.append_assoc]; rfl⟩
    exact fun n hm => h.isName (Index.mem_plain.mp he).1 n (hpre.mem hm)

theorem name_of_staged {name : Bytes} (hv : staged index (above ++ [name]) = some v) :
    Utf8.encode v.name = name := by
  have named := isName_of_staged h hv
  rcases named name (List.mem_append_right _ List.mem_cons_self) with ⟨s, rfl, rest⟩
  rw [(sides_of_staged hv).2.2,
    fileName_pathOf (fun n hm => named n (List.mem_append_left _ hm)) ⟨s, rfl, rest⟩]

/-! ### Members of a Folder -/

/-- The text of an entry below a folder is what its other names spell. -/
theorem textBelow_eq (he : e ∈ index) {below : List Bytes} (hne : below ≠ [])
    (hn : e.names = above ++ below) :
    textBelow (pathOf above) e.place = .ok (some (pathOf below).chars) := by
  have named := h.isName he
  rw [hn] at named
  have ha : ∀ name ∈ above, IsName name := fun name hm => named name (List.mem_append_left _ hm)
  have hb : ∀ name ∈ below, IsName name := fun name hm => named name (List.mem_append_right _ hm)
  rw [textBelow, e.place_eq, hn]
  -- Below the root the whole path is left. Elsewhere the folder and a slash are cut off.
  by_cases hroot : above = []
  · subst hroot
    exact if_pos rfl
  · have hother : pathOf (above ++ below) ≠ pathOf above := fun hp =>
      hne (List.append_right_eq_self.mp (pathOf_injective named ha hp))
    have hnot : ¬ (pathOf above).isRoot = true := by
      rw [isRoot_pathOf ha hroot]
      exact Bool.false_ne_true
    rw [if_neg hnot, if_neg hother, if_pos (startsWith_pathOf_append ha hb),
      chars_pathOf_append ha hb hroot hne, List.append_cons,
      List.drop_left' (by rw [List.length_append, List.length_singleton])]

/-- An entry elsewhere has no text below a folder. -/
theorem textBelow_of_apart (he : e ∈ index) (ha : ∀ name ∈ above, IsName name)
    (hn : ¬ above <+: e.names) : textBelow (pathOf above) e.place = .ok none := by
  have hroot : above ≠ [] := by
    rintro rfl
    exact hn List.nil_prefix
  have hnot : ¬ (pathOf above).isRoot = true := by
    rw [isRoot_pathOf ha hroot]
    exact Bool.false_ne_true
  have hother : e.place ≠ pathOf above := by
    rw [e.place_eq]
    exact fun hp => hn (pathOf_injective (h.isName he) ha hp ▸ List.prefix_rfl)
  rw [textBelow, if_neg hnot, if_neg hother, if_neg fun hs => hn ((h.startsWith_iff he ha).mp hs)]

/-- An entry below a folder makes the member that its next name stands for. -/
theorem stagedMember_eq (he : e ∈ index.plain) {name : Bytes} {more : List Bytes}
    (hn : e.names = above ++ name :: more) : ∃ v, staged index (above ++ [name]) = some v ∧
      stagedMember (pathOf above) e = .ok (some (v.name, v)) := by
  have hentry := (Index.mem_plain.mp he).1
  have named := h.isName hentry
  rw [hn] at named
  have ha : ∀ n ∈ above, IsName n := fun n hm => named n (List.mem_append_left _ hm)
  have hname : IsName name := named name (List.mem_append_right _ List.mem_cons_self)
  have hmore : ∀ n ∈ more, IsName n := fun n hm =>
    named n (List.mem_append_right _ (List.mem_cons_of_mem _ hm))
  rcases id hname with ⟨s, rfl, _⟩
  have hfirst := firstName_pathOf hname hmore
  have hlast : (pathOf (above ++ [Utf8.encode s])).fileName = s := fileName_pathOf ha hname
  -- The first name below the folder is all that the member is made of, with the question whether anything follows.
  have hmember : stagedMember (pathOf above) e =
      if (pathOf (Utf8.encode s :: more)).chars.contains '/' then
        .ok (some (s, .ofFolder (.at (pathOf (above ++ [Utf8.encode s])) .index)))
      else .ok (some (s, .blob (stagedFile e))) := by
    rw [stagedMember, textBelow_eq h hentry (List.cons_ne_nil _ _) hn, Run.ok_bind]
    simp only [hfirst.1, String.ofList_toList, join_pathOf ha hname]
    rfl
  rw [hmember]
  by_cases hne : more = []
  · -- The entry is the member itself.
    subst hne
    have hfile : (Variant.blob (stagedFile e)).name = s := by
      rw [← hlast, ← hn, ← e.place_eq]
      rfl
    refine ⟨_, hn ▸ staged_of_plain h he, ?_⟩
    rw [hfile, if_neg fun hc => hfirst.2.mp hc rfl]
  · -- The entry lies in a folder on the way.
    rcases List.exists_cons_of_ne_nil hne with ⟨next, rest, hrest⟩
    have hfolder : e.names = (above ++ [Utf8.encode s]) ++ next :: rest := by
      rw [hn, hrest, List.append_assoc]
      rfl
    have named : ∀ p : Path, (Variant.ofFolder (.at p .index)).name = p.fileName := fun _ => rfl
    refine ⟨_, staged_of_below h he hfolder, ?_⟩
    rw [named, hlast, if_pos (hfirst.2.mpr hne)]

/-- A folder of the index lists what is shown one name further down. -/
theorem exists_stagedMembers (c : Checkout) (hindex : c.repository.index = index)
    (ha : ∀ name ∈ above, IsName name) (free : ∀ e ∈ index.plain, e.names ≠ above) :
    ∃ found, c.stagedMembers (pathOf above) = .ok found ∧ Ascending Variant.name found ∧
      ∀ v, v ∈ found ↔ ∃ name, staged index (above ++ [name]) = some v := by
  -- Every entry makes a member that is shown, or none if it lies elsewhere.
  have answered : ∀ e ∈ index.plain, ∃ found, stagedMember (pathOf above) e = .ok found ∧
      ((∃ name more v, e.names = above ++ name :: more ∧ staged index (above ++ [name]) = some v ∧
        found = some (v.name, v)) ∨ ¬ above <+: e.names ∧ found = none) := by
    intro e he
    by_cases hpre : above <+: e.names
    · rcases IndexEntry.eq_or_below hpre with hn | ⟨name, more, hn⟩
      · exact absurd hn (free e he)
      · rcases stagedMember_eq h he hn with ⟨v, hv, hmember⟩
        exact ⟨_, hmember, Or.inl ⟨name, more, v, hn, hv, rfl⟩⟩
    · refine ⟨none, ?_, Or.inr ⟨hpre, rfl⟩⟩
      rw [stagedMember, textBelow_of_apart h (Index.mem_plain.mp he).1 ha hpre]
      rfl
  rcases List.exists_mapM_eq_ok answered with ⟨found, hfound, hall⟩
  -- A pair is kept if some entry makes it, and all that is shown is made by some entry.
  have hmem : ∀ k v, (k, v) ∈ found.filterMap id ↔
      k = v.name ∧ ∃ name, staged index (above ++ [name]) = some v := by
    intro k v
    rw [Differ.mem_filterMap_id]
    constructor
    · intro hm
      rcases hall.exists_mem_of_mem_right hm with ⟨e, _, ⟨name, _, w, _, hw, he⟩ | ⟨_, he⟩⟩
      · rw [Option.some.injEq, Prod.mk.injEq] at he
        exact ⟨he.1.trans (congrArg _ he.2.symm), name, he.2 ▸ hw⟩
      · cases he
    · rintro ⟨rfl, name, hv⟩
      rcases exists_entry_of_staged hv with ⟨e, he, more, hn⟩
      rcases hall.exists_mem_of_mem_left he with ⟨member, hm, ⟨other, rest, w, ho, hw, rfl⟩ | ⟨apart, _⟩⟩
      · rw [hn, List.append_cancel_left_eq, List.cons.injEq] at ho
        rw [← ho.1, hv, Option.some.injEq] at hw
        exact hw ▸ hm
      · exact absurd (hn ▸ List.prefix_append _ _) apart
  -- So a name occurs with one member only, and the listing keeps it.
  have single : ∀ x ∈ found.filterMap id, ∀ y ∈ found.filterMap id, x.1 = y.1 → x = y := by
    rintro ⟨k, v⟩ hx ⟨l, w⟩ hy hk
    rcases (hmem k v).mp hx with ⟨rfl, name, hv⟩
    rcases (hmem l w).mp hy with ⟨rfl, other, hw⟩
    have hnames : name = other := by
      rw [← name_of_staged h hv, ← name_of_staged h hw]
      exact congrArg Utf8.encode hk
    rw [hnames, hw, Option.some.injEq] at hv
    rw [hv]
  have hlisted : c.stagedMembers (pathOf above) =
      .ok ((ascendingNew Prod.fst (found.filterMap id)).map Prod.snd) := by
    rw [stagedMembers, hindex, hfound]
    rfl
  refine ⟨_, hlisted, ?_, fun v => ?_⟩
  · refine List.pairwise_map.mpr (List.Pairwise.imp_of_mem (fun hx hy hlt => ?_) (ascending_ascendingNew _))
    rwa [((hmem _ _).mp (mem_of_mem_ascendingNew hx)).1, ((hmem _ _).mp (mem_of_mem_ascendingNew hy)).1] at hlt
  · rw [List.mem_map]
    constructor
    · rintro ⟨⟨k, w⟩, hm, rfl⟩
      exact ((hmem k w).mp (mem_of_mem_ascendingNew hm)).2
    · intro hv
      exact ⟨(v.name, v), mem_ascendingNew single ((hmem _ v).mpr ⟨rfl, hv⟩), rfl⟩

/-! ### The Hierarchy -/

/-- The listings of an index are a hierarchy. -/
theorem hierarchy_staged (c : Checkout) (hindex : c.repository.index = index) :
    Hierarchy c.store ((index.map (·.names.length)).foldl max 0) (staged index) where
  named hv := isName_of_staged h hv
  present hv := (sides_of_staged hv).1
  place hv := (sides_of_staged hv).2.1
  name_eq hv := name_of_staged h hv
  above hv := by
    rcases exists_entry_of_staged hv with ⟨e, he, more, hn⟩
    exact ⟨_, _, staged_of_below h he hn⟩
  listing {above f members} hf := by
    -- A folder is shown where no entry is, so no entry has the names of the folder.
    have free : ∀ e ∈ index.plain, e.names ≠ above := by
      rintro e he rfl
      rw [staged_of_plain h he] at hf
      cases hf
    rcases cases_of_staged hf with ⟨_, _, _, hblob⟩ | ⟨hfolder, _⟩
    · cases hblob
    · cases hfolder
      exact exists_stagedMembers h c hindex (isName_of_staged h hf) free
  deep {names f members} hf := by
    rcases cases_of_staged hf with ⟨_, _, _, hblob⟩ | ⟨_, rfl | ⟨e, he, name, more, hn⟩⟩
    · cases hblob
    · exact Nat.zero_le _
    · have hlength := length_le_of_mem (Index.mem_plain.mp he).1
      rw [hn, List.length_append] at hlength
      exact (Nat.le_add_right _ _).trans hlength

end

end Checkout

end ThreeWay
