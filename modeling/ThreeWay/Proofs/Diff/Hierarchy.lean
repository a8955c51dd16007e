import ThreeWay.Proofs.Diff.Law
import ThreeWay.Proofs.Forest.Order
import ThreeWay.Proofs.Path.Join

/-!
# Hierarchies by Name

The law of a difference goes from a folder to its listing and knows no places. Here a hierarchy is a function
from chains of names to variants, and a store lists its folders: a folder has as members exactly what one
more name leads to. Seen like that, two hierarchies are compared place by place, however differently their
listings come about.

Nothing stands below a file, and what stands anywhere stands in a folder; that is all the structure a
hierarchy needs. It goes down only so far, and that makes its listings what a difference asks for.

Every hierarchy of a checkout is a forest whose entries are shown as variants, a tree of objects or a folder of
a disk. `Shows` says what that has to be like, entry by entry, and makes a hierarchy of it.

## Main definitions

* `Hierarchy`: A hierarchy by name, listed by a store.
* `Shows`: How the entries of a forest are shown as variants.

## Theorems

* `validMember_of_isName`: A member with an ordinary name is valid.
* `exists_front`: On the way to what stands somewhere stands something.
* `find_append_of_blob`, `find_append_of_none`: Nothing stands below a file, nor below nothing.
* `Hierarchy.mem_iff`: A member stands under its own name.
* `Hierarchy.mem_of_find`, `Hierarchy.name_ne_of_none`, `Hierarchy.none_of_name_ne`: Members and places, in both
  directions.
* `Hierarchy.wellListed`: A hierarchy is well listed.
* `Hierarchy.readableBelow`: Two hierarchies whose files can be compared have a difference.
* `Shows.mem_iff`: What is shown of a folder.
* `Shows.hierarchy`: A forest that is shown and listed is a hierarchy.
-/

namespace ThreeWay

open ThreeWay.Path Scanner

/-- A member with an ordinary name that exists is valid. -/
theorem validMember_of_isName {v : Variant} (present : v.present = true)
    (named : IsName (Utf8.encode v.name)) : ValidMember v := by
  refine ⟨present, fun he => ?_, fun hm => ?_⟩
  -- The bytes of a name are not empty, and the byte of a slash is not among them.
  · rw [he] at named
    exact named.bytes.1 rfl
  · have hbyte : RawPath.slash ∈ Utf8.encode v.name := (Utf8.mem_encode (by decide) v.name).mpr hm
    exact named.bytes.2.2.2 hbyte

/-- What stands at the end of each chain of names, in a hierarchy that a store lists and whose folders go
    down so far. -/
structure Hierarchy (s : Store) (depth : Nat) (find : List Bytes → Option Variant) : Prop where
  named : ∀ {names v}, find names = some v → ∀ name ∈ names, IsName name
  present : ∀ {names v}, find names = some v → v.present = true
  place : ∀ {names v}, find names = some v → v.path = pathOf names
  name_eq : ∀ {above name v}, find (above ++ [name]) = some v → Utf8.encode v.name = name
  above : ∀ {above name v}, find (above ++ [name]) = some v →
    ∃ f members, find above = some (.tree f members)
  listing : ∀ {above f members}, find above = some (.tree f members) →
    ∃ found, s.listed f members = .ok found ∧ Ascending Variant.name found ∧
      ∀ v, v ∈ found ↔ ∃ name, find (above ++ [name]) = some v
  deep : ∀ {names f members}, find names = some (.tree f members) → names.length ≤ depth

namespace Hierarchy

/-- A hierarchy with nothing in it. -/
theorem empty (s : Store) (depth : Nat) : Hierarchy s depth fun _ => none where
  named hv := nomatch hv
  present hv := nomatch hv
  place hv := nomatch hv
  name_eq hv := nomatch hv
  above hv := nomatch hv
  listing hv := nomatch hv
  deep hv := nomatch hv

variable {s : Store} {depth : Nat} {find : List Bytes → Option Variant} (h : Hierarchy s depth find)
  {above more : List Bytes} {name : Bytes} {v : Variant}

include h

/-- On the way to what stands somewhere stands something. -/
theorem exists_front (hv : find (above ++ more) = some v) : ∃ w, find above = some w := by
  -- Name by name, since what stands in a folder needs the folder.
  induction more generalizing above with
  | nil =>
      rw [List.append_nil] at hv
      exact ⟨v, hv⟩
  | cons name more ih =>
      rw [List.append_cons] at hv
      rcases ih hv with ⟨w, hw⟩
      rcases h.above hw with ⟨f, members, hf⟩
      exact ⟨.tree f members, hf⟩

theorem find_append_of_none (hn : find above = none) (more : List Bytes) :
    find (above ++ more) = none := by
  by_contra hne
  rcases Option.ne_none_iff_exists'.mp hne with ⟨v, hv⟩
  rcases h.exists_front hv with ⟨w, hw⟩
  cases hn.symm.trans hw

theorem find_append_of_blob {b : Blob} (hb : find above = some (.blob b)) (name : Bytes)
    (more : List Bytes) : find (above ++ name :: more) = none := by
  rw [List.append_cons]
  refine h.find_append_of_none ?_ more
  by_contra hne
  rcases Option.ne_none_iff_exists'.mp hne with ⟨v, hv⟩
  rcases h.above hv with ⟨f, members, hf⟩
  cases hb.symm.trans hf

/-- A member of a folder stands under its own name. -/
theorem mem_iff {f : Folder} {members : Option (List Variant)} {found : List Variant}
    (hf : find above = some (.tree f members)) (listed : s.listed f members = .ok found) :
    v ∈ found ↔ find (above ++ [Utf8.encode v.name]) = some v := by
  -- The folder has one listing, and that holds what one more name leads to.
  rcases h.listing hf with ⟨found', listed', _, hmem⟩
  cases Except.ok.inj (listed.symm.trans listed')
  rw [hmem]
  constructor
  · rintro ⟨name, hv⟩
    rw [h.name_eq hv]
    exact hv
  · intro hv
    exact ⟨_, hv⟩

theorem mem_of_find {f : Folder} {members : Option (List Variant)} {found : List Variant}
    (hf : find above = some (.tree f members)) (listed : s.listed f members = .ok found)
    (hv : find (above ++ [name]) = some v) : v ∈ found := by
  rw [h.mem_iff hf listed, h.name_eq hv]
  exact hv

/-- Where a name leads nowhere, no member has it. -/
theorem name_ne_of_none {f : Folder} {members : Option (List Variant)} {found : List Variant}
    (hf : find above = some (.tree f members)) (listed : s.listed f members = .ok found)
    {text : String} (hn : find (above ++ [Utf8.encode text]) = none) :
    ∀ w ∈ found, w.name ≠ text := by
  rintro w hw rfl
  cases hn.symm.trans ((h.mem_iff hf listed).mp hw)

theorem none_of_name_ne {f : Folder} {members : Option (List Variant)} {found : List Variant}
    (hf : find above = some (.tree f members)) (listed : s.listed f members = .ok found)
    {text : String} (alone : ∀ w ∈ found, w.name ≠ text) :
    find (above ++ [Utf8.encode text]) = none := by
  by_contra hne
  rcases Option.ne_none_iff_exists'.mp hne with ⟨w, hw⟩
  exact alone w (h.mem_of_find hf listed hw) (Utf8.encode_injective (h.name_eq hw))

/-- A hierarchy is well listed, as deep as it goes. -/
theorem wellListed {n : Nat} (hv : find above = some v) (bound : depth < above.length + n) :
    WellListed s n v := by
  -- Each name on the way down uses up one level, and no folder lies deeper than the hierarchy goes.
  induction n generalizing above v with
  | zero =>
      cases v with
      | blob b => exact WellListed.blob 0 b
      | tree f members =>
          have hd := h.deep hv
          omega
  | succ n ih =>
      cases v with
      | blob b => exact WellListed.blob (n + 1) b
      | tree f members =>
          rcases h.listing hv with ⟨found, listed, ordered, _⟩
          refine WellListed.tree n f members found listed ((ascending_encode_iff _ _).mpr ordered) ?_ ?_
          · intro w hw
            have hfind := (h.mem_iff hv listed).mp hw
            exact validMember_of_isName (h.present hfind)
              (h.named hfind _ (List.mem_append_right _ List.mem_cons_self))
          · intro w hw
            refine ih ((h.mem_iff hv listed).mp hw) ?_
            rw [List.length_append, List.length_singleton]
            omega

omit h

section

variable {c : Comparator} {m n : Nat} {left right : List Bytes → Option Variant}
  (hl : Hierarchy c.store m left) (hr : Hierarchy c.store n right)
  (comparable : ∀ names a b, left names = some (.blob a) → right names = some (.blob b) →
    ∃ same, c.equal (some (.blob a)) (some (.blob b)) = .ok same)

include hl hr comparable

/-- Whatever stands at one place in two hierarchies can be told apart, if files can be. -/
theorem readable {levels : Nat} {w : Variant} (deep : WellListed c.store levels v) (hv : left above = some v)
    (hw : right above = some w) : Readable c v w := by
  -- Both sides go down together, and what stands at a place on the right is found by the name of the left.
  induction deep generalizing above w with
  | blob levels a =>
      cases w with
      | blob b =>
          rcases comparable above a b hv hw with ⟨same, hs⟩
          exact Readable.contents a b same hs
      | tree g gs => exact Readable.kinds _ _ Bool.noConfusion
  | tree levels f fs ls listed _ _ _ ih =>
      cases w with
      | blob b => exact Readable.kinds _ _ Bool.noConfusion
      | tree g gs =>
          rcases hr.listing hw with ⟨rs, listedR, _⟩
          refine Readable.folders f g fs gs ls rs listed listedR fun l hml r hmr same => ?_
          have hfindR := (hr.mem_iff hw listedR).mp hmr
          rw [← same] at hfindR
          exact ih l hml ((hl.mem_iff hv listed).mp hml) hfindR

/-- Two hierarchies whose files can be compared have a difference. -/
theorem readableBelow {w : Variant} (hv : left above = some v) (hw : right above = some w) :
    ReadableBelow c v w := by
  cases v with
  | blob a => trivial
  | tree f fs =>
      cases w with
      | blob b => trivial
      | tree g gs =>
          intro ls rs listedL listedR l hml r hmr same
          have hfindL := (hl.mem_iff hv listedL).mp hml
          have hfindR := (hr.mem_iff hw listedR).mp hmr
          rw [← same] at hfindR
          have deep : WellListed c.store (m + 1) l := hl.wellListed hfindL (by omega)
          exact readable hl hr comparable deep hfindL hfindR

end

end Hierarchy

/-- The entries of a forest are shown as variants, under their own paths, and folders as folders. Where an
    entry is shown, every folder above it would be. -/
structure Shows {α β : Type} (view : List Bytes → Forest.Entry α β → Option Variant) : Prop where
  sides : ∀ {names entry v}, view names entry = some v →
    v.present = true ∧ v.path = pathOf names ∧ v.name = (pathOf names).fileName
  folder : ∀ {names entry g members}, view names entry = some (.tree g members) →
    ∃ value below, entry = .folder value below
  above : ∀ {above name entry v}, view (above ++ [name]) entry = some v →
    ∀ value below, ∃ g members, view above (.folder value below) = some (.tree g members)

namespace Shows

variable {α β : Type} {f : Forest α β} {root : β}
  {view : List Bytes → Forest.Entry α β → Option Variant} (h : Shows view)
  (named : f.AllNames IsName) (distinct : f.Distinct) {above : List Bytes} {value : β}
  {members : Forest α β} (hf : (Forest.Entry.folder root f).lookup above = some (.folder value members))

include h in
theorem name_eq {name : Bytes} (hn : ∀ n ∈ above ++ [name], IsName n) {entry : Forest.Entry α β}
    {v : Variant} (hv : view (above ++ [name]) entry = some v) : Utf8.encode v.name = name := by
  rcases hn name (List.mem_append_right _ List.mem_cons_self) with ⟨text, rfl, plain⟩
  rw [(h.sides hv).2.2,
    fileName_pathOf (fun n hm => hn n (List.mem_append_left _ hm)) ⟨text, rfl, plain⟩]

include h named distinct

include hf in
/-- What is shown of a folder are the entries that one more name leads to. No two of them have the same name, so
    none gives way to another where they are put in order. -/
theorem mem_iff {v : Variant} :
    v ∈ ascending Variant.name (members.entries.filterMap fun e => view (above ++ [e.1]) e.2) ↔
      ∃ name entry, (Forest.Entry.folder root f).lookup (above ++ [name]) = some entry ∧
        view (above ++ [name]) entry = some v := by
  have hentry {name : Bytes} {entry : Forest.Entry α β} : (name, entry) ∈ members.entries ↔
      (Forest.Entry.folder root f).lookup (above ++ [name]) = some entry :=
    Forest.mem_entries_iff_lookup distinct hf
  constructor
  · intro hv
    rcases List.mem_filterMap.mp (mem_of_mem_ascending hv) with ⟨⟨name, entry⟩, hm, hv⟩
    exact ⟨name, entry, hentry.mp hm, hv⟩
  · rintro ⟨name, entry, hl, hv⟩
    refine mem_ascending (List.mem_filterMap.mpr ⟨(name, entry), hentry.mpr hl, hv⟩) fun w hw same => ?_
    rcases List.mem_filterMap.mp hw with ⟨⟨other, entry'⟩, hm, hw⟩
    -- A member has the name that leads to it, so its entry is the one that the name leads to.
    have hother := h.name_eq (named.of_lookup_folder (hentry.mp hm)).1 hw
    rw [same, h.name_eq (named.of_lookup_folder hl).1 hv] at hother
    subst hother
    cases (hentry.mp hm).symm.trans hl
    exact Option.some.inj (hw.symm.trans hv)

/-- A forest that is shown and listed is a hierarchy. -/
theorem hierarchy {s : Store} (listed : ∀ {above value members g ms},
      (Forest.Entry.folder root f).lookup above = some (.folder value members) →
      view above (.folder value members) = some (.tree g ms) →
      s.listed g ms =
        .ok (ascending Variant.name (members.entries.filterMap fun e => view (above ++ [e.1]) e.2))) :
    Hierarchy s f.depth fun names =>
      ((Forest.Entry.folder root f).lookup names).bind (view names) where
  named hv := by
    rcases Option.bind_eq_some_iff.mp hv with ⟨entry, he, _⟩
    exact (named.of_lookup_folder he).1
  present hv := by
    rcases Option.bind_eq_some_iff.mp hv with ⟨entry, _, hview⟩
    exact (h.sides hview).1
  place hv := by
    rcases Option.bind_eq_some_iff.mp hv with ⟨entry, _, hview⟩
    exact (h.sides hview).2.1
  name_eq hv := by
    rcases Option.bind_eq_some_iff.mp hv with ⟨entry, he, hview⟩
    exact h.name_eq (named.of_lookup_folder he).1 hview
  above hv := by
    rcases Option.bind_eq_some_iff.mp hv with ⟨entry, he, hview⟩
    rcases Forest.Entry.folder_of_lookup_concat he with ⟨value, below, hf⟩
    rcases h.above hview value below with ⟨g, members, hg⟩
    exact ⟨g, members, Option.bind_eq_some_iff.mpr ⟨_, hf, hg⟩⟩
  listing hv := by
    rcases Option.bind_eq_some_iff.mp hv with ⟨entry, he, hview⟩
    rcases h.folder hview with ⟨value, below, rfl⟩
    refine ⟨_, listed he hview, ascending_ascending _, ?_⟩
    intro v
    rw [h.mem_iff named distinct he]
    simp only [Option.bind_eq_some_iff]
  deep hv := by
    rcases Option.bind_eq_some_iff.mp hv with ⟨entry, he, hview⟩
    rcases h.folder hview with ⟨value, below, rfl⟩
    have hlength := Forest.length_add_depth_le he
    omega

end Shows

end ThreeWay
