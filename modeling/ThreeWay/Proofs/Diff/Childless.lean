import ThreeWay.Proofs.Diff.Below
import ThreeWay.Proofs.Diff.Departs

/-!
# Nodes Without Children

A difference ends in nodes without children, and whoever looks for the files that differ takes these. Mostly
they are files, or a file and a folder. But a folder can be the end of a difference as well, and then nothing
below it tells why it is there.

That happens in two ways. A folder on one side only may have no members. And two folders with different tree
ids differ whatever their members are: a tree id also covers what no listing shows, such as the mode of a
file, a submodule, or a name that is no text.

A difference of two files, or of a file and a folder, ends at its own root. So what a difference ends in is asked
for below it, and one level at a time: each child stands one name further down, and it is an end itself or has its
ends below it (`DiffNode.endsIn_of_children`).

## Main definitions

* `Hollow`: A place at which a difference ends in a folder.
* `BlobOrHollow`: A place at which a difference can end.
* `DiffNode.EndsIn`: Where a node has no further differences below it.

## Theorems

* `Hollow.not_blob`: There is no file at a hollow place.
* `BlobOrHollow.exists_side`: A difference ends in what stands on one of its sides.
* `blobOrHollow_of_left`, `blobOrHollow_of_right`: What one side alone ends in.
* `mem_changedPaths_iff`: The paths that are looked for are those of nodes without children.
* `endsIn_of_children`: A node ends in what its children end in.
* `agreeAt_of_isEmpty`, `treeIds_of_agree`: Two folders that differ in nothing but their tree ids.
* `endsIn_of_left`, `endsIn_of_right`, `endsIn_of_isDifference`: Where a difference ends.
-/

namespace ThreeWay

open ThreeWay.Path Scanner

/-- Two hierarchies agree about a place: nothing stands there, or two members that do not differ. -/
def AgreeAt (c : Comparator) (left right : List Bytes → Option Variant) (names : List Bytes) : Prop :=
  left names = none ∧ right names = none ∨
    ∃ v w, left names = some v ∧ right names = some w ∧ ¬ Differs c v w

/-- A place at which two hierarchies differ in a folder and in nothing below it: one side only has a folder
    there and nothing in it, or both have one, with different tree ids, and agree about all members. -/
inductive Hollow (c : Comparator) (left right : List Bytes → Option Variant) (names : List Bytes) : Prop
  | leftOnly (f : Folder) (fs : Option (List Variant)) (here : left names = some (.tree f fs))
      (missing : right names = none) (bare : ∀ name, left (names ++ [name]) = none) :
      Hollow c left right names
  | rightOnly (g : Folder) (gs : Option (List Variant)) (missing : left names = none)
      (there : right names = some (.tree g gs)) (bare : ∀ name, right (names ++ [name]) = none) :
      Hollow c left right names
  | both (f g : Folder) (fs gs : Option (List Variant)) (x y : TreeId)
      (here : left names = some (.tree f fs)) (there : right names = some (.tree g gs))
      (hx : f.treeId = some x) (hy : g.treeId = some y) (apart : x ≠ y)
      (agree : ∀ name, AgreeAt c left right (names ++ [name])) : Hollow c left right names

/-- A place at which one hierarchy has a file, or a folder without members. -/
def BlobOrBare (find : List Bytes → Option Variant) (names : List Bytes) : Prop :=
  (∃ b, find names = some (.blob b)) ∨
    (∃ f fs, find names = some (.tree f fs)) ∧ ∀ name, find (names ++ [name]) = none

/-- A file stands at a place on one of two sides. -/
def BlobAt (left right : List Bytes → Option Variant) (names : List Bytes) : Prop :=
  ∃ b, left names = some (.blob b) ∨ right names = some (.blob b)

/-- A place at which a difference can end. -/
def BlobOrHollow (c : Comparator) (left right : List Bytes → Option Variant) (names : List Bytes) : Prop :=
  BlobAt left right names ∨ Hollow c left right names

section

variable {c : Comparator} {left right : List Bytes → Option Variant} {names : List Bytes}

/-- There is no file where there is nothing but a folder. -/
theorem Hollow.not_blob (h : Hollow c left right names) : ¬ BlobAt left right names := by
  rintro ⟨b, hb⟩
  cases h with
  | leftOnly f fs here missing => simp [here, missing] at hb
  | rightOnly g gs missing there => simp [there, missing] at hb
  | both f g fs gs x y here there => simp [here, there] at hb

/-- Whatever a difference ends in stands on one of its sides. -/
theorem BlobOrHollow.exists_side (h : BlobOrHollow c left right names) :
    (∃ v, left names = some v) ∨ ∃ v, right names = some v := by
  rcases h with ⟨b, hb | hb⟩ | hollow
  · exact Or.inl ⟨_, hb⟩
  · exact Or.inr ⟨_, hb⟩
  · cases hollow with
    | leftOnly f fs here => exact Or.inl ⟨_, here⟩
    | rightOnly g gs missing there => exact Or.inr ⟨_, there⟩
    | both f g fs gs x y here => exact Or.inl ⟨_, here⟩

/-- What one side ends in at a place that the other does not have, the difference ends in. -/
theorem blobOrHollow_of_left (hw : right names = none) (h : BlobOrBare left names) :
    BlobOrHollow c left right names := by
  rcases h with ⟨b, hb⟩ | ⟨⟨f, fs, hf⟩, bare⟩
  · exact Or.inl ⟨b, Or.inl hb⟩
  · exact Or.inr (.leftOnly f fs hf hw bare)

theorem blobOrHollow_of_right (hv : left names = none) (h : BlobOrBare right names) :
    BlobOrHollow c left right names := by
  rcases h with ⟨b, hb⟩ | ⟨⟨g, gs, hg⟩, bare⟩
  · exact Or.inl ⟨b, Or.inr hb⟩
  · exact Or.inr (.rightOnly g gs hv hg bare)

end

namespace DiffNode

variable {n : DiffNode} {above : List Bytes} {P Q : List Bytes → Prop}

/-- Whatever has no children below a node stands at a place of some kind below the place of the node. -/
def EndsIn (n : DiffNode) (above : List Bytes) (P : List Bytes → Prop) : Prop :=
  ∀ m ∈ n.children.flatMap nodes, m.isEmpty = true →
    ∃ more, more ≠ [] ∧ m.path? = some (pathOf (above ++ more)) ∧ P (above ++ more)

theorem EndsIn.imp (h : n.EndsIn above P) (himp : ∀ more, P (above ++ more) → Q (above ++ more)) :
    n.EndsIn above Q := by
  intro m hm hempty
  rcases h m hm hempty with ⟨more, hne, hpath, hp⟩
  exact ⟨more, hne, hpath, himp more hp⟩

/-- A node ends in what its children end in. Every child stands at a place of one more name. -/
theorem endsIn_of_children (h : ∀ m ∈ n.children, ∃ name, m.path? = some (pathOf (above ++ [name])) ∧
    (m.isEmpty = true → P (above ++ [name])) ∧ m.EndsIn (above ++ [name]) P) : n.EndsIn above P := by
  intro x hx hempty
  rcases List.mem_flatMap.mp hx with ⟨m, hm, hx⟩
  rcases h m hm with ⟨name, hpath, here, below⟩
  rw [nodes_eq, List.mem_cons] at hx
  rcases hx with rfl | hx
  · exact ⟨[name], List.cons_ne_nil _ _, hpath, here hempty⟩
  · rcases below x hx hempty with ⟨more, _, hpath, hp⟩
    rw [List.append_assoc] at hpath hp
    exact ⟨[name] ++ more, List.cons_ne_nil _ _, hpath, hp⟩

end DiffNode

/-- The paths at which two revisions differ are those of the nodes without children below the root. -/
theorem Synchronizer.mem_changedPaths_iff {n : DiffNode} {p : Path} : p ∈ changedPaths n ↔
    ∃ m ∈ n.children.flatMap DiffNode.nodes, m.isEmpty = true ∧ m.path? = some p := by
  have hmap : changedPaths n = (n.walk.map Prod.snd).filterMap
      fun m => if m.isEmpty then m.path? else none := by
    rw [List.filterMap_map]
    rfl
  rw [hmap, DiffNode.walk, DiffNode.map_snd_walkFrom, List.mem_filterMap]
  simp only [Option.ite_none_right_eq_some]

section

variable {s : Store} {depth : Nat} {find : List Bytes → Option Variant} (h : Hierarchy s depth find)
  {kind : DiffKind} {above : List Bytes} {v : Variant} {node : DiffNode} (hv : find above = some v)
  (whole : Whole s kind v node)

include h hv whole

/-- A tree of one side has no children if it is a file or a folder without members. -/
theorem blob_or_bare_of_isEmpty (hempty : node.isEmpty = true) : BlobOrBare find above := by
  cases whole with
  | blob b => exact Or.inl ⟨b, hv⟩
  | tree f members found children listed below =>
      have hchildren : (Differ.oneSided (.tree f members) kind children).children = children := by
        cases kind <;> rfl
      refine Or.inr ⟨⟨f, members, hv⟩, fun name => ?_⟩
      -- Whatever stands in the folder is listed, and a whole tree has a child for it.
      by_contra hne
      rcases Option.ne_none_iff_exists'.mp hne with ⟨u, hu⟩
      rcases below.exists_mem_of_mem_left (h.mem_of_find hv listed hu) with ⟨m, hm, _⟩
      rw [DiffNode.isEmpty, hchildren, List.isEmpty_iff] at hempty
      rw [hempty] at hm
      cases hm

/-- It ends in such files and folders. -/
theorem endsIn_of_whole : node.EndsIn above (BlobOrBare find) := by
  have deep : ∃ n, WellListed s n v := ⟨depth + 1, h.wellListed hv (by omega)⟩
  rcases deep with ⟨n, deep⟩
  -- The induction is on the listings, which a whole tree follows down to its last level.
  induction deep generalizing above node with
  | blob n b =>
      cases whole with
      | blob b =>
          have hchildren : (Differ.oneSided (.blob b) kind []).children = [] := by
            cases kind <;> rfl
          refine DiffNode.endsIn_of_children fun m hm => ?_
          rw [hchildren] at hm
          cases hm
  | tree n f members found listed ordered valid below ih =>
      cases whole with
      | tree _ _ found' children listed' whole =>
          cases Except.ok.inj (listed.symm.trans listed')
          have hchildren : (Differ.oneSided (.tree f members) kind children).children = children := by
            cases kind <;> rfl
          refine DiffNode.endsIn_of_children fun m hm => ?_
          rw [hchildren] at hm
          rcases whole.exists_mem_of_mem_right hm with ⟨u, hu, hwhole⟩
          have hfind := (h.mem_iff hv listed).mp hu
          have hpath := (Differ.whole_path? hwhole).trans (congrArg some (h.place hfind))
          exact ⟨_, hpath, blob_or_bare_of_isEmpty h hfind hwhole, ih u hu hfind hwhole⟩

end

section

variable {c : Comparator} {m n : Nat} {left right : List Bytes → Option Variant}
  (hl : Hierarchy c.store m left) (hr : Hierarchy c.store n right) {above : List Bytes} {v w : Variant}
  {node : DiffNode}

include hl hr

/-- Two folders without differences below them agree about all members. -/
theorem agreeAt_of_isEmpty {f g : Folder} {fs gs : Option (List Variant)}
    (hv : left above = some (.tree f fs)) (hw : right above = some (.tree g gs))
    (hdiff : IsDifference c (.tree f fs) (.tree g gs) node) (hempty : node.isEmpty = true)
    (name : Bytes) : AgreeAt c left right (above ++ [name]) := by
  cases hdiff with
  | leaf _ _ flat => exact absurd ⟨rfl, rfl⟩ flat
  | folders _ _ _ _ ls rs children below listedL listedR _ additions deletions changes =>
      have hnone : children = [] := List.isEmpty_iff.mp hempty
      simp only [hnone, List.not_mem_nil, false_and, exists_false] at additions deletions changes
      -- Without children nothing was added, removed or changed, so at each name there is nothing on either side or a
      -- pair that does not differ.
      cases hleft : left (above ++ [name]) with
      | none =>
          cases hright : right (above ++ [name]) with
          | none => exact Or.inl ⟨hleft, hright⟩
          | some r =>
              rw [← hr.name_eq hright] at hleft
              exact (deletions r (hr.mem_of_find hw listedR hright)
                (hl.name_ne_of_none hv listedL hleft)).elim
      | some l =>
          have hml := hl.mem_of_find hv listedL hleft
          cases hright : right (above ++ [name]) with
          | none =>
              rw [← hl.name_eq hleft] at hright
              exact (additions l hml (hr.name_ne_of_none hw listedR hright)).elim
          | some r =>
              have same : l.name = r.name :=
                Utf8.encode_injective ((hl.name_eq hleft).trans (hr.name_eq hright).symm)
              exact Or.inr ⟨l, r, hleft, hright,
                changes l hml r (hr.mem_of_find hw listedR hright) same⟩

/-- Two folders that differ and agree about all members have different tree ids. -/
theorem treeIds_of_agree {f g : Folder} {fs gs : Option (List Variant)}
    (hv : left above = some (.tree f fs)) (hw : right above = some (.tree g gs))
    (differ : Differs c (.tree f fs) (.tree g gs))
    (agree : ∀ name, AgreeAt c left right (above ++ [name])) :
    ∃ x y, f.treeId = some x ∧ g.treeId = some y ∧ x ≠ y := by
  -- All reasons to differ but the tree ids name a member at which the two do not agree.
  cases differ with
  | kinds _ _ apart => exact absurd rfl apart
  | ids _ _ _ _ x y hx hy apart => exact ⟨x, y, hx, hy, apart⟩
  | onlyLeft _ _ _ _ ls rs _ listedL listedR l hml alone =>
      have hleft := (hl.mem_iff hv listedL).mp hml
      rcases agree (Utf8.encode l.name) with ⟨hnone, _⟩ | ⟨_, r, _, hright, _⟩
      · cases hnone.symm.trans hleft
      · cases (hr.none_of_name_ne hw listedR alone).symm.trans hright
  | onlyRight _ _ _ _ ls rs _ listedL listedR r hmr alone =>
      have hright := (hr.mem_iff hw listedR).mp hmr
      rcases agree (Utf8.encode r.name) with ⟨_, hnone⟩ | ⟨l, _, hleft, _⟩
      · cases hnone.symm.trans hright
      · cases (hl.none_of_name_ne hv listedL alone).symm.trans hleft
  | pair _ _ _ _ ls rs _ listedL listedR l r hml hmr same differ =>
      have hleft := (hl.mem_iff hv listedL).mp hml
      have hright := (hr.mem_iff hw listedR).mp hmr
      rw [← same] at hright
      rcases agree (Utf8.encode l.name) with ⟨hnone, _⟩ | ⟨_, _, hl', hr', alike⟩
      · cases hnone.symm.trans hleft
      · cases hleft.symm.trans hl'
        cases hright.symm.trans hr'
        exact absurd differ alike

/-- The difference of two members that differ has no children only where there is a file or nothing else
    differs. -/
theorem blobOrHollow_of_isEmpty (hv : left above = some v) (hw : right above = some w)
    (differ : Differs c v w) (hdiff : IsDifference c v w node) (hempty : node.isEmpty = true) :
    BlobOrHollow c left right above := by
  -- A file on either side is enough. Otherwise both are folders, and they have different tree ids.
  cases v with
  | blob a => exact Or.inl ⟨a, Or.inl hv⟩
  | tree f fs =>
      cases w with
      | blob b => exact Or.inl ⟨b, Or.inr hw⟩
      | tree g gs =>
          have agree := agreeAt_of_isEmpty hl hr hv hw hdiff hempty
          rcases treeIds_of_agree hl hr hv hw differ agree with ⟨x, y, hx, hy, apart⟩
          exact Or.inr (.both f g fs gs x y hv hw hx hy apart agree)

/-- A tree of the left side alone ends in files and in hollow places. -/
theorem endsIn_of_left (hv : left above = some v) (hw : right above = none)
    (whole : Whole c.store .addition v node) : node.EndsIn above (BlobOrHollow c left right) :=
  (endsIn_of_whole hl hv whole).imp fun more => blobOrHollow_of_left (hr.find_append_of_none hw more)

/-- So does one of the right side alone. -/
theorem endsIn_of_right (hv : left above = none) (hw : right above = some w)
    (whole : Whole c.store .deletion w node) : node.EndsIn above (BlobOrHollow c left right) :=
  (endsIn_of_whole hr hw whole).imp fun more => blobOrHollow_of_right (hl.find_append_of_none hv more)

/-- A difference ends in files and in hollow places. -/
theorem endsIn_of_isDifference (hv : left above = some v) (hw : right above = some w)
    (hdiff : IsDifference c v w node) : node.EndsIn above (BlobOrHollow c left right) := by
  -- Below two folders every child is a tree of one side or the difference of a pair, and for those it is known
  -- already.
  induction hdiff generalizing above with
  | leaf l r flat => exact DiffNode.endsIn_of_children fun m hm => nomatch hm
  | folders f g fs gs ls rs children below listedL listedR _ _ _ _ nested nothingElse ih =>
      refine DiffNode.endsIn_of_children fun m hm => ?_
      rcases nothingElse m hm with ⟨l, hml, alone, whole⟩ | ⟨r, hmr, alone, whole⟩ |
        ⟨l, hml, r, hmr, same, differ, rfl⟩
      · have hleft := (hl.mem_iff hv listedL).mp hml
        have hright := hr.none_of_name_ne hw listedR alone
        have hpath := (Differ.whole_path? whole).trans (congrArg some (hl.place hleft))
        exact ⟨_, hpath,
          fun hempty => blobOrHollow_of_left hright (blob_or_bare_of_isEmpty hl hleft whole hempty),
          endsIn_of_left hl hr hleft hright whole⟩
      · have hright := (hr.mem_iff hw listedR).mp hmr
        have hleft := hl.none_of_name_ne hv listedL alone
        have hpath := (Differ.whole_path? whole).trans (congrArg some (hr.place hright))
        exact ⟨_, hpath,
          fun hempty => blobOrHollow_of_right hleft (blob_or_bare_of_isEmpty hr hright whole hempty),
          endsIn_of_right hl hr hleft hright whole⟩
      · have hleft := (hl.mem_iff hv listedL).mp hml
        have hright := (hr.mem_iff hw listedR).mp hmr
        rw [← same] at hright
        have hnested := nested l hml r hmr same differ
        have hpath := (Differ.isDifference_path? hnested).trans (congrArg some (hl.place hleft))
        exact ⟨_, hpath, blobOrHollow_of_isEmpty hl hr hleft hright differ hnested,
          ih l hml r hmr same differ hleft hright⟩

end

end ThreeWay
