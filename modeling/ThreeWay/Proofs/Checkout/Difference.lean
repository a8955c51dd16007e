import ThreeWay.Proofs.Checkout.Tree
import ThreeWay.Proofs.Compare
import ThreeWay.Proofs.Diff.Below
import ThreeWay.Proofs.Diff.Build
import ThreeWay.Proofs.Lists

/-!
# Differences of Two Revisions

Nothing gets lost in the difference of two revisions. A file of one of them is found as a leaf under its own
path, unless the other one has it too and the contents are not found to differ; or it is found under a
folder above it that is a file on the other side.

The argument goes down along the names of the file. At each name a folder on both sides leads further down,
unless both folders have one id: then they are one folder, which is where ids have to stand for what they
name. Anything else at that name ends the way with a leaf.

Two things are told of a file. `Told` says that the difference has a leaf for it, at its own path or at a path
above where one side has a file and the other a folder. `Unchanged` says that both revisions have it and that a
comparison does not find a difference. The first is a property of the node, the second one of the two trees alone,
and `told_or_unchanged` is that one of them holds.

What a revision lists at a chain of names is `member`, and it has a file there exactly if the tree has one. So
going down is done in the trees, where a chain of names is looked up, and each step is matched by the listing of a
folder.

## Main definitions

* `Tree.HasFile`, `Tree.HasFolder`: A file, and a folder, of a tree.
* `Checkout.Swapped`: A file on one side and a folder on the other.
* `Checkout.Told`: A difference has a leaf for a file.
* `Checkout.Unchanged`: A file of both sides in which no difference is found.
* `Checkout.SameFolders`: One id stands for one folder.

## Theorems

* `mem_folders_of_lookup`, `mem_subtrees`: A folder that names lead to is among all folders of the tree.
* `sameFolders_of_subtrees`: For folders to be known by their ids it is enough to look at all of them.
* `SameFolders.find?_append`: One folder at both sides leads to the same entries.
* `member_of_hasFile`: What leads to a file is listed.
* `find?_of_member`, `member_blob_iff`: What is listed stands for an entry, and a file for a file.
* `hasLeaf_of_whole`: A tree of one side has a leaf for every file of that side.
* `unchanged_of_not_differs`: Members that do not differ lead to files that do not differ.
* `told_of_flat`: A difference that has no members is a leaf.
* `told_or_unchanged`: A difference has a leaf for every file of either side that is not unchanged.
-/

namespace ThreeWay

open ThreeWay.Path Scanner

/-- A file of a tree. -/
def Tree.HasFile (t : Tree) (names : List Bytes) (leaf : Leaf) : Prop :=
  t.find? names = some (.leaf leaf) ∧ leaf.mode.isFile = true

/-- A folder of a tree. -/
def Tree.HasFolder (t : Tree) (names : List Bytes) : Prop :=
  ∃ id members, t.find? names = some (.folder id members)

/-- The root of a tree is no file. -/
theorem Tree.HasFile.ne_nil {t : Tree} {names : List Bytes} {leaf : Leaf} (h : t.HasFile names leaf) :
    names ≠ [] := by
  rintro rfl
  cases h.1

theorem Tree.HasFile.isName {t : Tree} {names : List Bytes} {leaf : Leaf} (h : t.HasFile names leaf)
    (ht : t.WellNamed) : ∀ name ∈ names, IsName name :=
  fun name hm => ((ht.of_find? h.1).1 name hm).1

/-- A folder at the end of a chain of names is among the folders of a forest. -/
theorem Tree.mem_folders_of_lookup {f : Forest Leaf ObjectId} {names : List Bytes} {id : ObjectId}
    {members : Forest Leaf ObjectId} (h : f.lookup names = some (.folder id members)) :
    ⟨id, members⟩ ∈ folders f := by
  -- Member by member, and into the folders, as all folders are collected.
  induction f using Forest.cons_induction generalizing names with
  | nil => exact absurd h Forest.not_lookup_nil
  | cons name entry rest below ih =>
      cases names with
      | nil => cases h
      | cons first more =>
          by_cases hn : first = name
          · rw [hn, Forest.lookup_cons_self, Forest.Entry.lookup_eq_some_iff] at h
            cases entry with
            | leaf leaf =>
                rcases h with ⟨_, he⟩ | h
                · cases he
                · exact absurd h Forest.not_lookup_nil
            | folder value inner =>
                rw [Forest.cons, folders, List.cons_append, List.mem_cons, List.mem_append]
                rcases h with ⟨_, he⟩ | h
                · cases he
                  exact Or.inl rfl
                · exact Or.inr (Or.inl (below h))
          · rw [Forest.lookup_cons_of_ne hn] at h
            cases entry with
            | leaf leaf => exact ih h
            | folder value inner =>
                rw [Forest.cons, folders]
                exact List.mem_append_right _ (ih h)

/-- A folder that a tree leads to is among its subtrees. -/
theorem Tree.mem_subtrees {t : Tree} {names : List Bytes} {id : ObjectId}
    {members : Forest Leaf ObjectId} (h : t.find? names = some (.folder id members)) :
    ⟨id, members⟩ ∈ t.subtrees := by
  rw [subtrees, List.mem_cons]
  rcases Forest.Entry.lookup_eq_some_iff.mp h with ⟨_, he⟩ | hl
  · cases he
    exact Or.inl rfl
  · exact Or.inr (mem_folders_of_lookup hl)

namespace Checkout

/-- A file on one side and a folder on the other. -/
def Swapped (left right : Tree) (names : List Bytes) : Prop :=
  (∃ leaf, left.HasFile names leaf ∧ right.HasFolder names) ∨
    ∃ leaf, right.HasFile names leaf ∧ left.HasFolder names

/-- One of two trees has a file. -/
def OneHasFile (left right : Tree) (names : List Bytes) : Prop :=
  (∃ leaf, left.HasFile names leaf) ∨ ∃ leaf, right.HasFile names leaf

theorem Swapped.ne_nil {left right : Tree} {names : List Bytes} (h : Swapped left right names) :
    names ≠ [] := by
  rcases h with ⟨_, h, _⟩ | ⟨_, h, _⟩
  · exact h.ne_nil
  · exact h.ne_nil

/-- A difference has a leaf for a file: at its path, or above it where a file meets a folder. -/
def Told (left right : Tree) (names : List Bytes) (node : DiffNode) : Prop :=
  ∃ front, front <+: names ∧ node.HasLeaf (pathOf front) ∧ (front = names ∨ Swapped left right front)

theorem Told.of_child {left right : Tree} {names : List Bytes} {node child : DiffNode}
    (h : child ∈ node.children) (told : Told left right names child) :
    Told left right names node := by
  rcases told with ⟨front, hfront, hleaf, hswap⟩
  exact ⟨front, hfront, hleaf.of_child h, hswap⟩

/-- Both revisions have a file, and a comparison does not find that the two differ. -/
def Unchanged (cmp : Comparator) (specL specR : String) (left right : Tree) (names : List Bytes) : Prop :=
  ∃ a b, left.HasFile names a ∧ right.HasFile names b ∧
    cmp.equal (some (.blob (fileAt specL names a.id))) (some (.blob (fileAt specR names b.id))) ≠
      .ok false

/-- Files with one id at one path are alike, whichever revisions they are read from. -/
theorem alike_fileAt (c : Checkout) (byteCompare : Bool) (specL specR : String) (names : List Bytes)
    (id : ObjectId) :
    Comparator.Alike ⟨c.store, byteCompare⟩ (fileAt specL names id) (fileAt specR names id) :=
  ⟨rfl, rfl, rfl⟩

/-- Folders with one id stand for the same members, within one tree and across two. -/
def SameFolders (left right : Tree) : Prop :=
  ∀ xs ys id ms ns, left.find? xs = some (.folder id ms) → right.find? ys = some (.folder id ns) →
    ms = ns

/-- It is enough to look at all folders. -/
theorem sameFolders_of_subtrees {left right : Tree}
    (h : ∀ x ∈ left.subtrees, ∀ y ∈ right.subtrees, x.id = y.id → x.members = y.members) :
    SameFolders left right :=
  fun _ _ _ _ _ hx hy => h _ (Tree.mem_subtrees hx) _ (Tree.mem_subtrees hy) rfl

/-- One folder that stands at both sides leads to the same entries. -/
theorem SameFolders.find?_append {left right : Tree} (same : SameFolders left right) {above : List Bytes}
    {id : ObjectId} {ms ns : Forest Leaf ObjectId} (hl : left.find? above = some (.folder id ms))
    (hr : right.find? above = some (.folder id ns)) (more : List Bytes) :
    left.find? (above ++ more) = right.find? (above ++ more) := by
  have hmembers := same _ _ _ _ _ hl hr
  rw [← hmembers] at hr
  rw [Tree.find?] at hl hr ⊢
  rw [Tree.find?, Forest.Entry.lookup_append, Forest.Entry.lookup_append, hl, hr]

/-- Folders with one tree id have one id. -/
theorem id_of_treeId {x y : ObjectId} (h : TreeId.mk x.hex = ⟨y.hex⟩) : x = y := by
  rw [TreeId.mk.injEq] at h
  rw [← ObjectId.mk.injEq] at h
  exact h

variable {c : Checkout} {spec : String} {t : Tree} {above more : List Bytes}

/-- Only a folder leads further down. -/
theorem eq_nil_of_hasFile {leaf other : Leaf} (h : t.HasFile (above ++ more) leaf)
    (hf : t.find? above = some (.leaf other)) : more = [] ∧ other = leaf := by
  have hl := h.1
  rw [Tree.find?] at hl hf
  rw [Forest.Entry.lookup_append, hf, Option.bind_some] at hl
  cases more with
  | nil =>
      cases hl
      exact ⟨rfl, rfl⟩
  | cons _ _ => cases hl

/-- What leads to a file is listed: as that file, or as a folder. -/
theorem member_of_hasFile {leaf : Leaf} (h : t.HasFile (above ++ more) leaf) :
    (more = [] ∧ member spec t above = some (.blob (fileAt spec above leaf.id))) ∨
    (more ≠ [] ∧ ∃ id members, t.find? above = some (.folder id members) ∧
      member spec t above = some (.ofFolder (folderAt spec above id))) := by
  have hf := h.1
  rw [Tree.find?, Forest.Entry.lookup_append] at hf
  rcases Option.bind_eq_some_iff.mp hf with ⟨entry, he, hrest⟩
  have hentry : t.find? above = some entry := he
  -- The names that are left tell which it is: none at a file, and at least one at a folder.
  cases entry with
  | leaf other =>
      rcases eq_nil_of_hasFile h hentry with ⟨rfl, rfl⟩
      rw [List.append_nil] at h
      left
      rw [member, hentry, Option.bind_some, memberOf, if_pos h.2]
      exact ⟨rfl, rfl⟩
  | folder id members =>
      right
      refine ⟨?_, id, members, hentry, ?_⟩
      · rintro rfl
        cases hrest
      · rw [member, hentry, Option.bind_some, memberOf]

/-- What leads to a file is listed. -/
theorem exists_member_of_hasFile {leaf : Leaf} (h : t.HasFile (above ++ more) leaf) :
    ∃ v, member spec t above = some v := by
  rcases member_of_hasFile h with ⟨_, hm⟩ | ⟨_, _, _, _, hm⟩
  · exact ⟨_, hm⟩
  · exact ⟨_, hm⟩

theorem not_hasFile_of_member (hm : member spec t above = none) {leaf : Leaf} :
    ¬ t.HasFile (above ++ more) leaf := by
  intro h
  rcases @exists_member_of_hasFile spec t above more leaf h with ⟨_, hv⟩
  rw [hm] at hv
  cases hv

/-- A name that leads nowhere is the name of no member. -/
theorem name_ne_of_member {start : Commit} (ht : start.tree.WellNamed) {id : ObjectId}
    {members : Forest Leaf ObjectId} (hf : start.tree.find? above = some (.folder id members))
    {name : Bytes} (hm : member spec start.tree (above ++ [name]) = none) {w : Variant}
    (hw : Utf8.encode w.name = name) :
    ∀ v ∈ membersOf spec above members, v.name ≠ w.name := by
  intro v hv hname
  have hlisted := member_of_mem ht hf hv
  rw [hname, hw, hm] at hlisted
  cases hlisted

/-- A member stands for an entry. -/
theorem find?_of_member {v : Variant} (h : member spec t above = some v) :
    (∃ leaf, t.HasFile above leaf ∧ v = .blob (fileAt spec above leaf.id)) ∨
      ∃ id members, t.find? above = some (.folder id members) ∧
        v = .ofFolder (folderAt spec above id) := by
  rcases Option.bind_eq_some_iff.mp h with ⟨entry, he, hm⟩
  -- A submodule is not listed, so a leaf that is listed is a file.
  cases entry with
  | leaf leaf =>
      rw [memberOf] at hm
      split_ifs at hm with hfile
      exact Or.inl ⟨leaf, ⟨he, hfile⟩, (Option.some.inj hm).symm⟩
  | folder id members => exact Or.inr ⟨id, members, he, (Option.some.inj hm).symm⟩

/-- A file is listed exactly where the tree has one. -/
theorem member_blob_iff {b : Blob} : member spec t above = some (.blob b) ↔
    ∃ leaf, t.HasFile above leaf ∧ b = fileAt spec above leaf.id := by
  constructor
  · intro hb
    rcases find?_of_member hb with ⟨leaf, hfile, he⟩ | ⟨_, _, _, he⟩
    · exact ⟨leaf, hfile, Variant.blob.inj he⟩
    · cases he
  · rintro ⟨leaf, hfile, rfl⟩
    rw [member, hfile.1, Option.bind_some, memberOf, if_pos hfile.2]

section

variable {start : Commit} (hspec : c.repository.resolveCommit spec = .ok (some start))
  (ht : start.tree.WellNamed)

include hspec ht

/-- A tree of one side has a leaf for every file of that side. -/
theorem hasLeaf_of_whole {kind : DiffKind} {v : Variant} {node : DiffNode} {leaf : Leaf}
    (hv : member spec start.tree above = some v) (whole : Whole c.store kind v node)
    (hfile : start.tree.HasFile (above ++ more) leaf) : node.HasLeaf (pathOf (above ++ more)) := by
  -- Along the names of the file: each name but the last leads to a folder, whose node has a child for
  -- every member.
  induction more generalizing above v node with
  | nil =>
      rcases member_of_hasFile hfile with ⟨_, hm⟩ | ⟨hne, _⟩
      · rw [hv] at hm
        rw [Option.some.inj hm] at whole
        rw [List.append_nil]
        cases whole with
        | blob b => exact ⟨_, Or.inl rfl, by cases kind <;> rfl, by cases kind <;> rfl⟩
      · exact absurd rfl hne
  | cons name more ih =>
      have hsplit : above ++ name :: more = (above ++ [name]) ++ more := by
        rw [List.append_assoc]
        rfl
      rcases member_of_hasFile hfile with ⟨hnil, _⟩ | ⟨_, id, members, hf, hm⟩
      · exact absurd hnil (List.cons_ne_nil _ _)
      rw [hv] at hm
      rw [Option.some.inj hm] at whole
      rw [hsplit] at hfile ⊢
      rcases exists_member_of_hasFile hfile with ⟨w, hw⟩
      cases whole with
      | tree _ _ found children listed below =>
          have hfound := Except.ok.inj ((listed_folderAt hspec ht hf).symm.trans listed)
          rw [← hfound] at below
          rcases below.exists_mem_of_mem_left (mem_of_member ht hf hw).1 with ⟨child, hc, hwhole⟩
          have hchildren : child ∈ (Differ.oneSided (.tree (folderAt spec above id) none) kind
              children).children := by
            cases kind <;> exact hc
          exact (ih hw hwhole hfile).of_child hchildren

end

section

variable {specL specR : String} {startL startR : Commit}
  (hspecL : c.repository.resolveCommit specL = .ok (some startL)) (htL : startL.tree.WellNamed)
  (hspecR : c.repository.resolveCommit specR = .ok (some startR)) (htR : startR.tree.WellNamed)
  (same : SameFolders startL.tree startR.tree)

include same in
/-- Members that do not differ lead to files that do not differ. -/
theorem unchanged_of_not_differs {byteCompare : Bool} {v w : Variant}
    (hv : member specL startL.tree above = some v) (hw : member specR startR.tree above = some w)
    (alike : ¬ Differs ⟨c.store, byteCompare⟩ v w)
    (hfile : OneHasFile startL.tree startR.tree (above ++ more)) :
    Unchanged ⟨c.store, byteCompare⟩ specL specR startL.tree startR.tree (above ++ more) := by
  rcases find?_of_member hv with ⟨a, ha, rfl⟩ | ⟨idL, ms, hfL, rfl⟩
  · rcases find?_of_member hw with ⟨b, hb, rfl⟩ | ⟨idR, ns, hfR, rfl⟩
    · have hnil : more = [] := by
        rcases hfile with ⟨_, h⟩ | ⟨_, h⟩
        · exact (eq_nil_of_hasFile h ha.1).1
        · exact (eq_nil_of_hasFile h hb.1).1
      rw [hnil, List.append_nil]
      exact ⟨a, b, ha, hb, fun hu => alike (.contents _ _ hu)⟩
    · exact absurd (Differs.kinds _ _ Bool.noConfusion) alike
  · rcases find?_of_member hw with ⟨b, hb, rfl⟩ | ⟨idR, ns, hfR, rfl⟩
    · exact absurd (Differs.kinds _ _ Bool.noConfusion) alike
    · -- Two folders that do not differ have one id.
      have hid : idL = idR := by
        by_contra hne
        exact alike (.ids _ _ _ _ _ _ rfl rfl fun he => hne (id_of_treeId he))
      rw [← hid] at hfR
      -- One folder stands at both sides, so what its names lead to is one file.
      have hboth := same.find?_append hfL hfR more
      have hfiles : ∃ leaf, startL.tree.HasFile (above ++ more) leaf ∧
          startR.tree.HasFile (above ++ more) leaf := by
        rcases hfile with ⟨leaf, h⟩ | ⟨leaf, h⟩
        · exact ⟨leaf, h, hboth ▸ h.1, h.2⟩
        · exact ⟨leaf, ⟨hboth ▸ h.1, h.2⟩, h⟩
      rcases hfiles with ⟨leaf, hl, hr⟩
      exact ⟨leaf, leaf, hl, hr,
        (alike_fileAt c byteCompare specL specR (above ++ more) leaf.id).not_unequal rfl⟩

/-- Where one of two members is a file, their difference is a leaf, and no file is passed by. -/
theorem told_of_flat {v w : Variant} (hv : member specL startL.tree above = some v)
    (hw : member specR startR.tree above = some w) (flat : ¬ (v.isTree ∧ w.isTree))
    (hfile : OneHasFile startL.tree startR.tree (above ++ more)) :
    Told startL.tree startR.tree (above ++ more) (.make (some v) (some w) .change []) := by
  have hpath : v.detach.path = pathOf above := by
    rcases Option.bind_eq_some_iff.mp hv with ⟨_, _, hm⟩
    rw [Differ.detach_path, (sides_of_memberOf hm).2.1]
  refine ⟨above, List.prefix_append above more,
    ⟨_, Or.inl rfl, rfl, congrArg some hpath⟩, ?_⟩
  rcases find?_of_member hv with ⟨a, ha, rfl⟩ | ⟨_, _, hfL, rfl⟩
  · rcases find?_of_member hw with ⟨b, hb, rfl⟩ | ⟨_, _, hfR, rfl⟩
    · left
      rcases hfile with ⟨_, h⟩ | ⟨_, h⟩
      · rw [(eq_nil_of_hasFile h ha.1).1, List.append_nil]
      · rw [(eq_nil_of_hasFile h hb.1).1, List.append_nil]
    · exact Or.inr (Or.inl ⟨a, ha, _, _, hfR⟩)
  · rcases find?_of_member hw with ⟨b, hb, rfl⟩ | ⟨_, _, hfR, rfl⟩
    · exact Or.inr (Or.inr ⟨b, hb, _, _, hfL⟩)
    · exact absurd ⟨rfl, rfl⟩ flat

include hspecL htL hspecR htR same

/-- A difference has a leaf for a file of either side, unless the file is unchanged. -/
theorem told_or_unchanged {byteCompare : Bool} {v w : Variant} {node : DiffNode}
    (hv : member specL startL.tree above = some v) (hw : member specR startR.tree above = some w)
    (hdiff : IsDifference ⟨c.store, byteCompare⟩ v w node)
    (hfile : OneHasFile startL.tree startR.tree (above ++ more)) :
    Told startL.tree startR.tree (above ++ more) node ∨
      Unchanged ⟨c.store, byteCompare⟩ specL specR startL.tree startR.tree (above ++ more) := by
  -- Along the names of the file, as long as both sides have a folder. The law of the difference says what
  -- stands under the next name.
  induction more generalizing above v w node with
  | nil =>
      cases hdiff with
      | leaf _ _ flat => exact Or.inl (told_of_flat hv hw flat hfile)
      | folders f g fs gs =>
          -- No file stands where both sides have a folder.
          exfalso
          rw [List.append_nil] at hfile
          rcases hfile with ⟨leaf, h⟩ | ⟨leaf, h⟩
          · rw [member, h.1, Option.bind_some, memberOf, if_pos h.2] at hv
            cases hv
          · rw [member, h.1, Option.bind_some, memberOf, if_pos h.2] at hw
            cases hw
  | cons name more ih =>
      cases hdiff with
      | leaf _ _ flat => exact Or.inl (told_of_flat hv hw flat hfile)
      | folders f g fs gs ls rs children below left right _ additions deletions changes nested =>
          rcases find?_of_member hv with ⟨_, _, he⟩ | ⟨idL, ms, hfL, he⟩
          · cases he
          rcases find?_of_member hw with ⟨_, _, he'⟩ | ⟨idR, ns, hfR, he'⟩
          · cases he'
          rw [Variant.ofFolder, Variant.tree.injEq] at he he'
          rcases he with ⟨rfl, rfl⟩
          rcases he' with ⟨rfl, rfl⟩
          have hls := Except.ok.inj ((listed_folderAt hspecL htL hfL).symm.trans left)
          have hrs := Except.ok.inj ((listed_folderAt hspecR htR hfR).symm.trans right)
          rw [← hls] at additions deletions changes nested
          rw [← hrs] at additions deletions changes nested
          have hsplit : above ++ name :: more = (above ++ [name]) ++ more := by
            rw [List.append_assoc]
            rfl
          rw [hsplit] at hfile ⊢
          cases hl : member specL startL.tree (above ++ [name]) with
          | none =>
              -- The left side ends here, so the file is one of the right side, which is told whole.
              have hfileR : ∃ leaf, startR.tree.HasFile ((above ++ [name]) ++ more) leaf :=
                hfile.resolve_left (not_exists.mpr fun leaf => not_hasFile_of_member hl)
              rcases hfileR with ⟨leaf, hleaf⟩
              rcases exists_member_of_hasFile hleaf with ⟨w', hw'⟩
              have hmem := mem_of_member htR hfR hw'
              have halone := name_ne_of_member htL hfL hl hmem.2
              rcases deletions w' hmem.1 halone with ⟨child, hc, whole⟩
              have hchild := hasLeaf_of_whole hspecR htR hw' whole hleaf
              exact Or.inl ⟨_, List.prefix_rfl, hchild.of_child hc, Or.inl rfl⟩
          | some v' =>
              have hmemL := mem_of_member htL hfL hl
              cases hr : member specR startR.tree (above ++ [name]) with
              | none =>
                  -- The right side ends here.
                  have hfileL : ∃ leaf, startL.tree.HasFile ((above ++ [name]) ++ more) leaf :=
                    hfile.resolve_right (not_exists.mpr fun leaf => not_hasFile_of_member hr)
                  rcases hfileL with ⟨leaf, hleaf⟩
                  have halone := name_ne_of_member htR hfR hr hmemL.2
                  rcases additions v' hmemL.1 halone with ⟨child, hc, whole⟩
                  have hchild := hasLeaf_of_whole hspecL htL hl whole hleaf
                  exact Or.inl ⟨_, List.prefix_rfl, hchild.of_child hc, Or.inl rfl⟩
              | some w' =>
                  -- Both sides go on. A pair that does not differ has no node, and then nothing below it
                  -- has changed.
                  have hmemR := mem_of_member htR hfR hr
                  have hname : v'.name = w'.name :=
                    Utf8.encode_injective (hmemL.2.trans hmemR.2.symm)
                  by_cases differs : Differs ⟨c.store, byteCompare⟩ v' w'
                  · have hc := changes v' hmemL.1 w' hmemR.1 hname differs
                    have hnested := nested v' hmemL.1 w' hmemR.1 hname differs
                    exact (ih hl hr hnested hfile).imp (Told.of_child hc) id
                  · exact Or.inr (unchanged_of_not_differs same hl hr differs hfile)

end

end Checkout

end ThreeWay
