import ThreeWay.Proofs.Checkout.Shown
import ThreeWay.Proofs.Pristine

/-!
# What the Index Holds Is Listed

Ignore rules are for what is not tracked yet. So a working tree is listed with every file that the index has an
entry for, of whichever stage, even where the rules leave out the file itself or a folder on the way to it. What
is ignored is listed for no other reason: something is tracked there, or it is the rule file, which is always
reported.

The listing of a folder asks what is tracked at and below that folder, name by name, and nothing is handed down.
That the file is reached in the end is an induction on its chain of names, since each of its folders has
something tracked below it: the file.

Listings can fail, at a link that leads to no file or a folder that lies too deep for the system. Without links
and without such folders none of them does.

The proof has little to do with listings. What a listing shows is known place by place from `Checkout.shownOf`,
and that a place is shown depends on its own chain of names. For a tracked file every link of the chain is
tracked, so the place is shown, and a hierarchy of listings then reaches it and nothing twice.

## Theorems

* `exists_workingMember`: Without links every member of a folder has an answer.
* `exists_listed`: Without links all listings succeed.
* `find_of_tracked`: A tracked file is shown at its place.
* `tracked_is_listed`: Where all listings succeed, the tracked files are listed, and nothing ignored is beside them.
* `tracked_is_listed_sparing`: A file in an ignored folder, tracked by one side of a merge.
-/

namespace ThreeWay

open ThreeWay.Path Scanner

namespace Checkout

variable {c : Checkout} {members : Forest FileEntry Unit}

section

variable (tree : c.disk.IsWorkingTree c.root members)
  (short : ∀ names below, members.lookup names = some (.folder () below) →
    (c.root.join (pathOf names).toRaw).bytes.length < Disk.pathLimit)

include tree

/-- Without links every member of a folder has an answer. -/
theorem exists_workingMember {above : List Bytes} {name : Bytes} {entry : DiskEntry}
    (hl : members.lookup (above ++ [name]) = some entry) :
    ∃ member, c.workingMember (c.trackedPaths (pathOf above)) (pathOf above) (c.fileOf (pathOf above)) name
      entry = .ok member := by
  have hnames := (tree.named.of_lookup hl).1
  have hall : ∀ n ∈ above ++ [name], IsName n := fun n hm => (hnames n hm).1
  have ha : ∀ n ∈ above, IsName n := fun n hm => hall n (List.mem_append_left _ hm)
  have hn : IsName name := hall name (List.mem_append_right _ List.mem_cons_self)
  have hfile := join_fileOf c ha hn
  have rules := Ignore.exists_isIgnored c.disk c.root (fun n hm => ⟨(hnames n hm).1, (hnames n hm).2.1⟩)
  have hentry := (Forest.Entry.lookup_folder () members
    (List.append_ne_nil_of_right_ne_nil above (List.cons_ne_nil name []))).trans hl
  rcases hn with ⟨text, rfl, plain⟩
  have hpath := @join_pathOf above ha text ⟨text, rfl, plain⟩
  -- The rules have an answer about every ordinary name, so it is never the rules that fail.
  have hidden : ∃ answer, c.isHidden (c.trackedPaths (pathOf above)) (pathOf (above ++ [Utf8.encode text]))
      entry.isFolder = .ok answer := by
    rcases rules entry.isFolder with ⟨verdict, hverdict⟩
    rw [isHidden, hverdict]
    split_ifs
    · exact ⟨_, rfl⟩
    · exact ⟨_, rfl⟩
  simp only [workingMember, Utf8.decode?_encode, hpath, hfile]
  split_ifs
  · exact ⟨_, rfl⟩
  · rcases hidden with ⟨_ | _, hidden⟩
    · rw [hidden, Run.ok_bind, if_neg Bool.false_ne_true]
      cases entry with
      | folder value below => exact ⟨_, rfl⟩
      | leaf value =>
          -- A leaf is a regular file here, and its content can be read and hashed.
          rcases blobId_fileOf_eq tree hentry with ⟨content, executable, rfl, hid⟩
          simp only [hid]
          exact ⟨_, rfl⟩
    · rw [hidden]
      exact ⟨_, rfl⟩

include short

/-- Without links, and without folders that lie too deep, all listings succeed. -/
theorem exists_listed {f : Folder} {ms : Option (List Variant)}
    (h : c.store.Reaches (.ofFolder (.at .root .workingTree)) (.tree f ms)) :
    ∃ found, c.store.listed f ms = .ok found := by
  -- A folder that is reached is a folder of the disk, and its members are those of the disk.
  rcases shown_of_reaches tree.holdsTree.holdsFolder h with ⟨above, entry, hl, hv⟩
  rcases cases_of_shownOf hv with ⟨_, ⟨below, rfl, hf⟩ | ⟨_, _, _, hblob⟩⟩
  · cases hf
    have hstat := stat_fileOf_of_short tree hl fun hne =>
      short above below ((Forest.Entry.lookup_folder () members hne).symm.trans hl)
    have hlist : c.disk.list (c.fileOf (pathOf above)) = .ok below := by
      rw [Disk.list, hstat]
      rfl
    -- The listing is a traversal of the members, each with an answer of its own.
    have answers : ∀ e ∈ below.entries, ∃ member, c.workingMember (c.trackedPaths (pathOf above))
        (pathOf above) (c.fileOf (pathOf above)) e.1 e.2 = .ok member ∧ True := by
      rintro ⟨name, entry⟩ he
      have hentry := (Forest.mem_entries_iff_lookup tree.distinct hl).mp he
      rw [Forest.Entry.lookup_folder () members
        (List.append_ne_nil_of_right_ne_nil _ (List.cons_ne_nil _ _))] at hentry
      rcases exists_workingMember tree hentry with ⟨member, hm⟩
      exact ⟨member, hm, trivial⟩
    rcases List.exists_mapM_eq_ok answers with ⟨members', hmembers, _⟩
    rw [listed_at, workingMembers]
    simp only [hlist]
    rw [hmembers]
    exact ⟨_, rfl⟩
  · cases hblob

end

/-- A regular file that the index has an entry for is shown with its content. -/
theorem find_of_tracked (tree : c.disk.HoldsFolder c.root members)
    (listed : ∀ f ms, c.store.Reaches (.ofFolder (.at .root .workingTree)) (.tree f ms) →
      ∃ found, c.store.listed f ms = .ok found) {names : List Bytes} {content : Bytes} {executable : Bool}
    (hl : members.lookup names = some (.leaf (.regular content executable)))
    (outside : Utf8.encode gitFolderName ∉ names) {e : IndexEntry} (he : e ∈ c.repository.index)
    (hpath : e.path = [RawPath.slash].intercalate names) :
    ((Forest.Entry.folder () members : DiskEntry).lookup names).bind (c.shownOf names) =
      some (.blob (.onDisk (pathOf names) content)) := by
  have named : ∀ name ∈ names, IsName name := fun name hm => ((tree.named.of_lookup hl).1 name hm).1
  have hne : names ≠ [] := by
    rintro rfl
    cases hl
  have hnames := (IndexEntry.path_eq_iff named hne).mp hpath
  -- The entry spares every folder on the way, since the file lies below it, and the file itself.
  have shown : c.shows [] names false = true :=
    shows_of_entry he (hnames ▸ named) (hnames ▸ outside) (hnames.trans (List.nil_append names).symm)
  rw [Forest.Entry.lookup_folder () members hne, hl, Option.bind_some]
  exact shownOf_regular tree listed hne shown hl

/-- Where the listings of a working tree succeed, one folder after the other, every regular file that the index
    has an entry for is listed, once and with its content, whatever the ignore rules say. What is listed is not
    named like the repository's folder, and if it is ignored and not the rule file, something is tracked there or
    below. -/
theorem tracked_is_listed (tree : c.disk.HoldsFolder c.root members)
    (listed : ∀ f ms, c.store.Reaches (.ofFolder (.at .root .workingTree)) (.tree f ms) →
      ∃ found, c.store.listed f ms = .ok found) :
    ∃ all, c.store.allBelow (c.depthBound .workingTree) (.ofFolder (.at .root .workingTree)) = .ok all ∧
      (all.map Variant.path).Nodup ∧
      (∀ names content executable, members.lookup names = some (.leaf (.regular content executable)) →
        Utf8.encode gitFolderName ∉ names →
        (∃ e ∈ c.repository.index, e.path = [RawPath.slash].intercalate names) →
        all.filter (·.path = pathOf names) = [.blob (.onDisk (pathOf names) content)]) ∧
      ∀ v ∈ all, v.name ≠ gitFolderName ∧
        (Ignore.isIgnored c.disk c.root v.path v.isTree = .ok true → c.isRuleFile v.path = false →
          c.repository.index.Tracks v.path) := by
  have hierarchy := hierarchy_shown tree listed
  have hroot : ((Forest.Entry.folder () members : DiskEntry).lookup []).bind (c.shownOf []) =
      some (.ofFolder (.at .root .workingTree)) := shownOf_folder rfl () members
  have deep : members.depth < ([] : List Bytes).length + c.depthBound .workingTree := by
    rw [List.length_nil, Nat.zero_add]
    exact depth_lt_depthBound_of_holdsFolder tree
  -- The bound is above the depth of the disk, so all that is shown below the root is collected.
  rcases hierarchy.allBelow hroot deep with ⟨all, hall, distinct, hmem⟩
  refine ⟨all, hall, ?_, ?_, ?_⟩
  · refine hierarchy.nodup_paths distinct fun w hw => ?_
    rcases (hmem w).mp hw with ⟨name, more, hfind⟩
    exact ⟨_, hfind⟩
  · rintro names content executable hl outside ⟨e, he, hpath⟩
    have found := find_of_tracked tree listed hl outside he hpath
    -- The file is found by its names, and another one with its path would have the same names.
    refine hierarchy.filter_path_eq distinct ?_ found (fun w hw => ?_)
    · rcases names with _ | ⟨name, more⟩
      · cases hl
      · exact (hmem _).mpr ⟨name, more, found⟩
    · rcases (hmem w).mp hw with ⟨name, more, hfind⟩
      exact ⟨_, hfind⟩
  · intro v hv
    rcases (hmem v).mp hv with ⟨name, more, hfind⟩
    rcases List.eq_nil_or_concat' ([] ++ name :: more) with hnil | ⟨above, last, hnames⟩
    · cases hnil
    rw [hnames] at hfind
    rcases Option.bind_eq_some_iff.mp hfind with ⟨entry, _, hshown⟩
    -- What is shown passed the test of its own folder, which lets nothing of that name through and nothing ignored
    -- that is not tracked.
    have shown := (cases_of_shownOf hshown).1
    rw [hierarchy.place hfind, isTree_of_shownOf hshown]
    refine ⟨fun hg => ?_, tracks_of_shows shown⟩
    have apart := (passes_eq_false_iff.mp (shows_concat_iff.mp shown).2).1
    exact apart (by rw [← hierarchy.name_eq hfind, hg])

namespace Sample

open Synchronizer.Sample

/-- A checkout whose rules leave out a folder and the file beside it. Of all that is on the disk the index holds
    the file in the folder, as one side of an unfinished merge. -/
def sparing : Checkout where
  disk := ⟨[Utf8.encode "w"], quieted⟩
  root := .ofString "/w"
  repository := {
    objects := []
    index := [⟨Utf8.encode "d/f", 2, .executable, .ofBlob [2]⟩]
    references := []
    head := .detached ⟨"settled"⟩
    log := [] }
  settings := Settings.default

theorem tree_sparing : sparing.disk.IsWorkingTree sparing.root quieted :=
  tree_quieted

theorem ignored_sparing :
    Ignore.isIgnored sparing.disk sparing.root (pathOf [hiddenFolder]) true = .ok true ∧
    Ignore.isIgnored sparing.disk sparing.root (pathOf [hiddenFile]) false = .ok true :=
  ignored_quieted

theorem listed_sparing (f : Folder) (ms : Option (List Variant))
    (h : sparing.store.Reaches (.ofFolder (.at .root .workingTree)) (.tree f ms)) :
    ∃ found, sparing.store.listed f ms = .ok found := by
  refine exists_listed tree_sparing (fun names below hl => ?_) h
  rw [eq_of_folder hl]
  decide +kernel

end Sample

open Checkout.Sample Synchronizer.Sample in
/-- The file in the folder is listed and the one beside it is not. -/
theorem tracked_is_listed_sparing :
    sparing.disk.HoldsFolder sparing.root quieted ∧
    (Ignore.isIgnored sparing.disk sparing.root (pathOf [hiddenFolder]) true = .ok true ∧
      Ignore.isIgnored sparing.disk sparing.root (pathOf [hiddenFile]) false = .ok true) ∧
    ∃ all, sparing.store.allBelow (sparing.depthBound .workingTree)
        (.ofFolder (.at .root .workingTree)) = .ok all ∧
      all.filter (·.path = pathOf [hiddenFolder, hiddenFile]) =
        [.blob (.onDisk (pathOf [hiddenFolder, hiddenFile]) [2])] ∧
      ∀ v ∈ all, v.isTree = false → v.path ≠ pathOf [hiddenFile] := by
  rcases tracked_is_listed tree_sparing.holdsTree.holdsFolder listed_sparing with
    ⟨all, hall, _, tracked, ignored⟩
  refine ⟨tree_sparing.holdsTree.holdsFolder, ignored_sparing, all, hall, ?_, fun v hv kind hpath => ?_⟩
  · exact tracked [hiddenFolder, hiddenFile] [2] true rfl (by decide) ⟨_, List.mem_cons_self, by decide⟩
  -- Were the file beside the folder listed, something would be tracked at its path, and the only entry is elsewhere.
  · have left := ignored_sparing.2
    rw [← kind, ← hpath] at left
    rcases (ignored v hv).2 left (hpath ▸ by decide) with ⟨e, he, below⟩
    cases List.mem_singleton.mp he
    rw [hpath] at below
    exact absurd below (by decide)

end Checkout

end ThreeWay
