import Mathlib.Data.List.Induction
import ThreeWay.Proofs.Checkout.Member
import ThreeWay.Proofs.Checkout.Tracked
import ThreeWay.Proofs.Checkout.Working
import ThreeWay.Proofs.Diff.Reached

/-!
# What Listings of a Working Tree Show

A file is shown by the listings of a working tree if the listing of every folder on the way down passes none
of its names over. Each listing decides by itself, with the ignore rules and with what the index holds at and
below the folder that is listed. So a tracked file in an ignored folder is shown only because the folder is
tracked for its sake, and so is the folder above that one.

Whether the listings can be had at all is another matter. A link that leads to no file cannot be listed, nor a
folder that lies too deep for the system, nor an entry that the rules have no answer for. Where all listings
that are asked for succeed, they make a hierarchy, and what it shows is told by name.

The rules are not interpreted here at all. `Checkout.passes` asks the code whether it hides a name, and everything
is told in terms of that question: it may be answered by a rule or by what is tracked, or have no answer, and then
the listing fails as a whole. So what is proved is independent of how rules are matched.

The two directions of a hierarchy are two inductions. What is shown is reached, along the chain of its names,
since a shown folder is a member of the folder above it. What is reached is shown, along the listings that lead to
it.

## Main definitions

* `Checkout.passes`: Whether the listing of a folder passes an entry over.
* `Checkout.shows`: Whether no listing on the way to an entry passes it over.
* `Checkout.shownOf`: What an entry of the disk is shown as.
* `Index.Tracks`: Whether something is tracked at a path or below it.

## Theorems

* `shows_concat`: A chain is shown if it is up to its last name, and that one is not passed over.
* `cases_of_shownOf`, `shows_shownOf`: What is shown, and that it stands for its entry.
* `workingMember_eq_ok`: A member that has an answer is what is shown.
* `stat_fileOf_or`, `list_fileOf`: What the disk says of a place, and what it lists there.
* `workingMembers_eq`: A listing that succeeds holds what is shown.
* `mem_shownOf_iff`: What a listing holds, by one more name.
* `reaches_of_shown`, `shown_of_reaches`: What is shown is reached, and nothing else.
* `hierarchy_shown`: Where all listings succeed, they are a hierarchy.
* `isHidden_of_isTracked`: What is tracked is not hidden.
* `shownOf_regular`: A regular file that is not passed over is shown with its content.
* `shows_of_entry`: What the index holds is shown.
* `tracks_of_shows`: What is shown although it is ignored is tracked.
-/

namespace ThreeWay

open ThreeWay.Path Scanner

/-- Whether the index has an entry at a path or below it. -/
def Index.Tracks (index : Index) (p : Path) : Prop :=
  ∃ e ∈ index, e.place.startsWith p = true

namespace Checkout

/-- Whether the listing of a folder passes an entry over: the repository's folder, and what is ignored and not
    tracked. -/
def passes (c : Checkout) (above : List Bytes) (name : Bytes) (isFolder : Bool) : Bool :=
  name = Utf8.encode gitFolderName ||
    decide (c.isHidden (c.trackedPaths (pathOf above)) (pathOf (above ++ [name])) isFolder = .ok true)

/-- Whether no listing on the way from a folder to an entry passes it over. -/
def shows (c : Checkout) (above : List Bytes) : List Bytes → Bool → Bool
  | [], _ => true
  | name :: more, isFolder =>
    !c.passes above name (isFolder || !more.isEmpty) && c.shows (above ++ [name]) more isFolder

/-- What an entry of the disk is shown as. -/
def shownOf (c : Checkout) (names : List Bytes) (entry : DiskEntry) : Option Variant :=
  if c.shows [] names entry.isFolder then
    match entry with
    | .folder _ _ => some (.ofFolder (.at (pathOf names) .workingTree))
    | .leaf _ =>
      match c.disk.blobId (c.fileOf (pathOf names)) with
      | .ok id =>
        some (.blob { Blob.at (pathOf names) .workingTree with contentId := some ⟨id.hex⟩ })
      | .error _ => none
  else none

variable {c : Checkout} {names above : List Bytes} {name : Bytes} {isFolder : Bool}

/-- The last name of a chain is passed over or not by the listing of the folder that the others lead to. -/
theorem shows_concat (c : Checkout) (front above : List Bytes) (name : Bytes) (isFolder : Bool) :
    c.shows front (above ++ [name]) isFolder =
      (c.shows front above true && !c.passes (front ++ above) name isFolder) := by
  -- Along the chain from its front, as the function goes.
  induction above generalizing front with
  | nil =>
      simp only [List.nil_append, shows, List.isEmpty_nil, Bool.not_true, Bool.or_false, Bool.and_true,
        Bool.true_and, List.append_nil]
  | cons first above ih =>
      have more : (above ++ [name]).isEmpty = false := by cases above <;> rfl
      rw [List.cons_append, shows, shows, ih, more, List.append_assoc, List.cons_append, List.nil_append,
        Bool.not_false, Bool.or_true, Bool.true_or, Bool.and_assoc]

theorem shows_concat_iff : c.shows [] (above ++ [name]) isFolder = true ↔
    c.shows [] above true = true ∧ c.passes above name isFolder = false := by
  rw [shows_concat, Bool.and_eq_true, Bool.not_eq_true', List.nil_append]

theorem passes_eq_false_iff : c.passes above name isFolder = false ↔
    name ≠ Utf8.encode gitFolderName ∧
      c.isHidden (c.trackedPaths (pathOf above)) (pathOf (above ++ [name])) isFolder ≠ .ok true := by
  rw [passes, Bool.or_eq_false_iff, decide_eq_false_iff_not, decide_eq_false_iff_not]

theorem shownOf_folder (h : c.shows [] names true = true) (value : Unit)
    (below : Forest FileEntry Unit) : c.shownOf names (.folder value below) =
      some (.ofFolder (.at (pathOf names) .workingTree)) :=
  if_pos h

theorem shownOf_leaf (h : c.shows [] names false = true) {id : ObjectId}
    (hid : c.disk.blobId (c.fileOf (pathOf names)) = .ok id) (value : FileEntry) :
    c.shownOf names (.leaf value) =
      some (.blob { Blob.at (pathOf names) .workingTree with contentId := some ⟨id.hex⟩ }) :=
  (if_pos h).trans (by simp only [hid])

theorem shownOf_of_not_shows {entry : DiskEntry} (h : ¬ c.shows [] names entry.isFolder = true) :
    c.shownOf names entry = none :=
  if_neg h

/-- An entry that is shown is passed over nowhere, and it is shown as a folder or as a file. -/
theorem cases_of_shownOf {entry : DiskEntry} {v : Variant} (h : c.shownOf names entry = some v) :
    c.shows [] names entry.isFolder = true ∧
      ((∃ below, entry = .folder () below ∧ v = .ofFolder (.at (pathOf names) .workingTree)) ∨
        ∃ value id, entry = .leaf value ∧
          v = .blob { Blob.at (pathOf names) .workingTree with contentId := some id }) := by
  unfold shownOf at h
  split_ifs at h with hs
  refine ⟨hs, ?_⟩
  cases entry with
  | folder value below => exact Or.inl ⟨below, rfl, (Option.some.inj h).symm⟩
  | leaf value =>
      simp only at h
      -- A file without an id is not shown, although no listing passes it over.
      cases hid : c.disk.blobId (c.fileOf (pathOf names)) with
      | error e =>
          rw [hid] at h
          cases h
      | ok id =>
          rw [hid] at h
          exact Or.inr ⟨value, ⟨id.hex⟩, rfl, (Option.some.inj h).symm⟩

/-- The entries of a disk are shown as what they are listed as. -/
theorem shows_shownOf (c : Checkout) : Shows c.shownOf where
  sides h := by
    rcases cases_of_shownOf h with ⟨_, ⟨_, _, rfl⟩ | ⟨_, _, _, rfl⟩⟩
    · simp only [Variant.ofFolder, Variant.present, Variant.path, Variant.name, Folder.at, and_self]
    · simp only [Variant.present, Variant.path, Variant.name, Blob.at, and_self]
  folder h := by
    rcases cases_of_shownOf h with ⟨_, ⟨below, he, _⟩ | ⟨_, _, _, hv⟩⟩
    · exact ⟨(), below, he⟩
    · cases hv
  above h value below :=
    ⟨_, none, shownOf_folder (shows_concat_iff.mp (cases_of_shownOf h).1).1 value below⟩

/-- Whether a variant is a folder is whether its entry is one. -/
theorem isTree_of_shownOf {entry : DiskEntry} {v : Variant} (h : c.shownOf names entry = some v) :
    v.isTree = entry.isFolder := by
  rcases cases_of_shownOf h with ⟨_, ⟨_, rfl, rfl⟩ | ⟨_, _, rfl, rfl⟩⟩
  · rfl
  · rfl

/-! ### The Listings -/

/-- A member that is not passed over and has an answer is what is shown, under the name that it has. -/
theorem workingMember_eq_ok (ha : ∀ n ∈ above, IsName n) (hn : IsName name) {entry : DiskEntry}
    (shown : c.shows [] above true = true) {member : Option (String × Variant)}
    (h : c.workingMember (c.trackedPaths (pathOf above)) (pathOf above) (c.fileOf (pathOf above)) name
      entry = .ok member) :
    member = (c.shownOf (above ++ [name]) entry).map (fun v => (v.name, v)) ∧
      (c.shows [] (above ++ [name]) entry.isFolder = true → member.isSome = true) := by
  have hfile := join_fileOf c ha hn
  rcases hn with ⟨text, rfl, plain⟩
  have hpath := @join_pathOf above ha text ⟨text, rfl, plain⟩
  have hname : ∀ v, c.shownOf (above ++ [Utf8.encode text]) entry = some v → v.name = text := fun v hv =>
    (c.shows_shownOf.sides hv).2.2.trans (fileName_pathOf ha ⟨text, rfl, plain⟩)
  -- The last listing decides, so a name that it passes over is not shown, and any other one is.
  have passed : c.passes above (Utf8.encode text) entry.isFolder = true →
      ¬ c.shows [] (above ++ [Utf8.encode text]) entry.isFolder = true := fun hp hs =>
    Bool.false_ne_true ((shows_concat_iff.mp hs).2.symm.trans hp)
  have visible : text ≠ gitFolderName →
      c.isHidden (c.trackedPaths (pathOf above)) (pathOf (above ++ [Utf8.encode text])) entry.isFolder =
        .ok false → c.shows [] (above ++ [Utf8.encode text]) entry.isFolder = true := fun free hshows => by
    refine shows_concat_iff.mpr ⟨shown, passes_eq_false_iff.mpr ⟨fun he => free (Utf8.encode_injective he), ?_⟩⟩
    rw [hshows]
    exact fun he => Bool.false_ne_true (Except.ok.inj he)
  -- Each answer is compared with what is shown. A name that is no text cannot occur, since names are ordinary.
  cases answered_of_workingMember h with
  | unreadable _ noText =>
      rw [Utf8.decode?_encode] at noText
      cases noText
  | reserved _ htext =>
      rw [Utf8.decode?_encode] at htext
      cases htext
      have hs := passed (by rw [passes, decide_eq_true rfl, Bool.true_or])
      rw [shownOf_of_not_shows hs]
      exact ⟨rfl, fun hs' => absurd hs' hs⟩
  | hidden _ raw htext hides =>
      rw [Utf8.decode?_encode] at htext
      cases htext
      rw [hpath] at hides
      have hs := passed (by rw [passes, hides, decide_eq_true rfl, Bool.or_true])
      rw [shownOf_of_not_shows hs]
      exact ⟨rfl, fun hs' => absurd hs' hs⟩
  | folder value below raw htext free hshows =>
      rw [Utf8.decode?_encode] at htext
      cases htext
      rw [hpath] at hshows ⊢
      have hshown := shownOf_folder (visible free hshows) value below
      rw [hshown, Option.map_some, hname _ hshown]
      exact ⟨rfl, fun _ => rfl⟩
  | file value raw htext free hshows id hid =>
      rw [Utf8.decode?_encode] at htext
      cases htext
      rw [hpath] at hshows ⊢
      rw [hfile] at hid
      have hshown := shownOf_leaf (visible free hshows) hid value
      rw [hshown, Option.map_some, hname _ hshown]
      exact ⟨rfl, fun _ => rfl⟩

section

variable {members below : Forest FileEntry Unit} (tree : c.disk.HoldsFolder c.root members)

include tree

/-- What stands at the end of a chain of names is found by its path, or nothing is. -/
theorem stat_fileOf_or {entry : DiskEntry}
    (hl : (Forest.Entry.folder () members : DiskEntry).lookup names = some entry)
    (direct : ∀ target, entry ≠ .leaf (.link target)) :
    c.disk.stat (c.fileOf (pathOf names)) = .error .nameTooLong ∨
      c.disk.stat (c.fileOf (pathOf names)) = .ok entry := by
  -- The path may be too long for the system, and nothing else can go wrong.
  rw [stat_fileOf_eq tree hl direct]
  split_ifs
  · exact Or.inl rfl
  · exact Or.inr rfl

/-- A folder that can be listed is listed with what stands there. -/
theorem list_fileOf {listed : Forest FileEntry Unit}
    (hf : (Forest.Entry.folder () members : DiskEntry).lookup above = some (.folder () below))
    (h : c.disk.list (c.fileOf (pathOf above)) = .ok listed) : listed = below := by
  rw [Disk.list] at h
  rcases stat_fileOf_or tree hf (fun _ he => by cases he) with hs | hs
  · rw [hs] at h
    cases h
  · rw [hs] at h
    exact (Except.ok.inj h).symm

/-- A regular file that is shown is shown with its content. -/
theorem eq_of_shownOf_regular {content : Bytes} {executable : Bool} {v : Variant}
    (hl : (Forest.Entry.folder () members : DiskEntry).lookup names =
      some (.leaf (.regular content executable)))
    (hv : c.shownOf names (.leaf (.regular content executable)) = some v) :
    v = .blob (.onDisk (pathOf names) content) := by
  rw [shownOf] at hv
  split_ifs at hv
  rcases stat_fileOf_or tree hl (fun _ he => by cases he) with hs | hs
  · simp only [Disk.blobId, Disk.read, hs] at hv
    cases hv
  · simp only [Disk.blobId, read_file hs] at hv
    exact (Option.some.inj hv).symm

/-- A listing that succeeds holds what is shown, and everything that is not passed over is shown. -/
theorem workingMembers_eq {found : List Variant}
    (hf : (Forest.Entry.folder () members : DiskEntry).lookup above = some (.folder () below))
    (shown : c.shows [] above true = true)
    (h : c.store.listed (.at (pathOf above) .workingTree) none = .ok found) :
    found = ascending Variant.name (below.entries.filterMap fun e => c.shownOf (above ++ [e.1]) e.2) ∧
      ∀ e ∈ below.entries, c.shows [] (above ++ [e.1]) e.2.isFolder = true →
        (c.shownOf (above ++ [e.1]) e.2).isSome = true := by
  have hnames := tree.named.of_lookup_folder hf
  -- Member by member, what the listing answers is what is shown.
  have hmember : ∀ e ∈ below.entries, ∀ member, c.workingMember (c.trackedPaths (pathOf above))
      (pathOf above) (c.fileOf (pathOf above)) e.1 e.2 = .ok member →
      member = (c.shownOf (above ++ [e.1]) e.2).map (fun v => (v.name, v)) ∧
        (c.shows [] (above ++ [e.1]) e.2.isFolder = true → member.isSome = true) :=
    fun e he member => workingMember_eq_ok (fun n hm => (hnames.1 n hm).1)
      (hnames.2.of_mem_firstNames (List.mem_map_of_mem he)).1 shown
  rw [listed_at, workingMembers] at h
  cases hlist : c.disk.list (c.fileOf (pathOf above)) with
  | error fault =>
      rw [hlist] at h
      cases h
  | ok listed =>
      rw [hlist] at h
      cases list_fileOf tree hf hlist
      rcases Run.bind_eq_ok h with ⟨answers, hanswers, h⟩
      have each := List.forall₂_of_mapM_eq_ok hanswers
      cases h
      refine ⟨?_, fun e he hs => ?_⟩
      -- The answers are the members that are shown, each under its own name, so sorting by the names read is sorting
      -- by the names of the members.
      · have hmap : answers =
            below.entries.map fun e => (c.shownOf (above ++ [e.1]) e.2).map fun v => (v.name, v) :=
          List.eq_map_of_forall₂ (each.imp_of_mem fun e he member hm => (hmember e he member hm).1)
        rw [hmap, List.filterMap_map, ← map_snd_ascending Variant.name, List.map_filterMap]
        rfl
      · rcases each.exists_mem_of_mem_left he with ⟨member, _, hm⟩
        have hw := hmember e he member hm
        have hsome := hw.2 hs
        rwa [hw.1, Option.isSome_map] at hsome

/-- What a listing holds are the entries that one more name leads to and that are shown. -/
theorem mem_shownOf_iff (hf : (Forest.Entry.folder () members : DiskEntry).lookup above = some (.folder () below))
    {v : Variant} :
    v ∈ ascending Variant.name (below.entries.filterMap fun e => c.shownOf (above ++ [e.1]) e.2) ↔
      ∃ name entry, (Forest.Entry.folder () members : DiskEntry).lookup (above ++ [name]) = some entry ∧
        c.shownOf (above ++ [name]) entry = some v :=
  c.shows_shownOf.mem_iff (tree.named.imp fun _ hn => hn.1) tree.distinct hf

/-! ### The Hierarchy -/

section

variable (listed : ∀ f ms,
  c.store.Reaches (.ofFolder (.at .root .workingTree)) (.tree f ms) → ∃ found, c.store.listed f ms = .ok found)

include listed

/-- Every folder that is shown is reached from the root. -/
theorem reaches_of_shown {value : Unit} {f : Folder} {ms : Option (List Variant)}
    (hf : (Forest.Entry.folder () members : DiskEntry).lookup above = some (.folder value below))
    (hv : c.shownOf above (.folder value below) = some (.tree f ms)) :
    c.store.Reaches (.ofFolder (.at .root .workingTree)) (.tree f ms) := by
  -- From the end of the chain: the folder above is shown and reached, and its listing holds this one.
  induction above using List.reverseRecOn generalizing value below f ms with
  | nil =>
      rw [shownOf_folder rfl] at hv
      cases hv
      exact .start
  | append_singleton above name ih =>
      rcases Forest.Entry.folder_of_lookup_concat hf with ⟨_, upper, hupper⟩
      have shown := (shows_concat_iff.mp (cases_of_shownOf hv).1).1
      have hroot := shownOf_folder shown () upper
      have reached := ih hupper hroot
      rcases listed _ _ reached with ⟨found, hfound⟩
      have hmem := (workingMembers_eq tree hupper shown hfound).1
      refine .member _ _ found _ reached hfound ?_
      rw [hmem, mem_shownOf_iff tree hupper]
      exact ⟨name, _, hf, hv⟩

/-- Where all listings succeed, they are a hierarchy. -/
theorem hierarchy_shown : Hierarchy c.store members.depth fun names =>
    ((Forest.Entry.folder () members : DiskEntry).lookup names).bind (c.shownOf names) := by
  refine c.shows_shownOf.hierarchy (tree.named.imp fun _ hn => hn.1) tree.distinct ?_
  -- A folder that is shown is reached, and what is reached can be listed.
  intro above value below f ms hf hv
  rcases listed f ms (reaches_of_shown tree listed hf hv) with ⟨found, hfound⟩
  rcases cases_of_shownOf hv with ⟨shown, ⟨_, _, hfolder⟩ | ⟨_, _, _, hblob⟩⟩
  · cases hfolder
    have hmem := (workingMembers_eq tree hf shown hfound).1
    exact hfound.trans (congrArg Except.ok hmem)
  · cases hblob

omit listed in
/-- What is reached from the root is what some chain of names is shown as. -/
theorem shown_of_reaches {v : Variant} (h : c.store.Reaches (.ofFolder (.at .root .workingTree)) v) :
    ∃ names entry, (Forest.Entry.folder () members : DiskEntry).lookup names = some entry ∧
      c.shownOf names entry = some v := by
  -- Along the listings from the root: each member of a listing is shown one name further down.
  induction h with
  | start => exact ⟨[], _, rfl, shownOf_folder rfl () members⟩
  | member f ms found v _ hfound hmem ih =>
      rcases ih with ⟨names, entry, hl, hv⟩
      rcases cases_of_shownOf hv with ⟨shown, ⟨below, rfl, hf⟩ | ⟨_, _, _, hblob⟩⟩
      · cases hf
        rw [(workingMembers_eq tree hl shown hfound).1, mem_shownOf_iff tree hl] at hmem
        rcases hmem with ⟨name, entry, hl', hv'⟩
        exact ⟨names ++ [name], entry, hl', hv'⟩
      · cases hblob

/-- A regular file that no listing passes over is shown with its content. -/
theorem shownOf_regular (hne : names ≠ []) (shown : c.shows [] names false = true) {content : Bytes}
    {executable : Bool} (hl : members.lookup names = some (.leaf (.regular content executable))) :
    c.shownOf names (.leaf (.regular content executable)) =
      some (.blob (.onDisk (pathOf names) content)) := by
  rcases List.eq_nil_or_concat' names with rfl | ⟨above, name, rfl⟩
  · exact absurd rfl hne
  rw [← Forest.Entry.lookup_folder () members hne] at hl
  rcases Forest.Entry.folder_of_lookup_concat hl with ⟨_, upper, hupper⟩
  have front := (shows_concat_iff.mp shown).1
  have reached := reaches_of_shown tree listed hupper (shownOf_folder front () upper)
  rcases listed _ _ reached with ⟨found, hfound⟩
  have hmem := (Forest.mem_entries_iff_lookup tree.distinct hupper).mpr hl
  -- Not passed over means that the listing has an answer about it, and so it has been read and hashed.
  have some' := (workingMembers_eq tree hupper front hfound).2 _ hmem shown
  rcases Option.isSome_iff_exists.mp some' with ⟨v, hv⟩
  rw [hv, eq_of_shownOf_regular tree hl hv]

end

end

/-! ### What the Index Holds -/

/-- What is tracked is not hidden. -/
theorem isHidden_of_isTracked {p : Path} {tracked : TrackedPaths}
    (h : isTracked tracked p isFolder = true) : c.isHidden tracked p isFolder ≠ .ok true := by
  rw [isHidden, h]
  split_ifs
  · exact fun he => Bool.false_ne_true (Except.ok.inj he)
  · intro he
    -- Hidden is what is ignored and not tracked, and the second is false.
    rcases Run.bind_eq_ok he with ⟨ignored, _, he⟩
    rw [Bool.not_true, Bool.and_false] at he
    exact Bool.false_ne_true (Except.ok.inj he)

/-- An entry of the index is passed over by no listing on the way to it. -/
theorem shows_of_entry {e : IndexEntry} (he : e ∈ c.repository.index)
    (named : ∀ name ∈ e.names, IsName name) (outside : Utf8.encode gitFolderName ∉ e.names)
    {more : List Bytes} (hn : e.names = above ++ more) : c.shows above more false = true := by
  -- Along the names of the entry: each of them is a folder with the entry below it, and the last one is the entry.
  induction more generalizing above with
  | nil => rfl
  | cons name more ih =>
      have hmem : name ∈ e.names := hn ▸ List.mem_append_right _ List.mem_cons_self
      have tracked : isTracked (c.trackedPaths (pathOf above)) (pathOf (above ++ [name]))
          (false || !more.isEmpty) = true := by
        cases more with
        | nil => exact isTracked_entry named he hn
        | cons next more => exact isTracked_above named he (hn.trans (List.append_cons _ _ _))
      rw [shows, ih (hn.trans (List.append_cons _ _ _)), Bool.and_true, Bool.not_eq_true',
        passes_eq_false_iff]
      exact ⟨fun hg => outside (hg ▸ hmem), isHidden_of_isTracked tracked⟩

/-- What is shown although it is ignored is tracked, or it is the rule file. -/
theorem tracks_of_shows (shown : c.shows [] (above ++ [name]) isFolder = true)
    (ignored : Ignore.isIgnored c.disk c.root (pathOf (above ++ [name])) isFolder = .ok true)
    (plain : c.isRuleFile (pathOf (above ++ [name])) = false) :
    c.repository.index.Tracks (pathOf (above ++ [name])) := by
  have kept := (passes_eq_false_iff.mp (shows_concat_iff.mp shown).2).2
  rw [isHidden, plain, if_neg Bool.false_ne_true, ignored, Run.ok_bind, Bool.true_and] at kept
  -- Were nothing tracked here, an ignored name would be hidden.
  cases tracked : isTracked (c.trackedPaths (pathOf above)) (pathOf (above ++ [name])) isFolder with
  | true => exact exists_entry_of_isTracked tracked
  | false =>
      rw [tracked] at kept
      exact absurd rfl kept

end Checkout

end ThreeWay
