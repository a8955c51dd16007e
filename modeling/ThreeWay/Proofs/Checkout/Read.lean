import Mathlib.Data.List.TakeWhile
import ThreeWay.Proofs.Checkout.Member
import ThreeWay.Proofs.Checkout.Tree
import ThreeWay.Proofs.Disk
import ThreeWay.Proofs.Path.Segment
import ThreeWay.Proofs.Repository.Named

/-!
# Listings and the Names They Are Read From

A listing reads names, from a folder on the disk, from the paths of the index or from a tree, and makes a member
of each. It collects the members under the names that were read, so it is in the order of those, in whatever order
the disk or the tree has them. The member has a path, the folder's path with the name joined to it, and calls
itself by the last segment of that path. The two names are the same where the name is plain, and then the listing
is what a difference asks for: members in the order of their own names, valid, and each under its own name in the
folder.

None of this depends on where the folder is or how it came to be known, so it is said of every folder.

The three kinds of listings are alike in this. They differ in where the names come from and in what may refuse a
listing: a name of the disk that is no text is skipped or read with replacements, a name of a tree may be anything
but empty, and of the index it is a piece of what is left of a path. So for each of them there is one lemma about
a single name, and one about all names of a folder, and `exists_readFrom` takes them together by the revision.

## Main definitions

* `Checkout.PlainNames`: The names that a checkout can list are plain.
* `Folder.Makes`: What the listing of a folder makes of a name.
* `Folder.ReadFrom`: The names that a listing is read from.
* `Folder.IsListing`: What a difference asks of the listing of a folder.

## Theorems

* `Makes.name_eq`, `Makes.valid`: A plain name is the name of the member that is made of it.
* `ReadFrom.isListing`: A listing of plain names is what a difference asks for.
* `readFrom_readOf`: A listing of a forest is read from the names of its entries.
* `exists_commit_of_namedTree`: What is listed of a revision is a folder of a recorded tree.
* `chars_of_textBelow`, `of_textBelow`: What is left of the path of an entry below a folder.
* `makes_of_workingMember`, `makes_of_namedMember`, `makes_of_stagedMember`: Each kind of listing makes its
  members of names.
* `exists_readFrom_working`, `exists_readFrom_named`, `exists_readFrom_staged`: The folders of the three kinds.
* `exists_readFrom`: Every listing is read from names in ascending order, which are plain if all names are.
-/

namespace ThreeWay

open ThreeWay.Path Scanner

/-- What the listing of a folder makes of a name. -/
structure Folder.Makes (f : Folder) (raw : String) (v : Variant) : Prop where
  present : v.present = true
  deferred : v.members? = none
  revision : v.revision = f.revision
  path : v.path = f.path.join raw
  name : v.name = v.path.fileName

/-- The names that the listing of a folder is read from, in ascending order, with what is made of them. -/
structure Folder.ReadFrom (f : Folder) (read : List (String × Variant)) (found : List Variant) : Prop where
  members : found = read.map Prod.snd
  ordered : Ascending (fun e => Utf8.encode e.1) read
  makes : ∀ e ∈ read, f.Makes e.1 e.2

/-- What a difference asks of the listing of a folder. -/
structure Folder.IsListing (f : Folder) (found : List Variant) : Prop where
  ordered : Ascending (fun v => Utf8.encode v.name) found
  valid : ∀ v ∈ found, ValidMember v
  placed : ∀ v ∈ found, v.path = f.path.join v.name

namespace Folder

variable {f : Folder} {raw : String} {v : Variant} {read : List (String × Variant)} {found : List Variant}

theorem Makes.name_eq (h : f.Makes raw v) (plain : IsPlain raw.toList) : v.name = raw := by
  rw [h.name, h.path, fileName_join f.path plain]

theorem Makes.valid (h : f.Makes raw v) (plain : IsPlain raw.toList) : ValidMember v := by
  have hname := h.name_eq plain
  refine ⟨h.present, fun hempty => ?_, hname ▸ plain.2.1⟩
  -- An empty name would be no step, and a plain name is one.
  have hstep := plain.1
  rw [← hname, hempty] at hstep
  exact absurd hstep (by decide)

/-- A listing of plain names is what a difference asks for. -/
theorem ReadFrom.isListing (h : f.ReadFrom read found) (plain : ∀ e ∈ read, IsPlain e.1.toList) :
    f.IsListing found where
  ordered := by
    rw [h.members]
    -- The order is that of the names read, and those are the names of the members.
    refine List.pairwise_map.mpr (List.Pairwise.imp_of_mem (fun {a b} ha hb hlt => ?_) h.ordered)
    dsimp only at hlt ⊢
    rwa [(h.makes a ha).name_eq (plain a ha), (h.makes b hb).name_eq (plain b hb)]
  valid v hv := by
    rw [h.members] at hv
    rcases List.mem_map.mp hv with ⟨e, he, rfl⟩
    exact (h.makes e he).valid (plain e he)
  placed v hv := by
    rw [h.members] at hv
    rcases List.mem_map.mp hv with ⟨e, he, rfl⟩
    rw [(h.makes e he).name_eq (plain e he), (h.makes e he).path]

end Folder

/-! ### Listings of a Forest -/

/-- What is listed of the entries of a forest under the names that it is read from, in their order. -/
def Forest.readOf {α β : Type} (show? : Bytes × Entry α β → Option (String × Variant)) (members : Forest α β) :
    List (String × Variant) :=
  ascending Prod.fst (members.entries.filterMap show?)

namespace Forest

variable {α β : Type} {show? : Bytes × Entry α β → Option (String × Variant)} {members : Forest α β} {f : Folder}

theorem exists_of_mem_readOf {e : String × Variant} (h : e ∈ readOf show? members) :
    ∃ x ∈ members.entries, show? x = some e :=
  List.mem_filterMap.mp (mem_of_mem_ascending h)

/-- Where a name is listed as what is made of it, a listing of a forest is read from its names. -/
theorem readFrom_readOf (makes : ∀ x ∈ members.entries, ∀ e, show? x = some e → f.Makes e.1 e.2) :
    f.ReadFrom (readOf show? members) ((readOf show? members).map Prod.snd) where
  members := rfl
  ordered := (ascending_encode_iff _ _).mpr (ascending_ascending _)
  makes e he := by
    rcases exists_of_mem_readOf he with ⟨x, hx, hshow⟩
    exact makes x hx e hshow

theorem isPlain_of_mem_readOf (text : ∀ x ∈ members.entries, ∀ e, show? x = some e → Utf8.decode? x.1 = some e.1)
    (kept : members.AllNames IsKept) {e : String × Variant} (he : e ∈ readOf show? members) :
    IsPlain e.1.toList := by
  rcases exists_of_mem_readOf he with ⟨x, hx, hshow⟩
  exact kept.of_mem_firstNames (List.mem_map_of_mem hx) e.1 (text x hx e hshow)

end Forest

/-! ### Listings of a Checkout -/

namespace Checkout

/-- The names that a checkout can list are plain: those on the disk and in the recorded trees, and the paths of
    the index are below the root. Names that a file system can have are plain unless they have a backslash, and an
    entry of the index lies elsewhere only if its path has no steps or starts with a slash or a backslash. -/
structure PlainNames (c : Checkout) : Prop where
  disk : c.disk.tree.AllNames IsKept
  place : ∀ name ∈ c.disk.place, IsKept name
  trees : ∀ start, .commit start ∈ c.repository.objects → start.tree.members.AllNames IsKept
  index : ∀ e ∈ c.repository.index.plain, e.place.isRoot = false ∧ e.place.isAbsolute = false

variable {c : Checkout} {f : Folder} {found : List Variant}

/-- A member of the working tree is made of its name. -/
theorem makes_of_workingMember {tracked : TrackedPaths} {dir : RawPath} {name : Bytes} {entry : DiskEntry}
    {e : String × Variant} (hf : f.revision = .workingTree)
    (h : c.workingMember tracked f.path dir name entry = .ok (some e)) :
    Utf8.decode? name = some e.1 ∧ f.Makes e.1 e.2 := by
  cases answered_of_workingMember h with
  | folder value below raw text _ _ => exact ⟨text, rfl, rfl, hf.symm, rfl, rfl⟩
  | file value raw text _ _ id _ => exact ⟨text, rfl, rfl, hf.symm, rfl, rfl⟩

/-- A member of a revision is made of its name. -/
theorem makes_of_namedMember {spec : String} {name : Bytes} {entry : TreeEntry} {e : String × Variant}
    (hf : f.revision = .named spec) (h : namedMember f.path spec name entry = some e) :
    Utf8.decode? name = some e.1 ∧ f.Makes e.1 e.2 := by
  rcases Option.bind_eq_some_iff.mp h with ⟨raw, hraw, h⟩
  cases entry with
  | folder id members =>
      cases h
      exact ⟨hraw, rfl, rfl, hf.symm, rfl, rfl⟩
  | leaf leaf =>
      dsimp only at h
      split_ifs at h
      cases h
      exact ⟨hraw, rfl, rfl, hf.symm, rfl, rfl⟩

/-- What is listed of the working tree has names of the disk. -/
theorem PlainNames.of_list (plain : c.PlainNames) {path : RawPath} {members : Forest FileEntry Unit}
    (h : c.disk.list path = .ok members) : members.AllNames IsKept := by
  rcases Disk.cases_of_list h with ⟨names, hl⟩ | ⟨name, hn, rfl⟩
  · exact (plain.disk.of_lookup_folder hl).2
  · exact ⟨plain.place name hn, trivial, trivial⟩

/-- The tree that a revision has for an entry of the tree of a commit: the folder itself, or the tree of the commit
    that a submodule stands at, if that one is recorded. -/
theorem find?_of_peelToTree {db : Database} {start : Commit} (hmem : .commit start ∈ db) {names : List Bytes}
    {entry : TreeEntry} (hentry : start.tree.find? names = some entry) {object : StoredObject}
    (ho : db.ofEntry entry = .ok object) {t : Tree} (ht : db.peelToTree object = .ok t) :
    ∃ commit names, .commit commit ∈ db ∧ commit.tree.find? names = some t.entry := by
  -- A folder of the tree is what it is. A leaf leads on only if it is a submodule, since only a commit can be peeled
  -- to a tree.
  cases entry with
  | folder id members =>
      cases ho
      cases ht
      exact ⟨start, names, hmem, hentry⟩
  | leaf leaf =>
      rw [Database.ofEntry] at ho
      cases hfind : db.find? leaf.id with
      | none =>
          rw [hfind] at ho
          cases ho
      | some found =>
          rw [hfind] at ho
          dsimp only at ho
          by_cases hkind : found.kind = if leaf.mode.isFile then ObjectKind.blob else .commit
          · rw [if_pos hkind, Except.ok.injEq] at ho
            cases ho
            cases object with
            | blob id content => cases ht
            | commit commit =>
                -- A submodule stands at a commit, and the tree of that commit is the root of another hierarchy.
                cases ht
                exact ⟨commit, [], List.mem_of_find?_eq_some hfind, rfl⟩
            | tree t => split_ifs at hkind <;> cases hkind
            | tag t => split_ifs at hkind <;> cases hkind
          · rw [if_neg hkind] at ho
            cases ho

/-- What is listed of a revision is a folder of a recorded tree. -/
theorem exists_commit_of_namedTree {spec : String} {folder : Path} {t : Tree}
    (h : c.namedTree spec folder = .ok t) :
    ∃ commit names, .commit commit ∈ c.repository.objects ∧ commit.tree.find? names = some t.entry := by
  simp only [namedTree] at h
  cases hs : c.repository.resolveCommit spec with
  | error e =>
      rw [hs] at h
      cases h
  | ok start? =>
      cases start? with
      | none =>
          rw [hs] at h
          cases h
      | some start =>
          rw [hs] at h
          simp only [pure_bind] at h
          -- The tree was found along the names, or by resolving the object that stands there.
          split at h
          · rename_i hfound
            cases h
            rcases Run.bind_eq_ok hfound with ⟨names, _, hfound⟩
            cases hentry : start.tree.find? names with
            | none =>
                rw [hentry] at hfound
                cases hfound
            | some entry =>
                rw [hentry] at hfound
                rcases Run.bind_eq_ok hfound with ⟨object, ho, ht⟩
                exact find?_of_peelToTree (Repository.mem_of_resolveCommit hs) hentry ho ht
          · cases h

/-- What is listed of a revision has names of a recorded tree. -/
theorem PlainNames.of_namedTree (plain : c.PlainNames) {spec : String} {folder : Path} {t : Tree}
    (h : c.namedTree spec folder = .ok t) : t.members.AllNames IsKept := by
  rcases exists_commit_of_namedTree h with ⟨commit, names, hmem, hf⟩
  exact ((plain.trees commit hmem).of_lookup_folder hf).2

/-- What is left of the path of an entry below a folder continues the path of the folder. -/
theorem chars_of_textBelow {folder entry : Path} {below : List Char}
    (h : textBelow folder entry = .ok (some below)) :
    folder.isRoot = true ∧ entry.chars = below ∨
      folder.isRoot = false ∧ entry.chars = folder.chars ++ '/' :: below := by
  rw [textBelow] at h
  -- Below the root there is nothing to cut off. Elsewhere the path of the folder and a slash are.
  by_cases hroot : folder.isRoot = true
  · rw [if_pos hroot, Except.ok.injEq, Option.some.injEq] at h
    exact .inl ⟨hroot, h⟩
  · rw [if_neg hroot] at h
    by_cases hself : entry = folder
    · rw [if_pos hself] at h
      cases h
    · rw [if_neg hself] at h
      by_cases hbelow : entry.startsWith folder = true
      · rw [if_pos hbelow, Except.ok.injEq, Option.some.injEq] at h
        simp only [startsWith, hroot, hself, decide_false, Bool.false_or, List.isPrefixOf_iff_prefix] at hbelow
        rcases hbelow with ⟨rest, hrest⟩
        rw [List.append_assoc, List.singleton_append] at hrest
        have hdrop : below = rest := by
          rw [← h, ← hrest, List.append_cons, List.drop_left' (by rw [List.length_append, List.length_singleton])]
        exact .inr ⟨Bool.eq_false_iff.mpr hroot, by rw [hdrop, hrest]⟩
      · rw [if_neg hbelow] at h
        cases h

/-- So it leads back to the entry, and its pieces are pieces of the path. -/
theorem of_textBelow {folder entry : Path} {below : List Char} (h : textBelow folder entry = .ok (some below)) :
    folder.join (String.ofList below) = entry ∧ ∀ piece ∈ below.splitOn '/', piece ∈ entry.chars.splitOn '/' := by
  rcases chars_of_textBelow h with ⟨hroot, rfl⟩ | ⟨hroot, hchars⟩
  · exact ⟨join_chars_of_isRoot hroot, fun _ hm => hm⟩
  · refine ⟨join_of_chars hroot hchars, fun piece hm => ?_⟩
    rw [hchars, List.splitOn_append_cons_self]
    exact List.mem_append_right _ hm

/-- A member of the index is made of a name, and a piece of the path of its entry is that name. -/
theorem makes_of_stagedMember {e : IndexEntry} {raw : String} {v : Variant} (hf : f.revision = .index)
    (h : stagedMember f.path e = .ok (some (raw, v))) :
    f.Makes raw v ∧ raw.toList ∈ e.place.chars.splitOn '/' := by
  rw [stagedMember] at h
  rcases Run.bind_eq_ok h with ⟨below?, hbelow, h⟩
  cases below? with
  | none => cases h
  | some below =>
      rcases of_textBelow hbelow with ⟨hjoin, hpieces⟩
      dsimp only at h
      -- With a slash left, the first piece is a folder on the way to the entry. Without one, what is left is the name
      -- of the entry.
      by_cases hslash : below.contains '/' = true
      · rw [if_pos hslash] at h
        cases h
        refine ⟨⟨rfl, rfl, hf.symm, rfl, rfl⟩, hpieces _ ?_⟩
        rw [String.toList_ofList]
        exact takeWhile_mem_splitOn below
      · rw [if_neg hslash] at h
        cases h
        -- The last name of the path is all that is left of it.
        have hwhole : below.takeWhile (· ≠ '/') = below :=
          List.takeWhile_eq_self_iff.mpr fun c hc => decide_eq_true fun he =>
            hslash (List.contains_iff_mem.mpr (he ▸ hc))
        refine ⟨⟨rfl, rfl, hf.symm, ?_, ?_⟩, hpieces _ ?_⟩
        · rw [hwhole]
          exact hjoin.symm
        · simp only [Variant.path, Variant.name, Blob.at]
        · rw [String.toList_ofList]
          exact takeWhile_mem_splitOn below

/-- A folder of the working tree is read from names of the disk. -/
theorem exists_readFrom_working (hf : f.revision = .workingTree) (h : c.workingMembers f.path = .ok found) :
    ∃ read, f.ReadFrom read found ∧ (c.PlainNames → ∀ e ∈ read, IsPlain e.1.toList) := by
  rw [workingMembers] at h
  dsimp only at h
  cases hlist : c.disk.list (c.fileOf f.path) with
  | error fault =>
      rw [hlist] at h
      cases h
  | ok members =>
      rw [hlist] at h
      rcases Run.bind_eq_ok h with ⟨shown, hshown, h⟩
      cases h
      rw [List.filterMap_id_of_mapM_eq_ok hshown]
      -- What is kept of the answers comes from a name with an answer, and it was made of that name.
      have makes : ∀ x ∈ members.entries, ∀ e, (c.workingMember (c.trackedPaths f.path) f.path
          (c.fileOf f.path) x.1 x.2).toOption.join = some e →
          Utf8.decode? x.1 = some e.1 ∧ f.Makes e.1 e.2 := by
        intro x _ e he
        cases hanswer : c.workingMember (c.trackedPaths f.path) f.path (c.fileOf f.path) x.1 x.2 with
        | error failure =>
            rw [hanswer] at he
            cases he
        | ok member =>
            rw [hanswer] at he
            cases he
            exact makes_of_workingMember hf hanswer
      exact ⟨_, Forest.readFrom_readOf fun x hx e he => (makes x hx e he).2, fun plain e he =>
        Forest.isPlain_of_mem_readOf (fun x hx e he => (makes x hx e he).1) (plain.of_list hlist) he⟩

/-- A folder of a revision is read from names of a recorded tree. -/
theorem exists_readFrom_named {spec : String} (hf : f.revision = .named spec)
    (h : c.namedMembers f.path spec = .ok found) :
    ∃ read, f.ReadFrom read found ∧ (c.PlainNames → ∀ e ∈ read, IsPlain e.1.toList) := by
  rw [namedMembers] at h
  rcases Run.bind_eq_ok h with ⟨t, ht, h⟩
  cases h
  exact ⟨_, Forest.readFrom_readOf fun x _ e he => (makes_of_namedMember hf he).2, fun plain e he =>
    Forest.isPlain_of_mem_readOf (fun x _ e he => (makes_of_namedMember hf he).1) (plain.of_namedTree ht) he⟩

/-- Entries of one name give way to the first of them, so what is left still comes from an entry. -/
theorem exists_entry_of_shown {folder : Path} {shown : List (Option (String × Variant))}
    (hshown : c.repository.index.plain.mapM (stagedMember folder) = .ok shown) {x : String × Variant}
    (hx : x ∈ ascendingNew Prod.fst (shown.filterMap id)) :
    ∃ e ∈ c.repository.index.plain, stagedMember folder e = .ok (some x) := by
  rcases List.mem_filterMap.mp (mem_of_mem_ascendingNew hx) with ⟨y, hy, rfl⟩
  exact (List.forall₂_of_mapM_eq_ok hshown).exists_mem_of_mem_right hy

/-- A folder of the index is read from the paths of its entries. -/
theorem exists_readFrom_staged (hf : f.revision = .index) (h : c.stagedMembers f.path = .ok found) :
    ∃ read, f.ReadFrom read found ∧ (c.PlainNames → ∀ e ∈ read, IsPlain e.1.toList) := by
  rw [stagedMembers] at h
  rcases Run.bind_eq_ok h with ⟨shown, hshown, h⟩
  cases h
  refine ⟨ascendingNew Prod.fst (shown.filterMap id),
    ⟨rfl, (ascending_encode_iff _ _).mpr (ascending_ascendingNew _), fun x hx => ?_⟩, fun plain x hx => ?_⟩
  · rcases exists_entry_of_shown hshown hx with ⟨e, _, he⟩
    exact (makes_of_stagedMember hf he).1
  · rcases exists_entry_of_shown hshown hx with ⟨e, hmem, he⟩
    have place := plain.index e hmem
    exact isPlain_of_mem_splitOn place.1 place.2 (makes_of_stagedMember hf he).2

/-- Every listing is read from names in ascending order, which are plain where all names are. -/
theorem exists_readFrom (h : c.members f = .ok found) :
    ∃ read, f.ReadFrom read found ∧ (c.PlainNames → ∀ e ∈ read, IsPlain e.1.toList) := by
  rw [members] at h
  -- The listing is chosen by the revision of the folder.
  cases hf : f.revision with
  | workingTree =>
      rw [hf] at h
      exact exists_readFrom_working hf h
  | index =>
      rw [hf] at h
      exact exists_readFrom_staged hf h
  | named spec =>
      rw [hf] at h
      exact exists_readFrom_named hf h

end Checkout

end ThreeWay
