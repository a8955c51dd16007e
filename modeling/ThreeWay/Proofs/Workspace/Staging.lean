import ThreeWay.Proofs.Index
import ThreeWay.Proofs.Scan.Law
import ThreeWay.Workspace.Staging

/-!
# What Staging Records

Staging everything makes the index a copy of the working tree: it has one plain entry for each file, with the
file's mode and the id of its content, and a link is recorded as its text. What the index had before does not
matter, and neither does the order in which the paths are taken.

That is so because a path is either still to be taken, or the index already has there what it is to have. Taking
one path changes entries at the path, above it and below it. Of these only the path itself can be a file of the
working tree, so nothing that is done is undone.

`Underway` is the invariant, with the paths that are still to be taken as a parameter: it holds of any index if
all its entries and all files of the tree are still to be taken, and with nothing left to take it is what is
claimed. Taking a path has two cases, as a file stands there or not; `Underway.put` and `Underway.remove` are
these two.

## Main definitions

* `FileEntry.leaf`: What a commit records for a file of the working tree.
* `IndexEntry.IsFileOf`: An entry for a file of a folder on the disk.
* `Workspace.Takes`: Nothing of a folder is left out when everything is staged.
* `Workspace.Underway`: An index of which some paths are still to be taken.

## Theorems

* `Index.mem_stage_iff`: What the index has after a path is taken.
* `newFiles_eq`: The new files are those that are not tracked.
* `Underway.put`, `Underway.remove`: Taking a path where a file stands, and where none does.
* `Underway.stage`: Taking one path.
* `mem_stageAll`: What the index has after everything is staged.
* `lookup_stageAll`: What a commit of it records.
-/

namespace ThreeWay

open ThreeWay.Path Scanner

/-- What a commit records for a file of the working tree. -/
def FileEntry.leaf (file : FileEntry) : Leaf :=
  ⟨(recorded file).1, .ofBlob (recorded file).2⟩

/-- The id is that of the content. -/
theorem FileEntry.leaf_regular (content : Bytes) (executable : Bool) :
    (FileEntry.regular content executable).leaf.id = .ofBlob content ∧
      (FileEntry.regular content executable).leaf.mode.isFile = true := by
  cases executable <;> exact ⟨rfl, rfl⟩

theorem FileEntry.isFile_leaf (file : FileEntry) : file.leaf.mode.isFile = true := by
  rcases file with ⟨content, _ | _⟩ | target <;> rfl

/-! ### Entries of the Index -/

/-- The entry of the index for a file. -/
def FileEntry.staged (names : List Bytes) (file : FileEntry) : IndexEntry :=
  ⟨Workspace.pathOf names, 0, file.leaf.mode, file.leaf.id⟩

theorem FileEntry.names_staged {names : List Bytes} (named : ∀ name ∈ names, IsName name)
    (hne : names ≠ []) (file : FileEntry) : (file.staged names).names = names :=
  (IndexEntry.path_eq_iff named hne).mp rfl

/-- An entry for a file of a folder on the disk, outside of the repository's own folder. -/
def IndexEntry.IsFileOf (e : IndexEntry) (members : Forest FileEntry Unit) : Prop :=
  ∃ names file, Utf8.encode gitFolderName ∉ names ∧ members.lookup names = some (.leaf file) ∧
    e = file.staged names

namespace Index

variable {index : Index} {e f : IndexEntry}

/-- An entry below another one has more names. -/
theorem below_of_isBelow (h : isBelow e.path f.path = true) :
    ∃ name more, e.names = f.names ++ name :: more := by
  rw [isBelow, List.isPrefixOf_iff_prefix] at h
  rcases h with ⟨rest, hrest⟩
  rw [List.append_assoc, List.singleton_append] at hrest
  -- Behind the separator the rest of the path is cut into names again.
  have hnames : e.names = f.names ++ rest.splitOn RawPath.slash := by
    rw [IndexEntry.names, ← hrest, List.splitOn_append_cons_self]
    rfl
  cases hs : rest.splitOn RawPath.slash with
  | nil => exact absurd hs (List.splitOn_ne_nil _ _)
  | cons name more => exact ⟨name, more, hs ▸ hnames⟩

/-- Plain entries of different paths have different keys. -/
theorem key_ne_of_path_ne {path : Bytes} {mode : LeafMode} {id : ObjectId} (h : e.path ≠ path) :
    e.key ≠ IndexEntry.key ⟨path, 0, mode, id⟩ := fun hk => h (List.append_inj_left' hk rfl)

/-- After a path is taken the index has what it had, except for what was at the path, and for plain entries
    below it and above it. -/
theorem mem_stage_iff (ordered : Ascending IndexEntry.key index) {path : Bytes} {mode : LeafMode}
    {id : ObjectId} : e ∈ index.stage path mode id ↔ e = ⟨path, 0, mode, id⟩ ∨
      e ∈ index ∧ e.path ≠ path ∧
        ¬ (e.stage = 0 ∧ (isBelow e.path path = true ∨ isBelow path e.path = true)) := by
  -- First what is at the path goes, then what lies below and above it, and then the entry is put in.
  have others : Ascending IndexEntry.key (index.remove path) := ordered.sublist List.filter_sublist
  rw [stage, add, mem_insertAt (others.sublist List.filter_sublist), remove, List.mem_filter, List.mem_filter]
  refine or_congr Iff.rfl ?_
  simp only [Bool.not_eq_true', decide_eq_true_eq, ← Bool.not_eq_true, Bool.and_eq_true, Bool.or_eq_true,
    and_assoc]
  exact and_congr_right fun _ => and_congr_right fun hp => and_iff_left (key_ne_of_path_ne hp)

theorem ascending_stage (ordered : Ascending IndexEntry.key index) (path : Bytes) (mode : LeafMode)
    (id : ObjectId) : Ascending IndexEntry.key (index.stage path mode id) :=
  ascending_insertAt _ ((ordered.sublist List.filter_sublist).sublist List.filter_sublist)

theorem mem_remove_iff {path : Bytes} : e ∈ index.remove path ↔ e ∈ index ∧ e.path ≠ path := by
  rw [remove, List.mem_filter, decide_eq_true_eq]

end Index

namespace Workspace

variable {w : Workspace} {names : List Bytes}

/-! ### New Files -/

/-- Nothing of a folder is left out when everything is staged: no name is reserved but that of the repository's
    folder, no folder holds a repository of its own, and the rules leave out nothing. -/
def Takes (w : Workspace) (above : List Bytes) (f : Forest FileEntry Unit) : Prop :=
  ∀ more name entry, Utf8.encode gitFolderName ∉ more ++ [name] →
    f.lookup (more ++ [name]) = some entry → isReserved name = false ∧ isForeign entry.members = false ∧
      w.isLeftOut (above ++ more) false name entry.isFolder = false

theorem isReserved_gitFolder : isReserved (Utf8.encode gitFolderName) = true := by
  decide +kernel

/-- What is taken of the rest of a folder is taken. -/
theorem Takes.rest {above : List Bytes} {name : Bytes} {entry : DiskEntry} {rest : Forest FileEntry Unit}
    (h : w.Takes above (.cons name entry rest)) (distinct : name ∉ rest.firstNames) : w.Takes above rest :=
  fun more last found outside hl => h more last found outside (Forest.lookup_cons_of_rest distinct hl)

theorem Takes.here {above : List Bytes} {name : Bytes} {entry : DiskEntry} {rest : Forest FileEntry Unit}
    (h : w.Takes above (.cons name entry rest)) (hg : name ≠ Utf8.encode gitFolderName) :
    isReserved name = false ∧ isForeign entry.members = false ∧
      w.isLeftOut above false name entry.isFolder = false := by
  have taken := h [] name entry (by simpa using Ne.symm hg) (Forest.lookup_cons_self [])
  rwa [List.append_nil] at taken

theorem Takes.below {above : List Bytes} {name : Bytes} {members rest : Forest FileEntry Unit}
    (h : w.Takes above (.folder name () members rest)) (hg : name ≠ Utf8.encode gitFolderName) :
    w.Takes (above ++ [name]) members := by
  intro more last found outside hl
  have hfolder : (Forest.folder name () members rest).lookup (name :: (more ++ [last])) = some found := by
    have hself := @Forest.lookup_cons_self _ _ name (.folder () members) rest (more ++ [last])
    rw [Forest.Entry.lookup_folder () members (List.append_ne_nil_of_right_ne_nil _ (List.cons_ne_nil _ _))]
      at hself
    exact hself.trans hl
  have taken := h (name :: more) last found (by simpa [Ne.symm hg] using outside) hfolder
  rwa [List.append_cons] at taken

/-- The new files of a folder of which nothing is left out are those that are not tracked. -/
theorem newFiles_eq {above : List Bytes} {f : Forest FileEntry Unit} (takes : w.Takes above f)
    (distinct : f.Distinct) (outside : Utf8.encode gitFolderName ∉ above) :
    w.newFiles above false f = (shown above f).filter fun names => !w.isTracked names := by
  -- On the forest, as both sides take a file or leave it by the same name. Below a folder the names above are longer
  -- by its own.
  induction f generalizing above with
  | nil => rfl
  | leaf name value rest ih =>
      have takesRest := @Takes.rest w above name (.leaf value) rest takes distinct.1
      have hrest := ih takesRest distinct.2 outside
      rw [newFiles, shown_leaf outside]
      by_cases hg : name = Utf8.encode gitFolderName
      · simp only [hg, isReserved_gitFolder, Bool.true_or, if_true]
        exact hrest
      · rcases @Takes.here w above name (.leaf value) rest takes hg with ⟨free, _, kept⟩
        simp only [Forest.Entry.isFolder] at kept
        simp only [free, kept, hg, Bool.false_or, Bool.or_false, if_false, List.filter_cons, hrest]
        cases w.isTracked (above ++ [name]) <;> rfl
  | folder name value members rest ihm ih =>
      have takesRest := @Takes.rest w above name (.folder value members) rest takes distinct.1
      have hrest := ih takesRest distinct.2.2 outside
      rw [newFiles, shown_folder outside distinct.2.1]
      by_cases hg : name = Utf8.encode gitFolderName
      · simp only [hg, isReserved_gitFolder, if_true]
        exact hrest
      · rcases @Takes.here w above name (.folder value members) rest takes hg with ⟨free, whole, kept⟩
        simp only [Forest.Entry.isFolder, Forest.Entry.members] at kept whole
        have hmembers := ihm (takes.below hg) distinct.2.1 (mt (gitFolder_mem_concat_iff outside).mp hg)
        simp only [free, kept, whole, hg, Bool.or_false, Bool.not_false, Bool.or_true, Bool.false_eq_true,
          if_false, if_true, List.filter_append, hrest, hmembers]

/-! ### Taking One Path After the Other -/

/-- An index of which some paths are still to be taken. What it has elsewhere is a file of the disk, and it has
    all files of the disk elsewhere. -/
structure Underway (members : Forest FileEntry Unit) (todo : List (List Bytes)) (index : Index) : Prop where
  ordered : Ascending IndexEntry.key index
  settled : ∀ e ∈ index, e.IsFileOf members ∨ e.names ∈ todo ∧ e.mode ≠ .submodule
  taken : ∀ e : IndexEntry, e.IsFileOf members → e.names ∉ todo → e ∈ index

section

variable {members : Forest FileEntry Unit} {todo : List (List Bytes)} {index : Index} {e f : IndexEntry}
  (named : members.AllNames IsName)

include named

/-- The entry of a file has the names of the file. -/
theorem lookup_of_isFileOf (h : e.IsFileOf members) : Utf8.encode gitFolderName ∉ e.names ∧
    ∃ file, members.lookup e.names = some (.leaf file) ∧ e = file.staged e.names := by
  rcases h with ⟨names, file, outside, hl, he⟩
  have hne : names ≠ [] := by
    rintro rfl
    cases hl
  have hnames : e.names = names := he ▸ FileEntry.names_staged (named.of_lookup hl).1 hne file
  rw [hnames]
  exact ⟨outside, file, hl, he⟩

/-- No file lies below a file. -/
theorem not_isBelow_of_isFileOf (he : e.IsFileOf members) (hf : f.IsFileOf members) :
    ¬ Index.isBelow e.path f.path = true := by
  intro hbelow
  rcases Index.below_of_isBelow hbelow with ⟨name, more, hnames⟩
  rcases lookup_of_isFileOf named he with ⟨_, file, hl, _⟩
  rcases lookup_of_isFileOf named hf with ⟨_, other, hother, _⟩
  rw [hnames, Forest.lookup_below_leaf hother] at hl
  cases hl

section

variable (h : Underway members (names :: todo) index) (hn : ∀ name ∈ names, IsName name)
  (hne : names ≠ [])

include h hn hne

omit named in
/-- What an index has away from the path that is taken is settled afterwards if it was before. -/
theorem Underway.settled_of_ne (he : e ∈ index) (hp : e.path ≠ pathOf names) :
    e.IsFileOf members ∨ e.names ∈ todo ∧ e.mode ≠ .submodule := by
  refine (h.settled e he).imp id fun pending => ⟨?_, pending.2⟩
  refine (List.mem_cons.mp pending.1).resolve_left fun hnames => hp ?_
  exact (IndexEntry.path_eq_iff hn hne).mpr hnames

omit named in
/-- Taking a path at which no file stands takes its entries away. -/
theorem Underway.remove (missing : ∀ e : IndexEntry, e.IsFileOf members → e.names ≠ names) :
    Underway members todo (index.remove (pathOf names)) where
  ordered := h.ordered.sublist List.filter_sublist
  settled e he := by
    rcases Index.mem_remove_iff.mp he with ⟨he, hp⟩
    exact h.settled_of_ne hn hne he hp
  taken e he hfree := by
    have hnames := missing e he
    refine Index.mem_remove_iff.mpr ⟨h.taken e he ?_, mt (IndexEntry.path_eq_iff hn hne).mp hnames⟩
    exact fun hm => (List.mem_cons.mp hm).elim hnames hfree

/-- Taking a file puts its entry in, and all other files stay. -/
theorem Underway.put {file : FileEntry} (outside : Utf8.encode gitFolderName ∉ names)
    (hl : members.lookup names = some (.leaf file)) :
    Underway members todo (index.stage (pathOf names) file.leaf.mode file.leaf.id) where
  ordered := Index.ascending_stage h.ordered _ _ _
  settled e he := by
    rcases (Index.mem_stage_iff h.ordered).mp he with rfl | ⟨he, hp, _⟩
    · exact Or.inl ⟨names, file, outside, hl, rfl⟩
    · exact h.settled_of_ne hn hne he hp
  taken e he hfree := by
    have hself : (file.staged names).IsFileOf members := ⟨names, file, outside, hl, rfl⟩
    rw [Index.mem_stage_iff h.ordered]
    by_cases hnames : e.names = names
    · rcases lookup_of_isFileOf named he with ⟨_, other, hother, hentry⟩
      rw [hnames] at hother hentry
      cases hl.symm.trans hother
      exact Or.inl hentry
    · refine Or.inr ⟨h.taken e he fun hm => (List.mem_cons.mp hm).elim hnames hfree,
        mt (IndexEntry.path_eq_iff hn hne).mp hnames, ?_⟩
      -- What staging takes away lies above or below the path, and no file of the tree does.
      rintro ⟨_, hbelow | habove⟩
      · exact not_isBelow_of_isFileOf named he hself hbelow
      · exact not_isBelow_of_isFileOf named hself he habove

end

end

theorem disk_stage (w : Workspace) (names : List Bytes) : (w.stage names).disk = w.disk := by
  unfold stage
  split
  · rfl
  · dsimp only
    split_ifs <;> rfl
  · rfl

/-- Taking one path. -/
theorem underway_stage (named : w.disk.tree.AllNames IsName) {todo : List (List Bytes)}
    (h : Underway w.disk.tree (names :: todo) w.repository.index) (hn : ∀ name ∈ names, IsName name)
    (hne : names ≠ []) (outside : Utf8.encode gitFolderName ∉ names) :
    Underway w.disk.tree todo (w.stage names).repository.index := by
  -- Where no file stands, the entries of the path have nothing to stand for.
  have gone : (∀ file, w.disk.tree.lookup names ≠ some (.leaf file)) →
      Underway w.disk.tree todo (w.repository.index.remove (pathOf names)) := by
    intro missing
    refine h.remove hn hne fun e he hnames => ?_
    rcases lookup_of_isFileOf named he with ⟨_, file, hl, _⟩
    exact missing file (hnames ▸ hl)
  unfold stage
  cases hl : w.disk.tree.lookup names with
  | none =>
      simp only
      exact gone fun file hf => by cases hl.symm.trans hf
  | some entry =>
      cases entry with
      | leaf file => exact h.put named hn hne outside hl
      | folder value below =>
          have missing : ∀ file, w.disk.tree.lookup names ≠ some (.leaf file) :=
            fun file hf => by cases hl.symm.trans hf
          -- There are no submodules, so the entries of the folder's own path go.
          have plain : ((w.repository.index.find? (pathOf names) 0).any (·.mode = .submodule)) = false := by
            cases hf : w.repository.index.find? (pathOf names) 0 with
            | none => rfl
            | some e =>
                have hp := List.find?_some hf
                rw [Bool.and_eq_true, decide_eq_true_eq] at hp
                have hnames := (IndexEntry.path_eq_iff hn hne).mp hp.1
                refine decide_eq_false ?_
                rcases h.settled e (List.mem_of_find?_eq_some hf) with hfile | ⟨_, hmode⟩
                · rcases lookup_of_isFileOf named hfile with ⟨_, file, hother, _⟩
                  exact absurd (hnames ▸ hother) (missing file)
                · exact hmode
          simp only [plain, Bool.false_eq_true, if_false]
          exact gone missing

/-- Taking all that is to be taken leaves nothing to take. -/
theorem underway_foldl (named : w.disk.tree.AllNames IsName) {todo : List (List Bytes)}
    (h : Underway w.disk.tree todo w.repository.index)
    (ordinary : ∀ names ∈ todo, (∀ name ∈ names, IsName name) ∧ names ≠ [] ∧
      Utf8.encode gitFolderName ∉ names) :
    (todo.foldl stage w).disk = w.disk ∧
      Underway w.disk.tree [] (todo.foldl stage w).repository.index := by
  -- On the paths. The disk stays the same, so that what is known of the tree stays known.
  induction todo generalizing w with
  | nil => exact ⟨rfl, h⟩
  | cons names todo ih =>
      rcases ordinary names List.mem_cons_self with ⟨hn, hne, outside⟩
      have hdisk := disk_stage w names
      have hstep := underway_stage named h hn hne outside
      rw [← hdisk] at named hstep
      have hrest := ih named hstep fun more hm => ordinary more (List.mem_cons_of_mem _ hm)
      rw [hdisk] at hrest
      exact hrest

/-! ### Staging Everything -/

/-- A working tree of which nothing is left out, and an index without submodules. -/
structure IsStageable (w : Workspace) : Prop where
  distinct : w.disk.tree.Distinct
  named : w.disk.tree.AllNames fun name => IsName name ∧ 0 ∉ name
  takes : w.Takes [] w.disk.tree
  ordered : Ascending IndexEntry.key w.repository.index
  indexed : ∀ e ∈ w.repository.index, e.mode ≠ .submodule ∧
    Utf8.encode gitFolderName ∉ e.names ∧ ∀ name ∈ e.names, IsName name

namespace IsStageable

variable (h : w.IsStageable) {e f : IndexEntry}

include h

theorem isName : w.disk.tree.AllNames IsName :=
  h.named.imp fun _ hn => hn.1

/-- Every file of the working tree is in the index or new. -/
theorem underway : Underway w.disk.tree
    (w.repository.index.map IndexEntry.names ++ w.newFiles [] false w.disk.tree) w.repository.index where
  ordered := h.ordered
  settled e he := Or.inr ⟨List.mem_append_left _ (List.mem_map_of_mem he), (h.indexed e he).1⟩
  taken e he hfree := by
    rcases lookup_of_isFileOf h.isName he with ⟨outside, file, hl, _⟩
    refine absurd ?_ hfree
    rw [List.mem_append, newFiles_eq h.takes h.distinct List.not_mem_nil, List.mem_filter]
    by_cases tracked : w.isTracked e.names = true
    · rcases List.any_eq_true.mp tracked with ⟨f, hf, hp⟩
      rw [decide_eq_true_eq, pathOf, e.intercalate_names] at hp
      have hnames : f.names = e.names := congrArg (·.splitOn RawPath.slash) hp
      exact Or.inl (hnames ▸ List.mem_map_of_mem hf)
    · have hshown := (mem_shown_iff h.distinct).mpr ⟨outside, e.names, file, (List.nil_append _).symm, hl⟩
      exact Or.inr ⟨hshown, by rw [Bool.eq_false_of_not_eq_true tracked, Bool.not_false]⟩

/-- Staging everything is taking what is tracked, and then the files that are not. -/
theorem stageAll_eq : w.stageAll = (w.repository.index.map IndexEntry.names ++
    (shown [] w.disk.tree).filter fun names => !w.isTracked names).foldl stage w := by
  rw [stageAll, newFiles_eq h.takes h.distinct List.not_mem_nil]

theorem stageAll_spec : w.stageAll.disk = w.disk ∧ Underway w.disk.tree [] w.stageAll.repository.index := by
  refine underway_foldl h.isName h.underway fun names hm => ?_
  -- A path to take is that of an entry or that of a file, and both are ordinary and lie outside of the repository's
  -- folder.
  rcases List.mem_append.mp hm with hm | hm
  · rcases List.mem_map.mp hm with ⟨e, he, rfl⟩
    rcases h.indexed e he with ⟨_, outside, named⟩
    exact ⟨named, e.names_ne_nil, outside⟩
  · rw [newFiles_eq h.takes h.distinct List.not_mem_nil, List.mem_filter, mem_shown_iff h.distinct] at hm
    rcases hm with ⟨⟨outside, more, file, rfl, hl⟩, _⟩
    refine ⟨(h.isName.of_lookup hl).1, ?_, outside⟩
    rintro rfl
    cases hl

/-- After everything is staged the index has exactly the files of the working tree. -/
theorem mem_stageAll : e ∈ w.stageAll.repository.index ↔ e.IsFileOf w.disk.tree := by
  have done := h.stageAll_spec.2
  constructor
  · intro he
    exact (done.settled e he).resolve_right fun pending => List.not_mem_nil pending.1
  · exact fun hfile => done.taken e hfile List.not_mem_nil

theorem wellFormed_stageAll : w.stageAll.repository.index.WellFormed where
  ordered := h.stageAll_spec.2.ordered
  named e he := by
    rcases lookup_of_isFileOf h.isName (h.mem_stageAll.mp he) with ⟨_, file, hl, _⟩
    exact (h.named.of_lookup hl).1
  apart e he f hf hprefix := by
    rcases lookup_of_isFileOf h.isName (h.mem_stageAll.mp he) with ⟨_, file, hl, _⟩
    rcases lookup_of_isFileOf h.isName (h.mem_stageAll.mp hf) with ⟨_, other, hother, _⟩
    rcases IndexEntry.eq_or_below hprefix with hnames | ⟨name, more, hnames⟩
    · exact hnames.symm
    · -- Nothing lies below a file.
      rw [hnames, Forest.lookup_below_leaf hl] at hother
      cases hother

/-- A commit of it records exactly these files. -/
theorem lookup_stageAll {leaf : Leaf} :
    w.stageAll.repository.index.tree.members.lookup names = some (.leaf leaf) ↔
      Utf8.encode gitFolderName ∉ names ∧
        ∃ file, w.disk.tree.lookup names = some (.leaf file) ∧ leaf = file.leaf := by
  rw [h.wellFormed_stageAll.lookup_tree_leaf_iff]
  constructor
  · rintro ⟨e, he, rfl, rfl⟩
    rcases lookup_of_isFileOf h.isName (h.mem_stageAll.mp (Index.mem_plain.mp he).1) with
      ⟨outside, file, hl, hentry⟩
    exact ⟨outside, file, hl, by rw [hentry]; rfl⟩
  · rintro ⟨outside, file, hl, rfl⟩
    have hne : names ≠ [] := by
      rintro rfl
      cases hl
    have he : file.staged names ∈ w.stageAll.repository.index :=
      h.mem_stageAll.mpr ⟨names, file, outside, hl, rfl⟩
    exact ⟨file.staged names, Index.mem_plain.mpr ⟨he, rfl⟩,
      FileEntry.names_staged (h.isName.of_lookup hl).1 hne file, rfl⟩

end IsStageable

end Workspace

end ThreeWay
