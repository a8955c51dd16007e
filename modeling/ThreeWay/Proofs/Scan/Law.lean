import ThreeWay.Proofs.Disk
import ThreeWay.Proofs.Path.Below

/-!
# What a Scan Has to Report

The law of a scan, path by path. It knows nothing of the walk and nothing of the order in which the
reference is used up: whether a path is reported depends on what stands at the path, on the folders
above it and on what the reference records for it.

`Stands` looks a path up below a folder, passing over the repository's own folder. Only what has a name
stands somewhere: the root is what is scanned, it is no folder of the working tree, and the rules are not
asked about it. The lemmas beside `Stands` say what stands below a forest of one more entry, so that a
proof about the walk can follow the forest.

Distinct names are needed for nothing but this: a path then leads to one entry, so the entry in front of a forest
and the rest of it never speak about the same path. The list of files in the order of a walk is given beside the
law, since some scans are told file by file.

## Main definitions

* `Scanner.Stands`: What stands at a path below a folder.
* `Scanner.FileAt`, `Scanner.FolderAt`: A file, and a folder, of the working tree stands at a path.
* `Scanner.shown`: The files below a folder, in the order in which a walk comes to them.
* `Scanner.Hidden`, `Scanner.Excluded`: What the ignore rules leave out.
* `Scanner.Reported`: What a scan has to report.

## Theorems

* `stands_cons`, `stands_leaf`, `stands_folder`: What stands below a forest, entry by entry.
* `Stands.startsWith`: What stands below a forest lies at or below one of its names.
* `shown_leaf`, `shown_folder`: The files of a forest, entry by entry.
* `mem_shown_iff`: They are what its chains of names lead to.
-/

namespace ThreeWay

namespace Scanner

open ThreeWay.Path

/-- What stands at a path below a folder that is reached by some names. The repository's folder is passed
    over with everything below it. -/
def Stands (above : List Bytes) (members : Forest FileEntry Unit) (p : Path) (entry : DiskEntry) :
    Prop :=
  ∃ names, Utf8.encode gitFolderName ∉ names ∧ members.lookup names = some entry ∧
    pathOf (above ++ names) = p

/-- A file stands at a path below a folder. -/
def FileIn (above : List Bytes) (members : Forest FileEntry Unit) (p : Path) : Prop :=
  ∃ value, Stands above members p (.leaf value)

/-- A folder stands at a path below a folder. -/
def FolderIn (above : List Bytes) (members : Forest FileEntry Unit) (p : Path) : Prop :=
  ∃ below, Stands above members p (.folder () below)

/-- A path below a folder, or a folder above the path, is a folder on the disk that the rules leave
    out. -/
def HiddenIn (c : Scanner) (above : List Bytes) (members : Forest FileEntry Unit) (p : Path) :
    Prop :=
  ∃ folder, (∃ below, Stands above members folder (.folder () below)) ∧
    c.rules.isIgnored folder true = .ok true ∧ p.startsWith folder = true

/-- A file of the working tree stands at a path. -/
def FileAt (members : Forest FileEntry Unit) (p : Path) : Prop :=
  FileIn [] members p

/-- A folder of the working tree stands at a path. -/
def FolderAt (members : Forest FileEntry Unit) (p : Path) : Prop :=
  FolderIn [] members p

/-- A path, or a folder above it, is a folder of the working tree that the rules leave out. -/
def Hidden (c : Scanner) (members : Forest FileEntry Unit) (p : Path) : Prop :=
  c.HiddenIn [] members p

/-- The files below a folder that is reached by some names, as chains of names in the order of a walk. The
    repository's folder is passed over with everything below it. -/
def shown (above : List Bytes) (f : Forest FileEntry Unit) : List (List Bytes) :=
  ((f.leavesFrom above).map Prod.fst).filter fun names => !names.contains (Utf8.encode gitFolderName)

/-- A path that the rules leave out as a file, and that is no ignore file. -/
def Excluded (c : Scanner) (p : Path) : Prop :=
  c.rules.isRuleFile p = false ∧ c.rules.isIgnored p false = .ok true

/-- The id of the file at a path is another one. -/
def Unequal (c : Scanner) (p : Path) (id : ContentId) : Prop :=
  c.hash (c.root.join p.toRaw) ≠ .ok id

/-- What a scan reports. A file that is not hidden is new or changed. Below an ignored folder only an
    ignore file that the reference knows is looked at. What the reference knows and the disk does not
    have was deleted, unless it is left out now. -/
inductive Reported (c : Scanner) (members : Forest FileEntry Unit) (reference : Reference) :
    Path → ChangeKind → Prop
  | new (p : Path) (file : FileAt members p) (shown : ¬ c.Hidden members p) (kept : ¬ c.Excluded p)
      (unknown : reference.lookup p = none) : Reported c members reference p .addition
  | changed (p : Path) (id : ContentId) (file : FileAt members p) (shown : ¬ c.Hidden members p)
      (kept : ¬ c.Excluded p) (known : reference.lookup p = some id) (unequal : c.Unequal p id) :
      Reported c members reference p .modification
  | changedRules (p : Path) (id : ContentId) (file : FileAt members p)
      (hidden : c.Hidden members p) (rules : c.rules.isRuleFile p = true)
      (known : reference.lookup p = some id) (unequal : c.Unequal p id) :
      Reported c members reference p .modification
  | deleted (p : Path) (id : ContentId) (missing : ¬ FileAt members p)
      (known : reference.lookup p = some id) (kept : ¬ c.Excluded p)
      (shown : ¬ c.Hidden members p ∨ c.rules.isRuleFile p = true) :
      Reported c members reference p .deletion

section

variable {above : List Bytes} {p : Path} {entry : DiskEntry}

theorem not_stands_nil : ¬ Stands above .nil p entry := by
  rintro ⟨names, _, hl, _⟩
  exact Forest.not_lookup_nil hl

/-- Below a forest stands its first entry, or what stands below that entry, or what stands below the
    rest. -/
theorem stands_cons {name : Bytes} {first : DiskEntry} {rest : Forest FileEntry Unit}
    (distinct : name ∉ rest.firstNames) :
    Stands above (.cons name first rest) p entry ↔
      (name ≠ Utf8.encode gitFolderName ∧
        (p = pathOf (above ++ [name]) ∧ entry = first ∨
          Stands (above ++ [name]) first.members p entry)) ∨
        Stands above rest p entry := by
  unfold Stands
  simp only [Forest.lookup_cons_eq_some_iff distinct]
  -- A chain of names ends at the first entry, goes on below it, or starts with the name of another one. The
  -- repository's folder is excluded from the chain, so its name is put aside in each case.
  constructor
  · rintro ⟨names, hg, ⟨rfl, rfl⟩ | ⟨more, rfl, hl⟩ | hl, hp⟩
    · rw [List.mem_singleton] at hg
      exact Or.inl ⟨Ne.symm hg, Or.inl ⟨hp.symm, rfl⟩⟩
    · rw [List.mem_cons, not_or] at hg
      refine Or.inl ⟨Ne.symm hg.1, Or.inr ⟨more, hg.2, hl, ?_⟩⟩
      rw [← hp, List.append_assoc]
      rfl
    · exact Or.inr ⟨names, hg, hl, hp⟩
  · rintro (⟨hg, ⟨rfl, rfl⟩ | ⟨names, hgs, hl, hp⟩⟩ | ⟨names, hg, hl, hp⟩)
    · refine ⟨[name], ?_, Or.inl ⟨rfl, rfl⟩, rfl⟩
      rw [List.mem_singleton]
      exact Ne.symm hg
    · refine ⟨name :: names, ?_, Or.inr (Or.inl ⟨names, rfl, hl⟩), ?_⟩
      · rw [List.mem_cons, not_or]
        exact ⟨Ne.symm hg, hgs⟩
      · rw [← hp, List.append_assoc]
        rfl
    · exact ⟨names, hg, Or.inr (Or.inr hl), hp⟩

/-- Below a forest that starts with a file stands that file, or what stands below the rest. -/
theorem stands_leaf {name : Bytes} {value : FileEntry} {rest : Forest FileEntry Unit}
    (distinct : name ∉ rest.firstNames) :
    Stands above (.leaf name value rest) p entry ↔
      (name ≠ Utf8.encode gitFolderName ∧ p = pathOf (above ++ [name]) ∧ entry = .leaf value) ∨
        Stands above rest p entry := by
  have h := @stands_cons above p entry name (.leaf value) rest distinct
  -- Nothing stands below a file.
  have hmembers : ¬ Stands (above ++ [name]) (Forest.Entry.leaf value : DiskEntry).members p entry :=
    not_stands_nil
  simp only [hmembers, or_false] at h
  exact h

/-- Below a forest that starts with a folder stands that folder, what stands below it, or what stands
    below the rest. -/
theorem stands_folder {name : Bytes} {members rest : Forest FileEntry Unit}
    (distinct : name ∉ rest.firstNames) :
    Stands above (.folder name () members rest) p entry ↔
      (name ≠ Utf8.encode gitFolderName ∧
        (p = pathOf (above ++ [name]) ∧ entry = .folder () members ∨
          Stands (above ++ [name]) members p entry)) ∨
        Stands above rest p entry :=
  @stands_cons above p entry name (.folder () members) rest distinct

/-- What stands below a forest lies at or below one of its names. -/
theorem Stands.startsWith {f : Forest FileEntry Unit} (ha : ∀ name ∈ above, IsName name)
    (hf : f.AllNames IsName) (h : Stands above f p entry) :
    ∃ name ∈ f.firstNames, p.startsWith (pathOf (above ++ [name])) = true := by
  rcases h with ⟨names, _, hl, rfl⟩
  have named := (hf.of_lookup hl).1
  -- The empty chain leads to no entry, so the first name of the chain is the one that is asked for.
  cases names with
  | nil => cases hl
  | cons name more =>
      rcases Option.bind_eq_some_iff.mp hl with ⟨below, hfind, _⟩
      refine ⟨name, Forest.mem_firstNames_of_find? hfind, ?_⟩
      have hc : above ++ name :: more = (above ++ [name]) ++ more := by
        rw [List.append_assoc]
        rfl
      rw [hc]
      exact startsWith_pathOf_append (isName_concat ha (named name List.mem_cons_self))
        fun n hn => named n (List.mem_cons_of_mem _ hn)

end

section

variable {above names : List Bytes} {name : Bytes} {f members rest : Forest FileEntry Unit}

theorem mem_shown_iff (distinct : f.Distinct) : names ∈ shown above f ↔
    Utf8.encode gitFolderName ∉ names ∧
      ∃ more file, names = above ++ more ∧ f.lookup more = some (.leaf file) := by
  rw [shown, List.mem_filter, Bool.not_eq_true', ← Bool.not_eq_true, List.contains_iff_mem, and_comm]
  -- The leaves of a forest are what its chains of names lead to, and the filter only looks at the chain.
  refine and_congr_right fun _ => ?_
  rw [List.mem_map]
  constructor
  · rintro ⟨⟨_, file⟩, he, rfl⟩
    rcases (Forest.mem_leavesFrom_iff distinct _ _ file).mp he with ⟨more, hn, hl⟩
    exact ⟨more, file, hn, hl⟩
  · rintro ⟨more, file, hn, hl⟩
    exact ⟨(names, file), (Forest.mem_leavesFrom_iff distinct _ _ file).mpr ⟨more, hn, hl⟩, rfl⟩

theorem mem_shown_root_iff (distinct : f.Distinct) : names ∈ shown [] f ↔
    Utf8.encode gitFolderName ∉ names ∧ ∃ file, f.lookup names = some (.leaf file) := by
  rw [mem_shown_iff distinct]
  simp only [List.nil_append, ↓existsAndEq, true_and]

/-- No file is shown twice. -/
theorem nodup_shown (distinct : f.Distinct) (above : List Bytes) : (shown above f).Nodup :=
  (Forest.nodup_leavesFrom distinct above).filter _

theorem isName_of_mem_shown (ha : ∀ name ∈ above, IsName name) (named : f.AllNames IsName)
    (distinct : f.Distinct) (h : names ∈ shown above f) : ∀ name ∈ names, IsName name := by
  rcases (mem_shown_iff distinct).mp h with ⟨_, more, _, rfl, hl⟩
  intro name hm
  rcases List.mem_append.mp hm with hm | hm
  · exact ha name hm
  · exact (named.of_lookup hl).1 name hm

/-- Below the repository's folder nothing is shown. -/
theorem shown_of_mem (h : Utf8.encode gitFolderName ∈ above) (distinct : f.Distinct) : shown above f = [] := by
  -- Every chain that is shown goes on from the names above, and one of them is the folder's.
  refine List.eq_nil_iff_forall_not_mem.mpr fun names hm => ?_
  rcases (mem_shown_iff distinct).mp hm with ⟨outside, more, _, rfl, _⟩
  exact outside (List.mem_append_left _ h)

variable (outside : Utf8.encode gitFolderName ∉ above)

include outside

theorem gitFolder_mem_concat_iff :
    Utf8.encode gitFolderName ∈ above ++ [name] ↔ name = Utf8.encode gitFolderName := by
  rw [List.mem_append, List.mem_singleton, or_iff_right outside, eq_comm]

theorem shown_leaf (value : FileEntry) : shown above (.leaf name value rest) =
    if name = Utf8.encode gitFolderName then shown above rest
    else (above ++ [name]) :: shown above rest := by
  have hiff : Utf8.encode gitFolderName ∈ above ++ [name] ↔ _ := gitFolder_mem_concat_iff outside
  unfold shown
  rw [Forest.leavesFrom, List.map_cons]
  -- The filter takes the chain out exactly if its last name is the folder's, as none above it is.
  split_ifs with hg
  · exact List.filter_cons_of_neg (by simp [hiff.mpr hg])
  · exact List.filter_cons_of_pos (by simp [mt hiff.mp hg])

theorem shown_folder (distinct : members.Distinct) : shown above (.folder name () members rest) =
    if name = Utf8.encode gitFolderName then shown above rest
    else shown (above ++ [name]) members ++ shown above rest := by
  have hcut : shown above (.folder name () members rest) =
      shown (above ++ [name]) members ++ shown above rest := by
    rw [shown, Forest.leavesFrom, List.map_append, List.filter_append]
    rfl
  -- Below the repository's folder nothing is shown, so its part of the list is empty.
  split_ifs with hg
  · rw [hcut, shown_of_mem ((gitFolder_mem_concat_iff outside).mpr hg) distinct, List.nil_append]
  · exact hcut

end

end Scanner

end ThreeWay
