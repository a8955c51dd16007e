import ThreeWay.Ignore.Verdict
import ThreeWay.Proofs.Disk
import ThreeWay.Proofs.Path.Join
import ThreeWay.Proofs.Run

/-!
# What Is Ignored in Any Case

Built-in rules are asked before all others, and one of them names the repository's folder. It is tied to no
place, so everything of that name is left out, whatever the ignore files say and wherever it stands.

The built-in rules say nothing about other names than that one and the dots. So where no ignore file is found,
nothing else is left out.

A verdict is looked for in the files of rules one after the other, and in each of them from the last rule to the
first. The built-in rules come before all files, and what they decide is final. That gives a lower bound on what
is ignored, the repository's folder, and where the other files are empty an upper bound too, nothing else.

Everything in between depends on the files of rules, and no theorem of this development assumes anything about
them. What is needed of them is only that they have an answer about every ordinary path, so that no listing and no
walk fails on a rule.

## Theorems

* `gitFolderRule_applies`, `fileVerdict?_builtIn`: The rule for that folder, and that it is asked first.
* `isIgnored_gitFolder`: What has the name of the repository's folder is ignored.
* `gitFolder_not_mem`: No chain of names goes through that name if nothing on the way is ignored.
* `exists_isIgnored`: The rules have an answer about every ordinary path.
* `accepts_map_byte`: A pattern without wildcards matches itself alone.
* `fileVerdict?_builtIn_of_ne`: The built-in rules say nothing about any other name.
* `isLeftOut_of_no_rules`: Files without rules leave nothing out.
* `readRules_of_none`, `ruleFiles_of_no_rules`: A working tree without ignore files has no rules.
* `isIgnored_of_no_rules`: Without rules nothing else is ignored.
-/

namespace ThreeWay.Ignore

open ThreeWay.Path Scanner

/-- The built-in rule for the repository's folder. -/
def gitFolderRule : IgnoreRule :=
  ⟨Utf8.encode gitFolderName, [], false, false, false, false⟩

theorem getLast?_builtIn : builtIn.getLast? = some gitFolderRule := by
  decide +kernel

/-- The rule looks at the last name alone. -/
theorem gitFolderRule_applies (above : List Bytes) (isFolder : Bool) :
    gitFolderRule.applies (above ++ [Utf8.encode gitFolderName]) isFolder = true := by
  -- The rule is tied to no folder and does not ask for one, so nothing but its pattern is left.
  have hmatch : Wildcard.isMatch false (Utf8.encode gitFolderName) (Utf8.encode gitFolderName) = true := by
    decide +kernel
  simp only [IgnoreRule.applies, gitFolderRule, Bool.not_false, Bool.or_true, List.isPrefixOf,
    Bool.false_eq_true, if_false, List.getLast?_concat, Option.getD_some, hmatch, Bool.and_self]

/-- The last built-in rule speaks about the name, and it is asked first. -/
theorem fileVerdict?_builtIn (above : List Bytes) (isFolder : Bool) :
    fileVerdict? builtIn (above ++ [Utf8.encode gitFolderName]) isFolder = some true := by
  rcases List.getLast?_eq_some_iff.mp getLast?_builtIn with ⟨front, hfront⟩
  -- Within one file the last rule that applies decides, and this is the last one.
  rw [fileVerdict?, hfront, List.reverse_concat, List.find?_cons]
  simp only [gitFolderRule_applies]
  rfl

/-- What has the name of the repository's folder is ignored. -/
theorem isIgnored_gitFolder (d : Disk) (root : RawPath) {above : List Bytes}
    (ha : ∀ name ∈ above, IsName name ∧ 0 ∉ name) (isFolder : Bool) :
    isIgnored d root (pathOf (above ++ [Utf8.encode gitFolderName])) isFolder = .ok true := by
  have hall : ∀ name ∈ above ++ [Utf8.encode gitFolderName], IsName name ∧ 0 ∉ name := by
    intro name hm
    rcases List.mem_append.mp hm with hm | hm
    · exact ha name hm
    · rw [List.mem_singleton.mp hm]
      decide
  have hroot : (pathOf (above ++ [Utf8.encode gitFolderName])).isRoot = false :=
    isRoot_pathOf (fun name hm => (hall name hm).1)
      (List.append_ne_nil_of_right_ne_nil _ (List.cons_ne_nil _ _))
  simp only [isIgnored, hroot, Bool.false_eq_true, if_false, treeNames_pathOf hall]
  -- The first verdict that is asked for is the one about the path itself, and the built-in rules give it.
  simp only [isLeftOut, List.findSome?_cons, verdict?, ruleFiles, List.cons_append,
    fileVerdict?_builtIn, Option.getD_some]

/-- No chain of names goes through the name of the repository's folder if nothing on the way is
    ignored. -/
theorem gitFolder_not_mem {d : Disk} {root : RawPath} {names : List Bytes}
    (hn : ∀ name ∈ names, IsName name ∧ 0 ∉ name)
    (kept : ∀ front, front <+: names → front ≠ [] →
      ∃ isFolder, isIgnored d root (pathOf front) isFolder = .ok false) :
    Utf8.encode gitFolderName ∉ names := by
  intro hmem
  -- Going through the name means to have a path that ends in it on the way, and that one is ignored.
  rcases List.append_of_mem hmem with ⟨above, more, rfl⟩
  have hfront : above ++ [Utf8.encode gitFolderName] <+:
      above ++ Utf8.encode gitFolderName :: more := ⟨more, by simp⟩
  rcases kept _ hfront (List.append_ne_nil_of_right_ne_nil _ (List.cons_ne_nil _ _)) with
    ⟨isFolder, hkept⟩
  have hignored := isIgnored_gitFolder d root
    (fun name hm => hn name (List.mem_append_left _ hm)) isFolder
  cases hkept.symm.trans hignored

/-- The rules have an answer about every ordinary path. A file of rules that cannot be read has none. -/
theorem exists_isIgnored (d : Disk) (root : RawPath) {names : List Bytes}
    (hn : ∀ name ∈ names, IsName name ∧ 0 ∉ name) (isFolder : Bool) :
    ∃ verdict, isIgnored d root (pathOf names) isFolder = .ok verdict := by
  rw [isIgnored, treeNames_pathOf hn]
  split_ifs
  · exact ⟨false, rfl⟩
  · exact ⟨_, rfl⟩

/-! ### A Working Tree Without Rules -/

/-- A pattern without wildcards matches itself alone. -/
theorem accepts_map_byte (paths : Bool) (pattern text : Bytes) :
    Wildcard.accepts paths (pattern.map Wildcard.byte) text = true ↔ text = pattern := by
  -- Byte by byte, with both texts ending at the same time.
  induction pattern generalizing text with
  | nil => cases text <;> simp [Wildcard.accepts]
  | cons b pattern ih =>
      cases text with
      | nil => simp [Wildcard.accepts]
      | cons c text =>
          simp only [List.map_cons, Wildcard.accepts, Bool.and_eq_true, decide_eq_true_eq, ih,
            List.cons.injEq]
          exact and_congr_left fun _ => eq_comm

/-- The built-in rules have no wildcards, and they name the dots and the repository's folder. -/
theorem mem_builtIn : ∀ rule ∈ builtIn, rule.anchored = false ∧
    rule.pattern ∈ [[RawPath.dot], [RawPath.dot, RawPath.dot], Utf8.encode gitFolderName] ∧
    Wildcard.parse? false rule.pattern = some (rule.pattern.map Wildcard.byte) := by
  decide +kernel

/-- The built-in rules say nothing about any other name. -/
theorem fileVerdict?_builtIn_of_ne {above : List Bytes} {name : Bytes} (hn : IsName name)
    (hg : name ≠ Utf8.encode gitFolderName) (isFolder : Bool) :
    fileVerdict? builtIn (above ++ [name]) isFolder = none := by
  rw [fileVerdict?, Option.map_eq_none_iff, List.find?_eq_none]
  intro rule hr happlies
  rcases mem_builtIn rule (List.mem_reverse.mp hr) with ⟨hanchored, hpattern, hparse⟩
  -- A rule that applies has the name as its pattern.
  have hname : name = rule.pattern := by
    simp only [IgnoreRule.applies, hanchored, Bool.and_eq_true, Bool.false_eq_true, if_false,
      List.getLast?_concat, Option.getD_some, Wildcard.isMatch, hparse, Option.any_some,
      accepts_map_byte] at happlies
    exact happlies.2
  rw [← hname, List.mem_cons, List.mem_cons, List.mem_singleton] at hpattern
  -- An ordinary name is not one of the dots, and it is not the one of the repository.
  rcases hpattern with hdot | hdots | hgit
  · exact hn.bytes.2.1 hdot
  · exact hn.bytes.2.2.1 hdots
  · exact hg hgit

theorem verdict?_of_no_rules {files : List (List IgnoreRule)} (plain : ∀ rules ∈ files, rules = [])
    {names : List Bytes} (hn : ∀ name ∈ names, IsName name) (hne : names ≠ [])
    (outside : Utf8.encode gitFolderName ∉ names) (isFolder : Bool) :
    verdict? (builtIn :: files) names isFolder = none := by
  rcases List.eq_nil_or_concat names with rfl | ⟨above, name, rfl⟩
  · exact absurd rfl hne
  · rw [List.concat_eq_append] at hn outside ⊢
    have hmem : name ∈ above ++ [name] := List.mem_append_right _ List.mem_cons_self
    rw [verdict?, List.findSome?_cons,
      fileVerdict?_builtIn_of_ne (hn name hmem) (fun he => outside (he ▸ hmem)),
      List.findSome?_eq_none_iff]
    intro rules hr
    rw [plain rules hr]
    rfl

/-- A folder above a folder is reached by fewer of its names. -/
theorem prefix_of_mem_upwards {names front : List Bytes} (h : front ∈ upwards names) :
    front <+: names := by
  rcases List.mem_map.mp h with ⟨count, _, rfl⟩
  exact List.take_prefix count names

/-- Without rules nothing is left out, unless it is in the repository's folder. -/
theorem isLeftOut_of_no_rules {files : List (List IgnoreRule)} (plain : ∀ rules ∈ files, rules = [])
    {names : List Bytes} (hn : ∀ name ∈ names, IsName name) (hne : names ≠ [])
    (outside : Utf8.encode gitFolderName ∉ names) (isFolder : Bool) :
    isLeftOut (builtIn :: files) names isFolder = false := by
  -- The question is asked of the path and of every folder above it. All of them have ordinary names and lie outside
  -- of the repository.
  have silent : ∀ e ∈ (names, isFolder) ::
      ((upwards names.dropLast).filter (· ≠ [])).map (fun folder => (folder, true)),
      verdict? (builtIn :: files) e.1 e.2 = none := by
    intro e he
    rcases List.mem_cons.mp he with rfl | he
    · exact verdict?_of_no_rules plain hn hne outside isFolder
    · rcases List.mem_map.mp he with ⟨folder, hf, rfl⟩
      rw [List.mem_filter, decide_eq_true_eq] at hf
      have hsub : folder ⊆ names :=
        List.Subset.trans (prefix_of_mem_upwards hf.1).subset (List.dropLast_subset names)
      exact verdict?_of_no_rules plain (fun name hm => hn name (hsub hm)) hf.2
        (fun hm => outside (hsub hm)) true
  rw [isLeftOut, List.findSome?_eq_none_iff.mpr silent, Option.getD_none]

/-- Ordinary names have no steps up to take. -/
theorem settleNames_of_isName {names : List Bytes} (hn : ∀ name ∈ names, IsName name) :
    settleNames names = names := by
  -- The names that were found so far are kept, as only a step up takes one away.
  have hfold : ∀ found : List Bytes, (names.foldl (fun found name =>
      if name = [RawPath.dot, RawPath.dot] then found.dropLast else found ++ [name]) found) =
        found ++ names := by
    induction names with
    | nil => exact fun found => (List.append_nil found).symm
    | cons name rest ih =>
        intro found
        rw [List.foldl_cons, if_neg (hn name List.mem_cons_self).bytes.2.2.1,
          ih fun n hm => hn n (List.mem_cons_of_mem _ hm), List.append_assoc]
        rfl
  exact hfold []

/-- The ignore file of a folder is a file below it. -/
theorem flatMap_append_eq_toRaw {names : List Bytes} (hn : ∀ name ∈ names, IsName name) {last : Bytes}
    (hl : IsName last) : RawPath.mk (names.flatMap (· ++ [RawPath.slash]) ++ last) =
      (pathOf (names ++ [last])).toRaw := by
  -- One side puts a separator behind each folder, and the other one between the names.
  have hbytes : names.flatMap (· ++ [RawPath.slash]) ++ last =
      [RawPath.slash].intercalate (names ++ [last]) := by
    clear hn
    induction names with
    | nil => rw [List.flatMap_nil, List.nil_append, List.nil_append, List.intercalate_singleton]
    | cons name rest ih =>
        have hne : rest ++ [last] ≠ [] := List.append_ne_nil_of_right_ne_nil _ (List.cons_ne_nil _ _)
        rw [List.flatMap_cons, List.append_assoc, ih, List.cons_append,
          List.intercalate_cons_of_ne_nil hne]
  rw [hbytes, ← bytes_toRaw (isName_concat hn hl)]

section

variable {d : Disk} {root : RawPath} {members : Forest FileEntry Unit}
  (tree : d.IsWorkingTree root members)

include tree

/-- A file that is not there has no rules. -/
theorem readRules_of_none {names : List Bytes} (hn : ∀ name ∈ names, IsName name) (hne : names ≠ [])
    (missing : members.lookup names = none) (base : Bytes) :
    readRules d (root.join (pathOf names).toRaw) base = [] := by
  -- What could be read would have been found, at a place where nothing is.
  have hread : ∀ content, d.read (root.join (pathOf names).toRaw) ≠ .ok content := by
    intro content h
    rw [Disk.read] at h
    rcases Run.bind_eq_ok h with ⟨entry, hstat, _⟩
    have hnames := names_pathOf hn
    have hl := tree.lookup_of_stat (isOrdinary_pathOf hn) (hnames.symm ▸ hne) hstat
    rw [hnames, missing] at hl
    cases hl
  rw [readRules]
  cases h : d.read (root.join (pathOf names).toRaw) with
  | ok content => exact absurd h (hread content)
  | error e => rfl

/-- A working tree without ignore files has no rules, if the repository has none either. -/
theorem ruleFiles_of_no_rules (unruled : members.AllNames (· ≠ Utf8.encode ignoreFileName))
    (unlisted : members.lookup
      [Utf8.encode gitFolderName, Utf8.encode "info", Utf8.encode "exclude"] = none)
    {folder : List Bytes} (hn : ∀ name ∈ folder, IsName name) :
    ∃ files, ruleFiles d root folder = builtIn :: files ∧ ∀ rules ∈ files, rules = [] := by
  refine ⟨_, by rw [ruleFiles, List.cons_append], fun rules hr => ?_⟩
  -- A file of rules lies in a folder on the way, under the name that nothing has, or it is the exclude file of the
  -- repository.
  rcases List.mem_append.mp hr with hr | hr
  · rw [settleNames_of_isName hn] at hr
    rcases List.mem_map.mp hr with ⟨names, hm, rfl⟩
    have hnames : ∀ name ∈ names, IsName name := fun name hm' =>
      hn name ((prefix_of_mem_upwards hm).subset hm')
    have hfile : IsName (Utf8.encode ignoreFileName) := by decide
    simp only [flatMap_append_eq_toRaw hnames hfile]
    refine readRules_of_none tree (isName_concat hnames hfile)
      (List.append_ne_nil_of_right_ne_nil _ (List.cons_ne_nil _ _)) ?_ _
    by_contra hne
    rcases Option.ne_none_iff_exists'.mp hne with ⟨entry, hl⟩
    exact (unruled.of_lookup hl).1 _ (List.mem_append_right _ List.mem_cons_self) rfl
  · rw [List.mem_singleton.mp hr]
    have hexclude : (root.join (.ofString gitFolderName)).join (.ofString "info/exclude") =
        root.join (pathOf [Utf8.encode gitFolderName, Utf8.encode "info", Utf8.encode "exclude"]).toRaw :=
      join_join root (by decide) (by decide) (by decide) (by decide) (by decide +kernel)
    simp only [hexclude]
    exact readRules_of_none tree (by decide) (List.cons_ne_nil _ _) unlisted _

/-- In a working tree without ignore files, in which the repository excludes nothing, nothing is ignored
    outside of the repository's folder. -/
theorem isIgnored_of_no_rules (unruled : members.AllNames (· ≠ Utf8.encode ignoreFileName))
    (unlisted : members.lookup
      [Utf8.encode gitFolderName, Utf8.encode "info", Utf8.encode "exclude"] = none)
    {names : List Bytes} (hn : ∀ name ∈ names, IsName name ∧ 0 ∉ name)
    (outside : Utf8.encode gitFolderName ∉ names) (isFolder : Bool) :
    isIgnored d root (pathOf names) isFolder = .ok false := by
  by_cases hne : names = []
  · rw [hne]
    rfl
  · have named : ∀ name ∈ names, IsName name := fun name hm => (hn name hm).1
    have hroot : (pathOf names).isRoot = false := isRoot_pathOf named hne
    have above : ∀ name ∈ names.dropLast, IsName name := fun name hm =>
      named name (List.dropLast_subset names hm)
    rcases ruleFiles_of_no_rules tree unruled unlisted above with ⟨files, hfiles, plain⟩
    simp only [isIgnored, hroot, Bool.false_eq_true, if_false, treeNames_pathOf hn, hfiles,
      isLeftOut_of_no_rules plain named hne outside]

end

end ThreeWay.Ignore
