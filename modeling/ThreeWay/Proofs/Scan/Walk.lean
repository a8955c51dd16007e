import ThreeWay.Proofs.Scan.State

/-!
# The Walk of a Scan

What the walk through a forest does to the state of a scan, seen at one path.

The proof follows the forest, entry by entry. At one path at most one entry does anything: two entries of
one folder have different names, so a path that lies at or below one of them does not lie below the
other. `Walked` says what is done in terms of the whole forest, and an entry in front of a forest leaves
either its own effect or the effect of the rest.

`Walked` is stated with a field for each kind of path, as these are what the induction needs to be told apart:
below a hidden folder, at a file that is shown, and anywhere else. An entry of the forest changes the kind of a
path only if the path lies at or below its name. `Walked.transport` carries the law from the rest of a forest, or
from the members of a folder, to the whole forest for all the paths whose kind stays the same.

The recursion of the walk has three branches for a folder and one for a file, and `visitLeaf` and `visitFolder`
name what an entry does before the walk goes on. With them the walk has one equation for each kind of entry
(`walk_leaf`, `walk_folder`), and no proof after these looks into its definition.

## Main definitions

* `Scanner.Walked`: What a walk does at a path.

## Theorems

* `fileIn_leaf`, `fileIn_folder`, `folderIn_leaf`, `folderIn_folder`, `hiddenIn_leaf`, `hiddenIn_folder`: What
  stands below a forest and what is hidden there, entry by entry.
* `untouched_of_startsWith`, `untouched_below`: Where one entry lies, the others do nothing.
* `walk_leaf`, `walk_folder`: The walk, entry by entry.
* `walk_induction`: What every single step keeps up, a walk keeps up.
* `returns_visitLeaf`, `returns_visitFolder`: The ways in which an entry is passed.
* `walked_leaf`, `walked_folder`: The law of a forest with one more entry in front.
* `skipped_walk`: What was skipped stays skipped.
* `walk_ordered`, `walk_remaining`: A walk keeps the order, and only takes away from the reference.
* `found_walk`: A walk finds nothing but files.
* `walk_walked`: A walk without anything skipped does at every path what it has to.
* `walk_clean`: A walk with answers to its questions skips nothing.
* `walk_gives`: A walk ends.
-/

namespace ThreeWay

namespace Scanner

open ThreeWay.Path Run

/-- What a walk does at a path: a file that is not hidden is met, below a hidden folder all but ignore
    files are forgotten, and nothing happens anywhere else. -/
structure Walked (c : Scanner) (above : List Bytes) (f : Forest FileEntry Unit) (s s' : State)
    (p : Path) : Prop where
  hidden : c.HiddenIn above f p → s'.remaining.lookup p =
    if c.rules.isRuleFile p then s.remaining.lookup p else none
  met : FileIn above f p → ¬ c.HiddenIn above f p → s'.remaining.lookup p = none
  other : ¬ FileIn above f p → ¬ c.HiddenIn above f p → s'.remaining.lookup p = s.remaining.lookup p
  finds : (∀ k, ¬ s.Finds p k) → FileIn above f p → ¬ c.HiddenIn above f p →
    ∀ k, s'.Finds p k ↔ Met c p (s.remaining.lookup p) k
  keeps : c.HiddenIn above f p ∨ ¬ FileIn above f p → ∀ k, s'.Finds p k ↔ s.Finds p k

section

variable {c : Scanner} {above : List Bytes} {f rest members : Forest FileEntry Unit} {name : Bytes}
  {value : FileEntry} {s s₁ s' : State} {p : Path}

theorem fileIn_leaf (distinct : name ∉ rest.firstNames) :
    FileIn above (.leaf name value rest) p ↔
      (name ≠ Utf8.encode gitFolderName ∧ p = pathOf (above ++ [name])) ∨ FileIn above rest p := by
  unfold FileIn
  simp only [stands_leaf distinct]
  constructor
  · rintro ⟨v, ⟨hg, hp, _⟩ | h⟩
    · exact Or.inl ⟨hg, hp⟩
    · exact Or.inr ⟨v, h⟩
  · rintro (⟨hg, hp⟩ | ⟨v, h⟩)
    · exact ⟨value, Or.inl ⟨hg, hp, rfl⟩⟩
    · exact ⟨v, Or.inr h⟩

theorem fileIn_folder (distinct : name ∉ rest.firstNames) :
    FileIn above (.folder name () members rest) p ↔
      (name ≠ Utf8.encode gitFolderName ∧ FileIn (above ++ [name]) members p) ∨
        FileIn above rest p := by
  unfold FileIn
  simp only [stands_folder distinct]
  constructor
  · rintro ⟨v, ⟨hg, ⟨_, he⟩ | h⟩ | h⟩
    · cases he
    · exact Or.inl ⟨hg, v, h⟩
    · exact Or.inr ⟨v, h⟩
  · rintro (⟨hg, v, h⟩ | ⟨v, h⟩)
    · exact ⟨v, Or.inl ⟨hg, Or.inr h⟩⟩
    · exact ⟨v, Or.inr h⟩

theorem folderIn_leaf (distinct : name ∉ rest.firstNames) :
    FolderIn above (.leaf name value rest) p ↔ FolderIn above rest p := by
  unfold FolderIn
  simp only [stands_leaf distinct, reduceCtorEq, and_false, false_or]

theorem folderIn_folder (distinct : name ∉ rest.firstNames) :
    FolderIn above (.folder name () members rest) p ↔
      (name ≠ Utf8.encode gitFolderName ∧
        (p = pathOf (above ++ [name]) ∨ FolderIn (above ++ [name]) members p)) ∨
        FolderIn above rest p := by
  unfold FolderIn
  simp only [stands_folder distinct]
  constructor
  · rintro ⟨below, ⟨hg, ⟨hp, _⟩ | h⟩ | h⟩
    · exact Or.inl ⟨hg, Or.inl hp⟩
    · exact Or.inl ⟨hg, Or.inr ⟨below, h⟩⟩
    · exact Or.inr ⟨below, h⟩
  · rintro (⟨hg, hp | ⟨below, h⟩⟩ | ⟨below, h⟩)
    · exact ⟨members, Or.inl ⟨hg, Or.inl ⟨hp, rfl⟩⟩⟩
    · exact ⟨below, Or.inl ⟨hg, Or.inr h⟩⟩
    · exact ⟨below, Or.inr h⟩

theorem hiddenIn_leaf (distinct : name ∉ rest.firstNames) :
    c.HiddenIn above (.leaf name value rest) p ↔ c.HiddenIn above rest p := by
  unfold HiddenIn
  simp only [stands_leaf distinct, reduceCtorEq, and_false, false_or]

theorem hiddenIn_folder (distinct : name ∉ rest.firstNames) :
    c.HiddenIn above (.folder name () members rest) p ↔
      (name ≠ Utf8.encode gitFolderName ∧
        (c.rules.isIgnored (pathOf (above ++ [name])) true = .ok true ∧
          p.startsWith (pathOf (above ++ [name])) = true ∨
          c.HiddenIn (above ++ [name]) members p)) ∨
        c.HiddenIn above rest p := by
  unfold HiddenIn
  simp only [stands_folder distinct]
  constructor
  · rintro ⟨folder, ⟨below, ⟨hg, ⟨rfl, _⟩ | h⟩ | h⟩, hi, hp⟩
    · exact Or.inl ⟨hg, Or.inl ⟨hi, hp⟩⟩
    · exact Or.inl ⟨hg, Or.inr ⟨folder, ⟨below, h⟩, hi, hp⟩⟩
    · exact Or.inr ⟨folder, ⟨below, h⟩, hi, hp⟩
  · rintro (⟨hg, ⟨hi, hp⟩ | ⟨folder, ⟨below, h⟩, hi, hp⟩⟩ | ⟨folder, ⟨below, h⟩, hi, hp⟩)
    · exact ⟨_, ⟨members, Or.inl ⟨hg, Or.inl ⟨rfl, rfl⟩⟩⟩, hi, hp⟩
    · exact ⟨folder, ⟨below, Or.inl ⟨hg, Or.inr h⟩⟩, hi, hp⟩
    · exact ⟨folder, ⟨below, Or.inr h⟩, hi, hp⟩

/-- A path that lies below none of the names of a forest is none of its files, and nothing of the forest
    hides it. -/
theorem untouched_of_not_startsWith (ha : ∀ name ∈ above, IsName name) (hf : f.AllNames IsName)
    (h : ∀ name ∈ f.firstNames, ¬ p.startsWith (pathOf (above ++ [name])) = true) :
    ¬ FileIn above f p ∧ ¬ c.HiddenIn above f p := by
  -- A file of the forest lies at or below a name of it, and so does all that a hidden folder hides.
  constructor
  · rintro ⟨v, hs⟩
    rcases hs.startsWith ha hf with ⟨name, hn, hp⟩
    exact h name hn hp
  · rintro ⟨folder, ⟨below, hs⟩, _, hpf⟩
    rcases hs.startsWith ha hf with ⟨name, hn, hp⟩
    exact h name hn (startsWith_trans hpf hp)

/-- A path that lies below one name of a folder is not touched by the entries with other names. -/
theorem untouched_of_startsWith (ha : ∀ name ∈ above, IsName name) (hn : IsName name)
    (hf : f.AllNames IsName) (distinct : name ∉ f.firstNames)
    (h : p.startsWith (pathOf (above ++ [name])) = true) :
    ¬ FileIn above f p ∧ ¬ c.HiddenIn above f p := by
  refine untouched_of_not_startsWith ha hf fun other ho hp => ?_
  exact distinct (eq_of_startsWith ha hn (hf.of_mem_firstNames ho) h hp ▸ ho)

/-- A path that does not lie below a folder is not touched by the members of the folder. -/
theorem untouched_below (ha : ∀ name ∈ above, IsName name) (hf : f.AllNames IsName)
    (h : ¬ p.startsWith (pathOf above) = true) : ¬ FileIn above f p ∧ ¬ c.HiddenIn above f p := by
  refine untouched_of_not_startsWith ha hf fun name hn hp => h (startsWith_trans hp ?_)
  refine startsWith_pathOf_append ha fun n hm => ?_
  exact List.mem_singleton.mp hm ▸ hf.of_mem_firstNames hn

/-- Nothing happens at a path. -/
def Untouched (s s' : State) (p : Path) : Prop :=
  s'.remaining.lookup p = s.remaining.lookup p ∧ ∀ k, s'.Finds p k ↔ s.Finds p k

theorem Untouched.refl (s : State) (p : Path) : Untouched s s p :=
  ⟨rfl, fun _ => Iff.rfl⟩

theorem Walked.untouched (w : Walked c above f s s' p)
    (h : ¬ FileIn above f p ∧ ¬ c.HiddenIn above f p) : Untouched s s' p :=
  ⟨w.other h.1 h.2, w.keeps (Or.inr h.1)⟩

/-- What a walk through one forest does at a path is what a walk through another one has to do, if both
    forests agree about the path and nothing happens there before or afterwards. -/
theorem Walked.transport {above' : List Bytes} {g : Forest FileEntry Unit} {s₂ : State}
    (hfile : FileIn above f p ↔ FileIn above' g p)
    (hhidden : c.HiddenIn above f p ↔ c.HiddenIn above' g p) (before : Untouched s s₁ p)
    (w : Walked c above' g s₁ s₂ p) (afterwards : Untouched s₂ s' p) : Walked c above f s s' p where
  hidden h := by
    rw [afterwards.1, w.hidden (hhidden.mp h), before.1]
  met h h' := by
    rw [afterwards.1]
    exact w.met (hfile.mp h) (mt hhidden.mpr h')
  other h h' := by
    rw [afterwards.1, w.other (mt hfile.mpr h) (mt hhidden.mpr h'), before.1]
  finds fresh h h' k := by
    rw [afterwards.2, ← before.1]
    exact w.finds (fun k hk => fresh k ((before.2 k).mp hk)) (hfile.mp h) (mt hhidden.mpr h') k
  keeps h k := by
    rw [afterwards.2, w.keeps (h.imp hhidden.mp (mt hfile.mpr)), before.2]

/-- What a walk does with a file before it goes on. -/
def visitLeaf (c : Scanner) (above : List Bytes) (name : Bytes) (s : State) : Run State :=
  if name = Utf8.encode gitFolderName then pure s else c.visitFile (above ++ [name]) s

/-- What a walk does with a folder before it goes on. -/
def visitFolder (c : Scanner) (above : List Bytes) (name : Bytes) (members : Forest FileEntry Unit)
    (s : State) : Run State :=
  if name = Utf8.encode gitFolderName then pure s
  else do
    match ← Run.serveAny (.ignored (pathOf (above ++ [name])))
      (c.rules.isIgnored (pathOf (above ++ [name])) true) with
    | .ok true => pure (s.forget (pathOf (above ++ [name])) c.rules.isRuleFile)
    | .ok false => c.walk (above ++ [name]) members s
    | .error e => pure (s.skip (pathOf (above ++ [name])) e)

theorem walk_leaf (c : Scanner) (above : List Bytes) (name : Bytes) (value : FileEntry)
    (rest : Forest FileEntry Unit) (s : State) :
    c.walk above (.leaf name value rest) s = (do
      Run.checkpoint c.signal
      c.walk above rest (← c.visitLeaf above name s)) := by
  rw [walk]
  unfold visitLeaf
  by_cases hg : name = Utf8.encode gitFolderName
  · simp only [hg, if_true]
  · simp only [hg, if_false]

theorem walk_folder (c : Scanner) (above : List Bytes) (name : Bytes)
    (members rest : Forest FileEntry Unit) (s : State) :
    c.walk above (.folder name () members rest) s = (do
      Run.checkpoint c.signal
      c.walk above rest (← c.visitFolder above name members s)) := by
  rw [walk]
  unfold visitFolder
  by_cases hg : name = Utf8.encode gitFolderName
  · simp only [hg, if_true]
  · simp only [hg, if_false, bind_assoc]
    -- After the answer of the rules, both sides take the same way in each case.
    congr 1
    funext _
    congr 1
    funext answer
    rcases answer with e | _ | _
    · rfl
    · rfl
    · rfl

/-- A walk goes past the first file and then through the rest. -/
theorem returns_walk_leaf (h : Returns (c.walk above (.leaf name value rest) s) s') :
    ∃ s₁, Returns (c.visitLeaf above name s) s₁ ∧ Returns (c.walk above rest s₁) s' := by
  rw [walk_leaf] at h
  rcases h.bind with ⟨_, _, h⟩
  exact h.bind

theorem returns_walk_folder (h : Returns (c.walk above (.folder name () members rest) s) s') :
    ∃ s₁, Returns (c.visitFolder above name members s) s₁ ∧ Returns (c.walk above rest s₁) s' := by
  rw [walk_folder] at h
  rcases h.bind with ⟨_, _, h⟩
  exact h.bind

theorem returns_visitLeaf (h : Returns (c.visitLeaf above name s) s') :
    (name = Utf8.encode gitFolderName ∧ s' = s) ∨
      (name ≠ Utf8.encode gitFolderName ∧ Returns (c.visitFile (above ++ [name]) s) s') := by
  unfold visitLeaf at h
  split_ifs at h with hg
  · exact Or.inl ⟨hg, h.pure⟩
  · exact Or.inr ⟨hg, h⟩

/-- A folder is passed over, skipped, forgotten or entered. -/
theorem returns_visitFolder (h : Returns (c.visitFolder above name members s) s') :
    (name = Utf8.encode gitFolderName ∧ s' = s) ∨
      (name ≠ Utf8.encode gitFolderName ∧
        ((∃ e, c.rules.isIgnored (pathOf (above ++ [name])) true = .error e ∧
            s' = s.skip (pathOf (above ++ [name])) e) ∨
          (c.rules.isIgnored (pathOf (above ++ [name])) true = .ok true ∧
            s' = s.forget (pathOf (above ++ [name])) c.rules.isRuleFile) ∨
          (c.rules.isIgnored (pathOf (above ++ [name])) true = .ok false ∧
            Returns (c.walk (above ++ [name]) members s) s'))) := by
  unfold visitFolder at h
  split_ifs at h with hg
  · exact Or.inl ⟨hg, h.pure⟩
  · right
    refine ⟨hg, ?_⟩
    rcases h.bind with ⟨answer, ha, h⟩
    rw [← ha.serveAny]
    rcases answer with e | _ | _
    · exact Or.inl ⟨e, rfl, h.pure⟩
    · exact Or.inr (Or.inr ⟨rfl, h⟩)
    · exact Or.inr (Or.inl ⟨rfl, h.pure⟩)

/-- What every single step keeps up, a walk keeps up. -/
theorem walk_induction {R : State → State → Prop} (refl : ∀ s, R s s)
    (trans : ∀ s₁ s₂ s₃, R s₁ s₂ → R s₂ s₃ → R s₁ s₃)
    (file : ∀ below s s', Returns (c.visitFile below s) s' → R s s')
    (skip : ∀ s p e, c.rules.isIgnored p true = .error e → R s (s.skip p e))
    (forget : ∀ s p, R s (s.forget p c.rules.isRuleFile))
    (h : Returns (c.walk above f s) s') : R s s' := by
  -- On the forest. The relation is between the states at both ends, so it has to be transitive, and the effect of an
  -- entry is one of the steps or a walk through its members.
  induction f generalizing above s s' with
  | nil =>
      rw [walk] at h
      rw [h.pure]
      exact refl s
  | leaf name value rest ih =>
      rcases returns_walk_leaf h with ⟨s₁, h₁, h⟩
      refine trans s s₁ s' ?_ (ih h)
      rcases returns_visitLeaf h₁ with ⟨_, rfl⟩ | ⟨_, h₁⟩
      · exact refl s₁
      · exact file _ _ _ h₁
  | folder name value members rest ihm ih =>
      rcases returns_walk_folder h with ⟨s₁, h₁, h⟩
      refine trans s s₁ s' ?_ (ih h)
      rcases returns_visitFolder h₁ with ⟨_, rfl⟩ | ⟨_, ⟨e, he, rfl⟩ | ⟨_, rfl⟩ | ⟨_, h₁⟩⟩
      · exact refl s₁
      · exact skip s _ e he
      · exact forget s _
      · exact ihm h₁

/-- A walk does not forget what was skipped. -/
theorem skipped_walk (h : Returns (c.walk above f s) s') :
    s.outcome.skipped <+: s'.outcome.skipped :=
  walk_induction (R := fun s s' => s.outcome.skipped <+: s'.outcome.skipped)
    (fun _ => List.prefix_rfl) (fun _ _ _ => List.IsPrefix.trans) (fun _ _ _ => skipped_visitFile)
    (fun s p e _ => s.prefix_skip p e) (fun _ _ => List.prefix_rfl) h

/-- A walk keeps what was found in order. -/
theorem walk_ordered (h : Returns (c.walk above f s) s') (ho : s.Ordered) : s'.Ordered :=
  walk_induction (R := fun s s' => s.Ordered → s'.Ordered) (fun _ => id)
    (fun _ _ _ h₁ h₂ => h₂ ∘ h₁) (fun _ _ _ => visitFile_ordered) (fun _ _ _ _ => id)
    (fun _ _ => id) h ho

/-- A walk only takes entries out of what remains. -/
theorem walk_remaining (h : Returns (c.walk above f s) s') :
    s'.remaining.Sublist s.remaining := by
  refine walk_induction (R := fun s s' => s'.remaining.Sublist s.remaining)
    (fun _ => List.Sublist.refl _) (fun _ _ _ h₁ h₂ => h₂.trans h₁) (fun below s s' h => ?_)
    (fun _ _ _ _ => List.Sublist.refl _) (fun _ _ => List.filter_sublist) h
  rw [visitFile_remaining h]
  exact List.filter_sublist

/-- A walk skips nothing where the questions about the files and folders of the forest have answers. -/
theorem walk_clean (ha : ∀ name ∈ above, IsName name) (named : f.AllNames IsName)
    (distinct : f.Distinct)
    (files : ∀ q, FileIn above f q → c.IsJudged q false ∧ c.IsHashed (c.root.join q.toRaw))
    (folders : ∀ q, FolderIn above f q → c.IsJudged q true)
    (h : Returns (c.walk above f s) s') (clean : s.Clean) : s'.Clean := by
  -- What stands below the members or below the rest stands below the forest, so both get their answers
  -- from it.
  induction f generalizing above s s' with
  | nil =>
      rw [walk] at h
      rw [h.pure]
      exact clean
  | leaf name value rest ih =>
      rcases returns_walk_leaf h with ⟨s₁, h₁, h⟩
      refine ih ha named.2 distinct.2 (fun q hq => files q ((fileIn_leaf distinct.1).mpr (Or.inr hq)))
        (fun q hq => folders q ((folderIn_leaf distinct.1).mpr hq)) h ?_
      rcases returns_visitLeaf h₁ with ⟨_, rfl⟩ | ⟨hg, h₁⟩
      · exact clean
      · have answers := files _ ((fileIn_leaf distinct.1).mpr (Or.inl ⟨hg, rfl⟩))
        have hashed := answers.2
        rw [← fileOf_eq (isName_concat ha named.1)] at hashed
        exact visitFile_clean answers.1 hashed h₁ clean
  | folder name value members rest ihm ih =>
      rcases returns_walk_folder h with ⟨s₁, h₁, h⟩
      refine ih ha named.2.2 distinct.2.2
        (fun q hq => files q ((fileIn_folder distinct.1).mpr (Or.inr hq)))
        (fun q hq => folders q ((folderIn_folder distinct.1).mpr (Or.inr hq))) h ?_
      rcases returns_visitFolder h₁ with ⟨_, rfl⟩ | ⟨hg, ⟨e, he, rfl⟩ | ⟨_, rfl⟩ | ⟨_, h₁⟩⟩
      · exact clean
      · have judged := folders _ ((folderIn_folder distinct.1).mpr (Or.inl ⟨hg, Or.inl rfl⟩))
        exact absurd he judged.not_error
      · exact clean
      · exact ihm (isName_concat ha named.1) named.2.1 distinct.2.1
          (fun q hq => files q ((fileIn_folder distinct.1).mpr (Or.inl ⟨hg, hq⟩)))
          (fun q hq => folders q ((folderIn_folder distinct.1).mpr (Or.inl ⟨hg, Or.inr hq⟩))) h₁ clean

/-- Whatever is skipped, a walk finds nothing but files of the forest. -/
theorem found_walk (distinct : f.Distinct) {k : ChangeKind} (h : Returns (c.walk above f s) s')
    (ho : s.Ordered) (hf : s'.Finds p k) : s.Finds p k ∨ FileIn above f p := by
  -- A change that is found afterwards was found by the rest, by the first entry, or before; the state in between is
  -- in order as well.
  induction f generalizing above s s' with
  | nil =>
      rw [walk] at h
      rw [h.pure] at hf
      exact Or.inl hf
  | leaf name value rest ih =>
      rcases returns_walk_leaf h with ⟨s₁, h₁, hrest⟩
      rcases returns_visitLeaf h₁ with ⟨_, rfl⟩ | ⟨hg, h₁⟩
      · exact (ih distinct.2 hrest ho hf).imp id fun hin => (fileIn_leaf distinct.1).mpr (Or.inr hin)
      · rcases ih distinct.2 hrest (visitFile_ordered h₁ ho) hf with hf | hin
        · exact (found_visitFile h₁ ho hf).imp id fun hp =>
            (fileIn_leaf distinct.1).mpr (Or.inl ⟨hg, hp⟩)
        · exact Or.inr ((fileIn_leaf distinct.1).mpr (Or.inr hin))
  | folder name value members rest ihm ih =>
      rcases returns_walk_folder h with ⟨s₁, h₁, hrest⟩
      have behind : FileIn above rest p → FileIn above (.folder name value members rest) p :=
        fun hin => (fileIn_folder distinct.1).mpr (Or.inr hin)
      rcases returns_visitFolder h₁ with ⟨_, rfl⟩ | ⟨hg, ⟨e, _, rfl⟩ | ⟨_, rfl⟩ | ⟨_, h₁⟩⟩
      · exact (ih distinct.2.2 hrest ho hf).imp id behind
      · exact (ih distinct.2.2 hrest ho hf).imp id behind
      · exact (ih distinct.2.2 hrest ho hf).imp id behind
      · rcases ih distinct.2.2 hrest (walk_ordered h₁ ho) hf with hf | hin
        · exact (ihm distinct.2.1 h₁ ho hf).imp id fun hin =>
            (fileIn_folder distinct.1).mpr (Or.inl ⟨hg, hin⟩)
        · exact Or.inr (behind hin)

theorem clean_of_walk (h : Returns (c.walk above f s) s') (clean : s'.Clean) : s.Clean :=
  List.prefix_nil.mp (clean ▸ skipped_walk h)

/-- A file in front of a forest leaves its own effect at its path and none at others. -/
theorem walked_leaf (ha : ∀ name ∈ above, IsName name) (hn : IsName name)
    (hr : rest.AllNames IsName) (distinct : name ∉ rest.firstNames) (ho : s.Ordered)
    (clean : s₁.Clean) (h₁ : Returns (c.visitLeaf above name s) s₁)
    (w : Walked c above rest s₁ s' p) : Walked c above (.leaf name value rest) s s' p := by
  rcases returns_visitLeaf h₁ with ⟨hg, rfl⟩ | ⟨hg, h₁⟩
  · -- The file is passed over, and for the law it does not exist.
    refine w.transport ?_ (hiddenIn_leaf distinct) (.refl _ p) (.refl _ p)
    rw [fileIn_leaf distinct]
    simp [hg]
  · by_cases hp : p = pathOf (above ++ [name])
    · -- The file is met here, and the rest does not come to its path again.
      have here := isName_concat ha hn
      have hfile : FileIn above (.leaf name value rest) p := (fileIn_leaf distinct).mpr (Or.inl ⟨hg, hp⟩)
      have hrest := untouched_of_startsWith (c := c) ha hn hr distinct
        (hp ▸ startsWith_self p : p.startsWith (pathOf (above ++ [name])) = true)
      have hu := w.untouched hrest
      have hhidden : ¬ c.HiddenIn above (.leaf name value rest) p :=
        mt (hiddenIn_leaf distinct).mp hrest.2
      have hlookup : s'.remaining.lookup p = none := by
        rw [hu.1, visitFile_remaining h₁, State.lookup_meet, if_pos hp]
      subst hp
      exact {
        hidden := fun h => absurd h hhidden
        met := fun _ _ => hlookup
        other := fun h => absurd hfile h
        finds := fun fresh _ _ k => (hu.2 k).trans (visitFile_finds h₁ here ho clean fresh k)
        keeps := fun h => absurd h (not_or.mpr ⟨hhidden, not_not.mpr hfile⟩) }
    -- The path is another one, so meeting the file does nothing there.
    · have hu : Untouched s s₁ p := by
        refine ⟨?_, visitFile_other h₁ ho hp⟩
        rw [visitFile_remaining h₁, State.lookup_meet, if_neg hp]
      refine w.transport ?_ (hiddenIn_leaf distinct) hu (.refl _ p)
      rw [fileIn_leaf distinct]
      simp [hp]

/-- A folder in front of a forest leaves its own effect on the paths that lie below it and none on
    others. -/
theorem walked_folder (ha : ∀ name ∈ above, IsName name) (hn : IsName name)
    (hm : members.AllNames IsName) (hr : rest.AllNames IsName) (distinct : name ∉ rest.firstNames)
    (clean : s₁.Clean) (h₁ : Returns (c.visitFolder above name members s) s₁)
    (ihm : ∀ s s', s'.Clean → Returns (c.walk (above ++ [name]) members s) s' → s.Ordered →
      Walked c (above ++ [name]) members s s' p)
    (ho : s.Ordered) (w : Walked c above rest s₁ s' p) :
    Walked c above (.folder name () members rest) s s' p := by
  have here := isName_concat ha hn
  rcases returns_visitFolder h₁ with ⟨hg, rfl⟩ | ⟨hg, ⟨e, _, rfl⟩ | ⟨hi, rfl⟩ | ⟨hi, h₁⟩⟩
  · -- The folder is passed over, and for the law it does not exist.
    refine w.transport ?_ ?_ (.refl _ p) (.refl _ p)
    · rw [fileIn_folder distinct]
      simp [hg]
    · rw [hiddenIn_folder distinct]
      simp [hg]
  -- The rules gave no answer, which would have been skipped.
  · exact absurd clean (State.not_clean_skip _ _ e)
  · by_cases hp : p.startsWith (pathOf (above ++ [name])) = true
    · -- The folder is left out, and the path lies below it.
      have hu := w.untouched (untouched_of_startsWith ha hn hr distinct hp)
      have hhidden : c.HiddenIn above (.folder name () members rest) p :=
        (hiddenIn_folder distinct).mpr (Or.inl ⟨hg, Or.inl ⟨hi, hp⟩⟩)
      refine ⟨fun _ => ?_, fun _ h => absurd hhidden h, fun _ h => absurd hhidden h,
        fun _ _ h => absurd hhidden h, fun _ k => hu.2 k⟩
      rw [hu.1, State.lookup_forget]
      cases c.rules.isRuleFile p <;> simp [hp]
    -- The path lies elsewhere, and forgetting the folder does not reach it.
    · have below := untouched_below (c := c) here hm hp
      have hu : Untouched s (s.forget (pathOf (above ++ [name])) c.rules.isRuleFile) p := by
        refine ⟨?_, fun k => Iff.rfl⟩
        rw [State.lookup_forget]
        simp [hp]
      refine w.transport ?_ ?_ hu (.refl _ p)
      · rw [fileIn_folder distinct]
        simp [below.1]
      · rw [hiddenIn_folder distinct]
        simp [below.2, hp]
  · -- The folder is entered. A path below it is no business of the rest, and any other path no business
    -- of its members.
    have wm := ihm s s₁ clean h₁ ho
    by_cases hp : p.startsWith (pathOf (above ++ [name])) = true
    · have hrest := untouched_of_startsWith (c := c) ha hn hr distinct hp
      refine wm.transport ?_ ?_ (.refl _ p) (w.untouched hrest)
      · rw [fileIn_folder distinct]
        simp [hg, hrest.1]
      · rw [hiddenIn_folder distinct]
        simp [hg, hi, hrest.2]
    · have below := untouched_below (c := c) here hm hp
      refine w.transport ?_ ?_ (wm.untouched below) (.refl _ p)
      · rw [fileIn_folder distinct]
        simp [below.1]
      · rw [hiddenIn_folder distinct]
        simp [below.2, hp]

/-- A walk that skips nothing does at every path what it has to. -/
theorem walk_walked (ha : ∀ name ∈ above, IsName name) (named : f.AllNames IsName)
    (distinct : f.Distinct) (ho : s.Ordered) (clean : s'.Clean)
    (h : Returns (c.walk above f s) s') : Walked c above f s s' p := by
  induction f generalizing above s s' with
  | nil =>
      rw [walk] at h
      rw [h.pure]
      have hfile : ¬ FileIn above .nil p := fun ⟨_, hs⟩ => not_stands_nil hs
      have hhidden : ¬ c.HiddenIn above .nil p := fun ⟨_, ⟨_, hs⟩, _⟩ => not_stands_nil hs
      exact ⟨fun h => absurd h hhidden, fun h => absurd h hfile, fun _ _ => rfl,
        fun _ h => absurd h hfile, fun _ _ => Iff.rfl⟩
  | leaf name value rest ih =>
      rcases returns_walk_leaf h with ⟨s₁, h₁, h⟩
      -- What is skipped stays skipped, so the state in between has skipped nothing either.
      have clean₁ := clean_of_walk h clean
      have ho₁ : s₁.Ordered := by
        rcases returns_visitLeaf h₁ with ⟨_, rfl⟩ | ⟨_, h₁⟩
        · exact ho
        · exact visitFile_ordered h₁ ho
      exact walked_leaf ha named.1 named.2 distinct.1 ho clean₁ h₁
        (ih ha named.2 distinct.2 ho₁ clean h)
  | folder name value members rest ihm ih =>
      rcases returns_walk_folder h with ⟨s₁, h₁, h⟩
      have clean₁ := clean_of_walk h clean
      have ho₁ : s₁.Ordered := by
        rcases returns_visitFolder h₁ with ⟨_, rfl⟩ | ⟨_, ⟨e, he, rfl⟩ | ⟨_, rfl⟩ | ⟨_, h₁⟩⟩
        · exact ho
        · exact ho
        · exact ho
        · exact walk_ordered h₁ ho
      have here := isName_concat ha named.1
      exact walked_folder ha named.1 named.2.1 named.2.2 distinct.1 clean₁ h₁
        (fun s s' clean h ho => ihm here named.2.1 distinct.2.1 ho clean h) ho
        (ih ha named.2.2 distinct.2.2 ho₁ clean h)

/-- A walk always ends, unless the signal stops it. -/
theorem walk_gives (quiet : Signal.IsQuiet c.signal) (above : List Bytes)
    (f : Forest FileEntry Unit) (s : State) : ∃ s', Gives (c.walk above f s) (.ok s') := by
  -- Every entry ends, in one way or another, and the rest goes on from the state it left.
  induction f generalizing above s with
  | nil => exact ⟨s, by rw [walk]; exact Gives.pure s⟩
  | leaf name value rest ih =>
      have h₁ : ∃ s₁, Gives (c.visitLeaf above name s) (.ok s₁) := by
        unfold visitLeaf
        split_ifs
        · exact ⟨s, Gives.pure s⟩
        · exact c.visitFile_gives _ s
      rcases h₁ with ⟨s₁, h₁⟩
      rcases ih above s₁ with ⟨s', h⟩
      refine ⟨s', ?_⟩
      rw [walk_leaf]
      exact (Gives.checkpoint quiet).bind (h₁.bind h)
  | folder name value members rest ihm ih =>
      have h₁ : ∃ s₁, Gives (c.visitFolder above name members s) (.ok s₁) := by
        unfold visitFolder
        split_ifs
        · exact ⟨s, Gives.pure s⟩
        · rcases hv : c.rules.isIgnored (pathOf (above ++ [name])) true with e | _ | _
          · exact ⟨_, (Gives.serveAny _ _).bind (Gives.pure _)⟩
          · rcases ihm (above ++ [name]) s with ⟨s₁, h₁⟩
            exact ⟨s₁, (Gives.serveAny _ _).bind h₁⟩
          · exact ⟨_, (Gives.serveAny _ _).bind (Gives.pure _)⟩
      rcases h₁ with ⟨s₁, h₁⟩
      rcases ih above s₁ with ⟨s', h⟩
      refine ⟨s', ?_⟩
      rw [walk_folder]
      exact (Gives.checkpoint quiet).bind (h₁.bind h)

end

end Scanner

end ThreeWay
