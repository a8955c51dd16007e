import ThreeWay.Proofs.Scan.Settle

/-!
# A Scan That Only Compares

Where the rules leave nothing out and the reference knows every file that the walk comes to, each file is
compared with what the reference has of it, and nothing else happens. Then the whole outcome can be told, and
what was skipped as well: these are the files that could not be read, in the order of the walk.

A walk through two parts of a forest compares the files of the one and then those of the other. They have
different paths, so neither part touches what the other one reads or finds.

`Compared` says of a list of files what happened to the state, path by path, in terms of the state before. That
makes it composable: two lists without a path in common can be compared one after the other. The induction on the
forest then has nothing to do but split the list of files in the way the walk splits the forest.

## Main definitions

* `Scanner.skipOf`: What is skipped of a file.
* `Scanner.Mismatch`: The content of a file is not what was expected.
* `Scanner.Compared`: Some files were compared, one after the other.

## Theorems

* `Compared.append`: Comparing some files and then others.
* `visitFile_compared`: Meeting a file that is known.
* `walk_compared`: A walk through known files.
* `scan_of_known`: A scan of known files.
-/

namespace ThreeWay

namespace Scanner

open ThreeWay.Path Run

/-- A file that cannot be read is skipped. -/
def skipOf (c : Scanner) (names : List Bytes) : Option Skipped :=
  match c.hash (c.fileOf names) with
  | .ok _ => none
  | .error e => some ⟨pathOf names, e⟩

/-- A file can be read, and its content is not what was expected. -/
def Mismatch (c : Scanner) (names : List Bytes) (expected : Option ContentId) : Prop :=
  ∃ found, c.hash (c.fileOf names) = .ok found ∧ expected ≠ some found

/-- Some files were compared with what was known of them, one after the other. -/
structure Compared (c : Scanner) (files : List (List Bytes)) (s s' : State) : Prop where
  ordered : s.Ordered → s'.Ordered
  met : ∀ p ∈ files.map pathOf, s'.remaining.lookup p = none
  left : ∀ p ∉ files.map pathOf, s'.remaining.lookup p = s.remaining.lookup p
  skipped : s'.outcome.skipped = s.outcome.skipped ++ files.filterMap c.skipOf
  finds : ∀ p k, s'.Finds p k ↔ s.Finds p k ∨
    k = .modification ∧ ∃ names ∈ files, pathOf names = p ∧ c.Mismatch names (s.remaining.lookup p)

/-- Files that are known, and of which nothing was found yet. -/
def Awaited (s : State) (files : List (List Bytes)) : Prop :=
  ∀ p ∈ files.map pathOf, (s.remaining.lookup p).isSome ∧ ∀ k, ¬ s.Finds p k

variable {c : Scanner} {s s₁ s' : State} {files others : List (List Bytes)}

theorem mismatch_of_ok {names : List Bytes} {found : ContentId} (h : c.hash (c.fileOf names) = .ok found)
    (expected : Option ContentId) : c.Mismatch names expected ↔ expected ≠ some found := by
  simp only [Mismatch, h, Except.ok.injEq, exists_eq_left']

theorem not_mismatch_of_error {names : List Bytes} {e : Error} (h : c.hash (c.fileOf names) = .error e)
    (expected : Option ContentId) : ¬ c.Mismatch names expected := by
  rintro ⟨_, hf, _⟩
  cases h.symm.trans hf

theorem Awaited.mono (await : Awaited s others) (h : files ⊆ others) : Awaited s files :=
  fun p hp => await p (List.map_subset pathOf h hp)

theorem Compared.nil (c : Scanner) (s : State) : c.Compared [] s s where
  ordered := id
  met _ h := absurd h List.not_mem_nil
  left _ _ := rfl
  skipped := (List.append_nil _).symm
  finds p k := by
    simp only [List.not_mem_nil, false_and, exists_false, and_false, or_false]

/-- Comparing some files and then others of different paths. -/
theorem Compared.append (first : c.Compared files s s₁) (second : c.Compared others s₁ s')
    (apart : ∀ p ∈ files.map pathOf, p ∉ others.map pathOf) : c.Compared (files ++ others) s s' where
  ordered := second.ordered ∘ first.ordered
  met p hp := by
    by_cases ho : p ∈ others.map pathOf
    · exact second.met p ho
    · rw [List.map_append, List.mem_append] at hp
      rw [second.left p ho, first.met p (hp.resolve_right ho)]
  left p hp := by
    rw [List.map_append, List.mem_append, not_or] at hp
    rw [second.left p hp.2, first.left p hp.1]
  skipped := by
    rw [second.skipped, first.skipped, List.filterMap_append, List.append_assoc]
  finds p k := by
    -- What is left of the reference at a path of the second part is what was there at first.
    have same : (∃ names ∈ others, pathOf names = p ∧ c.Mismatch names (s₁.remaining.lookup p)) ↔
        ∃ names ∈ others, pathOf names = p ∧ c.Mismatch names (s.remaining.lookup p) := by
      refine exists_congr fun names => and_congr_right fun hm => and_congr_right fun hp => ?_
      rw [first.left p fun hf => apart p hf (hp ▸ List.mem_map_of_mem hm)]
    rw [second.finds, first.finds, same, or_assoc, ← and_or_left]
    simp only [List.mem_append, or_and_right, exists_or]

/-- What was awaited besides is still awaited. -/
theorem Compared.awaited (first : c.Compared files s s₁) (await : Awaited s others)
    (apart : ∀ p ∈ files.map pathOf, p ∉ others.map pathOf) : Awaited s₁ others := by
  intro p hp
  have hfree : p ∉ files.map pathOf := fun hf => apart p hf hp
  rw [first.left p hfree]
  refine ⟨(await p hp).1, fun k hk => ?_⟩
  rcases (first.finds p k).mp hk with hs | ⟨_, names, hm, rfl, _⟩
  · exact (await p hp).2 k hs
  · exact hfree (List.mem_map_of_mem hm)

section

variable {below : List Bytes} {expected : ContentId}
  (h : Returns (c.compare (pathOf below) (c.fileOf below) expected s) s')

include h

theorem skipped_of_compare : s'.outcome.skipped = s.outcome.skipped ++ (c.skipOf below).toList := by
  cases hh : c.hash (c.fileOf below) with
  | error e =>
      rw [returns_compare_of_error hh h, skipOf, hh]
      rfl
  | ok found =>
      rw [skipOf, hh, returns_compare_of_ok hh h]
      split_ifs <;> exact (List.append_nil _).symm

theorem finds_of_compare (ho : s.Ordered) (fresh : ∀ k, ¬ s.Finds (pathOf below) k) (p : Path)
    (k : ChangeKind) : s'.Finds p k ↔
      s.Finds p k ∨ k = .modification ∧ pathOf below = p ∧ c.Mismatch below (some expected) := by
  -- A hash that fails finds nothing; one that is had finds a change exactly if it is another one.
  cases hh : c.hash (c.fileOf below) with
  | error e =>
      rw [returns_compare_of_error hh h]
      simp only [not_mismatch_of_error hh, and_false, or_false]
      rfl
  | ok found =>
      rw [returns_compare_of_ok hh h, mismatch_of_ok hh, ne_eq, Option.some.injEq, eq_comm (a := expected)]
      split_ifs with he
      · simp only [he, not_true_eq_false, and_false, or_false]
      · rw [State.finds_record ho]
        simp only [he, ne_eq, not_false_eq_true, and_true]
        by_cases hp : p = pathOf below
        · subst hp
          simp [fresh k]
        · simp [hp, Ne.symm hp]

end

/-- A file that is known is compared when it is met. -/
theorem visitFile_compared {below : List Bytes}
    (kept : c.rules.isIgnored (pathOf below) false = .ok false) (ho : s.Ordered)
    (await : Awaited s [below]) (h : Returns (c.visitFile below s) s') : c.Compared [below] s s' := by
  rcases await (pathOf below) List.mem_cons_self with ⟨known, fresh⟩
  obtain ⟨id, hid, hc⟩ : ∃ id, s.remaining.lookup (pathOf below) = some id ∧
      Returns (c.compare (pathOf below) (c.fileOf below) id (s.meet (pathOf below))) s' := by
    -- The file is neither left out nor new.
    rcases returns_visitFile h with ⟨e, he, _⟩ | ⟨hx, _⟩ | ⟨_, hnone, _⟩ | ⟨id, _, hid, hc⟩
    · cases kept.symm.trans he
    · cases kept.symm.trans hx.2
    · rw [hnone] at known
      cases known
    · exact ⟨id, hid, hc⟩
  have single : ∀ p, p ∈ [below].map pathOf ↔ p = pathOf below := fun p => List.mem_singleton
  have hremaining := visitFile_remaining h
  -- One field after the other: order, the path itself, other paths, what was skipped, what was found.
  refine ⟨fun _ => visitFile_ordered h ho, fun p hp => ?_, fun p hp => ?_, ?_, fun p k => ?_⟩
  · rw [hremaining, State.lookup_meet, if_pos ((single p).mp hp)]
  · rw [hremaining, State.lookup_meet, if_neg (mt (single p).mpr hp)]
  · rw [skipped_of_compare hc, List.filterMap_cons, List.filterMap_nil]
    cases c.skipOf below <;> rfl
  · have hm : (s.meet (pathOf below)).Ordered := ho
    rw [finds_of_compare hc hm fresh, ← hid]
    refine or_congr Iff.rfl (and_congr_right fun _ => ?_)
    constructor
    · rintro ⟨rfl, hd⟩
      exact ⟨below, List.mem_cons_self, rfl, hd⟩
    · rintro ⟨names, hn, hp, hd⟩
      rw [List.mem_singleton.mp hn] at hp hd
      exact ⟨hp, hp ▸ hd⟩

/-- Some files are compared, and then others, if all of them are awaited and no file comes twice. -/
theorem Compared.next (first : c.Compared files s s₁) (ho : s.Ordered)
    (named : ∀ names ∈ files ++ others, ∀ name ∈ names, IsName name) (nodup : (files ++ others).Nodup)
    (await : Awaited s (files ++ others))
    (second : s₁.Ordered → Awaited s₁ others → c.Compared others s₁ s') :
    c.Compared (files ++ others) s s' := by
  -- Different chains of ordinary names are different paths.
  have apart : ∀ p ∈ files.map pathOf, p ∉ others.map pathOf := by
    rintro p hp hq
    rcases List.mem_map.mp hp with ⟨names, hn, rfl⟩
    rcases List.mem_map.mp hq with ⟨more, hm, he⟩
    have hsame := pathOf_injective (named more (List.mem_append_right _ hm))
      (named names (List.mem_append_left _ hn)) he
    exact List.disjoint_of_nodup_append nodup hn (hsame ▸ hm)
  have awaitRest := first.awaited (await.mono (List.subset_append_right files others)) apart
  exact first.append (second (first.ordered ho) awaitRest) apart

/-- The rules leave nothing of a forest out. -/
def Keeps (c : Scanner) (above : List Bytes) (f : Forest FileEntry Unit) : Prop :=
  ∀ p entry, Stands above f p entry → c.rules.isIgnored p entry.isFolder = .ok false

/-- A walk through known files compares them in its order. -/
theorem walk_compared {above : List Bytes} {f : Forest FileEntry Unit} (ha : ∀ name ∈ above, IsName name)
    (outside : Utf8.encode gitFolderName ∉ above) (named : f.AllNames IsName) (distinct : f.Distinct)
    (kept : c.Keeps above f) (ho : s.Ordered) (await : Awaited s (shown above f))
    (h : Returns (c.walk above f s) s') : c.Compared (shown above f) s s' := by
  -- The files of a forest are those of its first entry and those of the rest, so each entry is one use of `next`.
  -- What was awaited of the rest is still awaited after the first entry.
  induction f generalizing above s s' with
  | nil =>
      rw [walk] at h
      rw [h.pure]
      exact .nil c s
  | leaf name value rest ih =>
      rcases returns_walk_leaf h with ⟨s₁, h₁, hrest⟩
      have keptRest : c.Keeps above rest := fun p entry hs =>
        kept p entry ((stands_leaf distinct.1).mpr (Or.inr hs))
      have ordinary : ∀ names ∈ shown above _, ∀ n ∈ names, IsName n := fun _ =>
        isName_of_mem_shown ha named distinct
      have nodup := nodup_shown distinct above
      rw [shown_leaf outside] at await ordinary nodup ⊢
      rcases returns_visitLeaf h₁ with ⟨hg, rfl⟩ | ⟨hg, h₁⟩
      · rw [if_pos hg] at await ⊢
        exact ih ha outside named.2 distinct.2 keptRest ho await hrest
      · rw [if_neg hg] at await ordinary nodup ⊢
        have keptHere := kept _ (.leaf value) ((stands_leaf distinct.1).mpr (Or.inl ⟨hg, rfl, rfl⟩))
        have first := visitFile_compared keptHere ho (await.mono (List.subset_append_left _ _)) h₁
        exact first.next ho ordinary nodup await fun ho₁ awaitRest =>
          ih ha outside named.2 distinct.2 keptRest ho₁ awaitRest hrest
  | folder name value members rest ihm ih =>
      rcases returns_walk_folder h with ⟨s₁, h₁, hrest⟩
      have keptRest : c.Keeps above rest := fun p entry hs =>
        kept p entry ((stands_folder distinct.1).mpr (Or.inr hs))
      have ordinary : ∀ names ∈ shown above _, ∀ n ∈ names, IsName n := fun _ =>
        isName_of_mem_shown ha named distinct
      have nodup := nodup_shown distinct above
      rw [shown_folder outside distinct.2.1] at await ordinary nodup ⊢
      rcases returns_visitFolder h₁ with ⟨hg, rfl⟩ | ⟨hg, entered⟩
      · rw [if_pos hg] at await ⊢
        exact ih ha outside named.2.2 distinct.2.2 keptRest ho await hrest
      · rw [if_neg hg] at await ordinary nodup ⊢
        have keptHere := kept _ (.folder () members)
          ((stands_folder distinct.1).mpr (Or.inl ⟨hg, Or.inl ⟨rfl, rfl⟩⟩))
        have keptMembers : c.Keeps (above ++ [name]) members := fun p entry hs =>
          kept p entry ((stands_folder distinct.1).mpr (Or.inl ⟨hg, Or.inr hs⟩))
        -- The folder is not left out, so the walk goes through its members.
        have hwalk : Returns (c.walk (above ++ [name]) members s) s₁ := by
          rcases entered with ⟨e, he, _⟩ | ⟨hi, _⟩ | ⟨_, hwalk⟩
          · cases keptHere.symm.trans he
          · cases keptHere.symm.trans hi
          · exact hwalk
        have first := ihm (isName_concat ha named.1) (mt (gitFolder_mem_concat_iff outside).mp hg)
          named.2.1 distinct.2.1 keptMembers ho (await.mono (List.subset_append_left _ _)) hwalk
        exact first.next ho ordinary nodup await fun ho₁ awaitRest =>
          ih ha outside named.2.2 distinct.2.2 keptRest ho₁ awaitRest hrest

/-- A table in which no key is found is empty. -/
theorem eq_nil_of_lookup {reference : Reference} (h : ∀ p, reference.lookup p = none) : reference = [] := by
  cases reference with
  | nil => rfl
  | cons e rest =>
      have he := h e.1
      rw [List.lookup_cons_self] at he
      cases he

/-- A scan of known files compares them in the order of the walk, and that is all it does. -/
theorem scan_of_known {members : Forest FileEntry Unit} {reference : Reference}
    (quiet : Signal.IsQuiet c.signal) (hroot : c.disk.stat c.root = .ok (.folder () members))
    (named : members.AllNames IsName) (distinct : members.Distinct) (kept : c.Keeps [] members)
    (known : ∀ p, (reference.lookup p).isSome ↔ p ∈ (shown [] members).map pathOf) :
    ∃ o, Gives (c.scan (.ok reference)) (.ok o) ∧ Ascending Change.path o.changes ∧
      o.skipped = (shown [] members).filterMap c.skipOf ∧
      ∀ p k, ⟨p, k⟩ ∈ o.changes ↔ k = .modification ∧
        ∃ names ∈ shown [] members, pathOf names = p ∧ c.Mismatch names (reference.lookup p) := by
  have ho : (State.mk reference .empty).Ordered := Ascending.nil
  have await : Awaited ⟨reference, .empty⟩ (shown [] members) := fun p hp =>
    ⟨(known p).mpr hp, fun k => List.not_mem_nil⟩
  rcases walk_gives quiet [] members ⟨reference, .empty⟩ with ⟨s', hwalk⟩
  have compared := walk_compared (fun _ hm => absurd hm List.not_mem_nil) List.not_mem_nil named distinct
    kept ho await hwalk.returns
  -- Every file of the reference was met, so nothing is left to settle.
  have hnone : s'.remaining = [] := by
    refine eq_nil_of_lookup fun p => ?_
    by_cases hp : p ∈ (shown [] members).map pathOf
    · exact compared.met p hp
    · rw [compared.left p hp, ← Option.not_isSome_iff_eq_none, known]
      exact hp
  have hsettle : Gives (c.settle s'.remaining s') (.ok s') := by
    rw [hnone, settle]
    exact Gives.pure s'
  refine ⟨s'.outcome, ?_, compared.ordered ho, compared.skipped.trans (List.nil_append _), fun p k => ?_⟩
  · have hstart : c.walkRoot ⟨reference, .empty⟩ = c.walk [] members ⟨reference, .empty⟩ := by
      rw [walkRoot, hroot]
    rw [← hstart] at hwalk
    exact (Gives.ofExcept _).bind (hwalk.bind (hsettle.bind (Gives.pure _)))
  · have nothing : ¬ (State.mk reference .empty).Finds p k := List.not_mem_nil
    exact (compared.finds p k).trans (or_iff_right nothing)

end Scanner

end ThreeWay
