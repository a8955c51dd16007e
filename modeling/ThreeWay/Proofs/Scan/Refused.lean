import ThreeWay.Proofs.Scan.Script

/-!
# Looking Twice at a Path

A scan looks at a path in two places: on its walk, and again in the end if the reference knows the path and the
walk has left it there. A file that is met is taken out of the reference before anything else is done about it,
so it is not looked at twice, whatever the rules and the hashes answer.

A folder is another matter. If the rules give no answer about it, the walk skips it and leaves the reference as
it is, since the files below it are to be settled one by one. The path of the folder itself may stand there too,
from a time when a file was there. Then it is looked at once more, now as a file.

So no path has two steps but that of a refused folder, and it has one on the walk and one in the end.

The proofs go along the forest, and the definition is made for that: `RefusedIn` is about a folder below any
folder, so that a refused folder of the members is one of the whole if the folder that holds them is entered. The
reference is arbitrary in each of the inductions, since every entry passes on what it has left of it.

A step on the walk is about a path that stands in the forest, and a step in the end about one that was left in the
reference. For one path to have both, the walk must have come to it without taking it out. The only entry that
does so is a folder without an answer.

## Main definitions

* `Scanner.RefusedIn`, `Scanner.Refused`: A folder that a walk comes to and that the rules do not answer about.
* `Scanner.firstLook`, `Scanner.secondLook`: The steps on the walk, and those in the end.

## Theorems

* `refusedIn_leaf`, `refusedIn_folder`: The refused folders of a forest, entry by entry.
* `stands_of_mem_walkSteps`: A walk takes steps about files and about refused folders.
* `refuse_mem_walkSteps`: It takes one about every refused folder.
* `startsWith_of_mem_walkSteps`, `not_mem_paths_of_startsWith`: Where the steps of a walk lie.
* `nodup_walkSteps`: It takes one step about a path.
* `mem_left_of_untouched`: What lies neither at a file nor below a hidden folder is left in the reference.
* `refused_of_mem_left`: What a walk has taken a step about and has left in the reference is a refused folder.
* `settleSteps_of_refused`: The second look at a refused folder.
* `refused_of_steps`: What a path comes to that is looked at twice.
* `nodup_firstLook`, `nodup_secondLook`, `eq_or_refused`: No path is looked at twice in one of the two places.
* `nodup_script`: A path has one step, where the rules have an answer about every folder.
-/

namespace ThreeWay

namespace Scanner

open ThreeWay.Path Run

/-- A folder below a folder that is reached by some names, about which the rules give no answer, while they have
    every folder on the way to it entered. -/
def RefusedIn (r : IgnoreRules) (above : List Bytes) (members : Forest FileEntry Unit) (p : Path) : Prop :=
  ∃ names below, Utf8.encode gitFolderName ∉ names ∧ members.lookup names = some (.folder () below) ∧
    pathOf (above ++ names) = p ∧ (∃ e, r.isIgnored p true = .error e) ∧
    ∀ front, front <+: names → front ≠ [] → front ≠ names → r.isIgnored (pathOf (above ++ front)) true = .ok false

/-- A folder of the working tree that a scan comes to and does not enter, because the rules give no answer about
    it. -/
def Refused (c : Scanner) (members : Forest FileEntry Unit) (p : Path) : Prop :=
  RefusedIn c.rules [] members p

/-- The steps of a scan on its walk. -/
def firstLook (c : Scanner) (members : Forest FileEntry Unit) (reference : Reference) : List Step :=
  (c.rules.walkSteps [] members reference).1

/-- The steps of a scan in the end, about what the walk has left of the reference. -/
def secondLook (c : Scanner) (members : Forest FileEntry Unit) (reference : Reference) : List Step :=
  (c.rules.walkSteps [] members reference).2.flatMap c.settleSteps

section

variable {r : IgnoreRules} {above : List Bytes} {f members rest : Forest FileEntry Unit} {name : Bytes} {p : Path}

theorem RefusedIn.unanswered (h : RefusedIn r above f p) : ∃ e, r.isIgnored p true = .error e := by
  rcases h with ⟨_, _, _, _, _, he, _⟩
  exact he

theorem RefusedIn.stands (h : RefusedIn r above f p) : FolderIn above f p := by
  rcases h with ⟨names, below, hg, hl, hp, _⟩
  exact ⟨below, names, hg, hl, hp⟩

theorem refusedIn_leaf {value : FileEntry} (distinct : name ∉ rest.firstNames) :
    RefusedIn r above (.leaf name value rest) p ↔ RefusedIn r above rest p := by
  unfold RefusedIn
  have hl : ∀ {names below}, (Forest.leaf name value rest).lookup names = some (.folder () below) ↔
      rest.lookup names = some (.folder () below) := by
    intro names below
    refine (@Forest.lookup_cons_eq_some_iff FileEntry Unit name (.leaf value) _ rest distinct _).trans
      ⟨?_, fun h => Or.inr (Or.inr h)⟩
    rintro (⟨_, he⟩ | ⟨more, _, hm⟩ | h)
    · cases he
    · exact absurd hm Forest.not_lookup_nil
    · exact h
  simp only [hl]

theorem refusedIn_folder (distinct : name ∉ rest.firstNames) :
    RefusedIn r above (.folder name () members rest) p ↔
      (name ≠ Utf8.encode gitFolderName ∧
        (p = pathOf (above ++ [name]) ∧ (∃ e, r.isIgnored p true = .error e) ∨
          r.isIgnored (pathOf (above ++ [name])) true = .ok false ∧ RefusedIn r (above ++ [name]) members p)) ∨
        RefusedIn r above rest p := by
  have hcut : ∀ more, above ++ name :: more = above ++ [name] ++ more := fun more => by
    rw [List.append_assoc, List.singleton_append]
  -- A chain ends at this folder, enters it, or belongs to the rest. On the way below it, the folder itself is one of
  -- those that have to be entered.
  constructor
  · rintro ⟨names, below, hg, hl, hp, hfail, hway⟩
    rcases (@Forest.lookup_cons_eq_some_iff FileEntry Unit name (.folder () members) _ rest distinct _).mp hl with
      ⟨rfl, _⟩ | ⟨more, rfl, hm⟩ | hrest
    · exact Or.inl ⟨fun he => hg (he ▸ List.mem_singleton_self _), Or.inl ⟨hp.symm, hfail⟩⟩
    · rw [List.mem_cons, not_or] at hg
      have hmore : more ≠ [] := by
        rintro rfl
        cases hm
      refine Or.inl ⟨Ne.symm hg.1, Or.inr ⟨?_, more, below, hg.2, hm, hcut more ▸ hp, hfail, ?_⟩⟩
      · refine hway [name] ⟨more, rfl⟩ (List.cons_ne_nil _ _) fun he => hmore ?_
        exact (List.cons.inj he).2.symm
      · intro front hf hne hall
        rw [← hcut]
        refine hway (name :: front) (List.cons_prefix_cons.mpr ⟨rfl, hf⟩) (List.cons_ne_nil _ _) fun he => hall ?_
        exact (List.cons.inj he).2
    · exact Or.inr ⟨names, below, hg, hrest, hp, hfail, hway⟩
  · have hl := fun {names} {below : Forest FileEntry Unit} =>
      (@Forest.lookup_cons_eq_some_iff FileEntry Unit name (.folder () members) (.folder () below) rest distinct
        names).mpr
    rintro (⟨hg, ⟨rfl, hfail⟩ | ⟨hkept, more, below, hgs, hm, hp, hfail, hway⟩⟩ |
      ⟨names, below, hg, hrest, hp, hfail, hway⟩)
    · refine ⟨[name], members, ?_, hl (Or.inl ⟨rfl, rfl⟩), rfl, hfail, ?_⟩
      · rw [List.mem_singleton]
        exact Ne.symm hg
      · intro front hf hne hall
        cases front with
        | nil => exact absurd rfl hne
        | cons first front =>
            rcases List.cons_prefix_cons.mp hf with ⟨rfl, hnil⟩
            exact absurd (congrArg _ (List.prefix_nil.mp hnil)) hall
    · refine ⟨name :: more, below, ?_, hl (Or.inr (Or.inl ⟨more, rfl, hm⟩)), hcut more ▸ hp, hfail, ?_⟩
      · rw [List.mem_cons, not_or]
        exact ⟨Ne.symm hg, hgs⟩
      · intro front hf hne hall
        cases front with
        | nil => exact absurd rfl hne
        | cons first front =>
            rcases List.cons_prefix_cons.mp hf with ⟨rfl, hfront⟩
            by_cases hnil : front = []
            · rw [hnil]
              exact hkept
            · rw [hcut]
              exact hway front hfront hnil fun he => hall (he ▸ rfl)
    · exact ⟨names, below, hg, hl (Or.inr (Or.inr hrest)), hp, hfail, hway⟩

/-! ### The Steps of a Walk -/

variable {left : Reference} {step : Step}

theorem path_of_mem_meetSteps {known : Option ContentId} {q : Path} (h : step ∈ r.meetSteps known q) :
    step.path = q :=
  List.mem_singleton.mp ((paths_meetSteps known q).subset (List.mem_map_of_mem h))

/-- A walk takes steps about files and about refused folders. -/
theorem stands_of_mem_walkSteps (distinct : f.Distinct) (hs : step ∈ (r.walkSteps above f left).1) :
    FileIn above f step.path ∨ RefusedIn r above f step.path := by
  -- Each entry adds its own steps to those of the rest; those of an entered folder are about what stands below it.
  induction f generalizing above left with
  | nil => exact absurd hs List.not_mem_nil
  | leaf name value rest ih =>
      rw [fileIn_leaf distinct.1, refusedIn_leaf distinct.1]
      by_cases hg : name = Utf8.encode gitFolderName
      · rw [IgnoreRules.walkSteps, if_pos hg] at hs
        exact (ih distinct.2 hs).imp_left Or.inr
      · rw [IgnoreRules.walkSteps_leaf hg rfl, Prod.map_fst, List.mem_append] at hs
        rcases hs with hs | hs
        · exact Or.inl (Or.inl ⟨hg, path_of_mem_meetSteps hs⟩)
        · exact (ih distinct.2 hs).imp_left Or.inr
  | folder name value members rest ihm ih =>
      rw [fileIn_folder distinct.1, refusedIn_folder distinct.1]
      by_cases hg : name = Utf8.encode gitFolderName
      · rw [IgnoreRules.walkSteps, if_pos hg] at hs
        exact (ih distinct.2.2 hs).imp Or.inr Or.inr
      · rcases hi : r.isIgnored (pathOf (above ++ [name])) true with e | _ | _
        · rw [IgnoreRules.walkSteps_refused hg hi, Prod.map_fst, List.mem_cons] at hs
          rcases hs with rfl | hs
          · exact Or.inr (Or.inl ⟨hg, Or.inl ⟨rfl, e, hi⟩⟩)
          · exact (ih distinct.2.2 hs).imp Or.inr Or.inr
        · rw [IgnoreRules.walkSteps_entered hg hi, Prod.map_fst, List.mem_append] at hs
          rcases hs with hs | hs
          · exact (ihm distinct.2.1 hs).imp (fun h => Or.inl ⟨hg, h⟩) fun h => Or.inl ⟨hg, Or.inr ⟨rfl, h⟩⟩
          · exact (ih distinct.2.2 hs).imp Or.inr Or.inr
        · rw [IgnoreRules.walkSteps_left_out hg hi] at hs
          exact (ih distinct.2.2 hs).imp Or.inr Or.inr

/-- A walk takes a step about every refused folder. -/
theorem refuse_mem_walkSteps (distinct : f.Distinct) (h : RefusedIn r above f p) {e : Error}
    (he : r.isIgnored p true = .error e) : Step.refuse p e ∈ (r.walkSteps above f left).1 := by
  -- The refused folder is the first entry, lies below it, or belongs to the rest. What the rest starts from differs
  -- by what the first entry took out, and so the reference is arbitrary.
  induction f generalizing above left with
  | nil =>
      rcases h with ⟨names, below, _, hl, _⟩
      exact absurd hl Forest.not_lookup_nil
  | leaf name value rest ih =>
      rw [refusedIn_leaf distinct.1] at h
      by_cases hg : name = Utf8.encode gitFolderName
      · rw [IgnoreRules.walkSteps, if_pos hg]
        exact ih distinct.2 h
      · rw [IgnoreRules.walkSteps_leaf hg rfl]
        exact List.mem_append_right _ (ih distinct.2 h)
  | folder name value members rest ihm ih =>
      rw [refusedIn_folder distinct.1] at h
      by_cases hg : name = Utf8.encode gitFolderName
      · rw [IgnoreRules.walkSteps, if_pos hg]
        exact ih distinct.2.2 (h.resolve_left fun h => h.1 hg)
      · rcases h with ⟨_, ⟨rfl, _⟩ | ⟨hi, h⟩⟩ | h
        · rw [IgnoreRules.walkSteps_refused hg he]
          exact List.mem_cons_self
        · rw [IgnoreRules.walkSteps_entered hg hi]
          exact List.mem_append_left _ (ihm distinct.2.1 h)
        · rcases hi : r.isIgnored (pathOf (above ++ [name])) true with failure | _ | _
          · rw [IgnoreRules.walkSteps_refused hg hi]
            exact List.mem_cons_of_mem _ (ih distinct.2.2 h)
          · rw [IgnoreRules.walkSteps_entered hg hi]
            exact List.mem_append_right _ (ih distinct.2.2 h)
          · rw [IgnoreRules.walkSteps_left_out hg hi]
            exact ih distinct.2.2 h

/-- What a walk has taken a step about and has left in the reference all the same is a refused folder. -/
theorem refused_of_mem_left (distinct : f.Distinct) (hs : step ∈ (r.walkSteps above f left).1)
    {x : Path × ContentId} (hx : x ∈ (r.walkSteps above f left).2) (hpath : x.1 = step.path) :
    RefusedIn r above f step.path := by
  induction f generalizing above left with
  | nil => exact absurd hs List.not_mem_nil
  | leaf name value rest ih =>
      rw [refusedIn_leaf distinct.1]
      by_cases hg : name = Utf8.encode gitFolderName
      · rw [IgnoreRules.walkSteps, if_pos hg] at hs hx
        exact ih distinct.2 hs hx
      · rw [IgnoreRules.walkSteps_leaf hg rfl] at hs hx
        rcases List.mem_append.mp hs with hs | hs
        · -- The file is met here, and its entry is taken out before the rest.
          have hne := of_decide_eq_true (List.mem_filter.mp ((walkSteps_sublist _ _ _ _).subset hx)).2
          exact absurd (hpath.trans (path_of_mem_meetSteps hs)) hne
        · exact ih distinct.2 hs hx
  | folder name value members rest ihm ih =>
      rw [refusedIn_folder distinct.1]
      by_cases hg : name = Utf8.encode gitFolderName
      · rw [IgnoreRules.walkSteps, if_pos hg] at hs hx
        exact Or.inr (ih distinct.2.2 hs hx)
      · rcases hi : r.isIgnored (pathOf (above ++ [name])) true with failure | _ | _
        · rw [IgnoreRules.walkSteps_refused hg hi] at hs hx
          rcases List.mem_cons.mp hs with rfl | hs
          · exact Or.inl ⟨hg, Or.inl ⟨rfl, failure, hi⟩⟩
          · exact Or.inr (ih distinct.2.2 hs hx)
        · rw [IgnoreRules.walkSteps_entered hg hi] at hs hx
          rcases List.mem_append.mp hs with hs | hs
          · -- What the rest leaves is left of what the members have left.
            exact Or.inl ⟨hg, Or.inr ⟨rfl, ihm distinct.2.1 hs ((walkSteps_sublist _ _ _ _).subset hx)⟩⟩
          · exact Or.inr (ih distinct.2.2 hs hx)
        · rw [IgnoreRules.walkSteps_left_out hg hi] at hs hx
          exact Or.inr (ih distinct.2.2 hs hx)

/-- What lies neither at a file nor below a hidden folder is left in the reference. -/
theorem mem_left_of_untouched {c : Scanner} (distinct : f.Distinct) {x : Path × ContentId} (hx : x ∈ left)
    (file : ¬ FileIn above f x.1) (shown : ¬ c.HiddenIn above f x.1) :
    x ∈ (c.rules.walkSteps above f left).2 := by
  -- An entry of the reference is taken out at a file or below a hidden folder only, and it lies at neither.
  induction f generalizing above left with
  | nil => exact hx
  | leaf name value rest ih =>
      rw [fileIn_leaf distinct.1, not_or] at file
      rw [hiddenIn_leaf distinct.1] at shown
      by_cases hg : name = Utf8.encode gitFolderName
      · rw [IgnoreRules.walkSteps, if_pos hg]
        exact ih distinct.2 hx file.2 shown
      · rw [IgnoreRules.walkSteps_leaf hg rfl]
        exact ih distinct.2 (List.mem_filter.mpr ⟨hx, decide_eq_true fun he => file.1 ⟨hg, he⟩⟩) file.2 shown
  | folder name value members rest ihm ih =>
      rw [fileIn_folder distinct.1, not_or] at file
      rw [hiddenIn_folder distinct.1, not_or] at shown
      by_cases hg : name = Utf8.encode gitFolderName
      · rw [IgnoreRules.walkSteps, if_pos hg]
        exact ih distinct.2.2 hx file.2 shown.2
      · rcases hi : c.rules.isIgnored (pathOf (above ++ [name])) true with e | _ | _
        · rw [IgnoreRules.walkSteps_refused hg hi]
          exact ih distinct.2.2 hx file.2 shown.2
        · rw [IgnoreRules.walkSteps_entered hg hi]
          have hinner := ihm distinct.2.1 hx (fun h => file.1 ⟨hg, h⟩) fun h => shown.1 ⟨hg, Or.inr h⟩
          exact ih distinct.2.2 hinner file.2 shown.2
        · rw [IgnoreRules.walkSteps_left_out hg hi]
          have hout : ¬ x.1.startsWith (pathOf (above ++ [name])) = true := fun h => shown.1 ⟨hg, Or.inl ⟨hi, h⟩⟩
          refine ih distinct.2.2 (List.mem_filter.mpr ⟨hx, ?_⟩) file.2 shown.2
          change (!x.1.startsWith (pathOf (above ++ [name])) || c.rules.isRuleFile x.1) = true
          rw [Bool.eq_false_iff.mpr hout]
          rfl

/-- The steps of a walk are about paths at or below the names of the forest. -/
theorem startsWith_of_mem_walkSteps (ha : ∀ name ∈ above, IsName name) (named : f.AllNames IsName)
    (distinct : f.Distinct) (hs : step ∈ (r.walkSteps above f left).1) :
    ∃ name ∈ f.firstNames, step.path.startsWith (pathOf (above ++ [name])) = true := by
  rcases stands_of_mem_walkSteps distinct hs with ⟨value, h⟩ | h
  · exact h.startsWith ha named
  · rcases h.stands with ⟨below, h⟩
    exact h.startsWith ha named

/-- At or below a name that a forest does not have, a walk through it takes no steps. -/
theorem not_mem_paths_of_startsWith (ha : ∀ name ∈ above, IsName name) (hn : IsName name)
    (named : f.AllNames IsName) (distinct : f.Distinct) (hnew : name ∉ f.firstNames)
    (hp : p.startsWith (pathOf (above ++ [name])) = true) : p ∉ (r.walkSteps above f left).1.map Step.path := by
  intro hm
  rcases List.mem_map.mp hm with ⟨step, hs, rfl⟩
  rcases startsWith_of_mem_walkSteps ha named distinct hs with ⟨other, ho, hother⟩
  exact hnew (eq_of_startsWith ha hn (named.of_mem_firstNames ho) hp hother ▸ ho)

/-- A walk takes one step about a path. -/
theorem nodup_walkSteps (ha : ∀ name ∈ above, IsName name) (named : f.AllNames IsName)
    (distinct : f.Distinct) : ((r.walkSteps above f left).1.map Step.path).Nodup := by
  induction f generalizing above left with
  | nil => exact List.nodup_nil
  | leaf name value rest ih =>
      have fresh : ∀ {left p}, p.startsWith (pathOf (above ++ [name])) = true →
          p ∉ (r.walkSteps above rest left).1.map Step.path :=
        not_mem_paths_of_startsWith ha named.1 named.2 distinct.2 distinct.1
      by_cases hg : name = Utf8.encode gitFolderName
      · rw [IgnoreRules.walkSteps, if_pos hg]
        exact ih ha named.2 distinct.2
      · rw [IgnoreRules.walkSteps_leaf hg rfl, Prod.map_fst, List.map_append]
        refine List.Nodup.append ?_ (ih ha named.2 distinct.2) fun p hp => fresh ?_
        · exact (List.nodup_singleton _).sublist (paths_meetSteps _ _)
        · rw [List.mem_singleton.mp ((paths_meetSteps _ _).subset hp)]
          exact startsWith_self _
  | folder name value members rest ihm ih =>
      have fresh : ∀ {left p}, p.startsWith (pathOf (above ++ [name])) = true →
          p ∉ (r.walkSteps above rest left).1.map Step.path :=
        not_mem_paths_of_startsWith ha named.1 named.2.2 distinct.2.2 distinct.1
      have hrest : ∀ {left}, ((r.walkSteps above rest left).1.map Step.path).Nodup :=
        ih ha named.2.2 distinct.2.2
      by_cases hg : name = Utf8.encode gitFolderName
      · rw [IgnoreRules.walkSteps, if_pos hg]
        exact hrest
      · rcases hi : r.isIgnored (pathOf (above ++ [name])) true with e | _ | _
        · rw [IgnoreRules.walkSteps_refused hg hi, Prod.map_fst, List.map_cons]
          exact List.nodup_cons.mpr ⟨fresh (startsWith_self _), hrest⟩
        · rw [IgnoreRules.walkSteps_entered hg hi, Prod.map_fst, List.map_append]
          have hinner := isName_concat ha named.1
          refine (ihm hinner named.2.1 distinct.2.1).append hrest fun p hp => fresh ?_
          -- The steps of the members are about paths below the folder.
          rcases List.mem_map.mp hp with ⟨step, hs, rfl⟩
          rcases startsWith_of_mem_walkSteps hinner named.2.1 distinct.2.1 hs with ⟨member, hm, hbelow⟩
          refine startsWith_trans hbelow (startsWith_pathOf_append hinner fun n hn => ?_)
          exact List.mem_singleton.mp hn ▸ named.2.1.of_mem_firstNames hm
        · rw [IgnoreRules.walkSteps_left_out hg hi]
          exact hrest

end

section

variable {c : Scanner} {members : Forest FileEntry Unit} {reference : Reference} {p : Path} {step step' : Step}
  (tree : c.disk.IsWorkingTree c.root members)

include tree

/-- A refused folder is no file, and nothing hides it. -/
theorem Refused.untouched (h : c.Refused members p) :
    c.disk.isFile (c.root.join p.toRaw) = false ∧ ¬ FileAt members p ∧ ¬ c.Hidden members p := by
  rcases h with ⟨names, below, hg, hl, rfl, ⟨e, he⟩, hway⟩
  have named : ∀ name ∈ names, IsName name := fun name hn => ((tree.named.of_lookup hl).1 name hn).1
  have ordinary := isOrdinary_pathOf named
  rw [List.nil_append] at he ⊢
  have hfile : c.disk.isFile (c.root.join (pathOf names).toRaw) = false := by
    rw [Bool.eq_false_iff, ne_eq, tree.isFile_join_iff ordinary, names_pathOf named]
    rintro ⟨value, hv⟩
    cases hl.symm.trans hv
  refine ⟨hfile, fun h => ?_, ?_⟩
  · exact Bool.false_ne_true (hfile.symm.trans (h.isFile tree))
  · rintro ⟨folder, ⟨inside, more, _, hmore, rfl⟩, hi, hbelow⟩
    have hchain : ∀ name ∈ more, IsName name := fun name hn => ((tree.named.of_lookup hmore).1 name hn).1
    rw [List.nil_append] at hi hbelow
    rw [startsWith_pathOf_iff ordinary hchain, names_pathOf named] at hbelow
    -- The folders on the way to it are entered, and there is no answer about the folder itself.
    by_cases hall : more = names
    · rw [hall] at hi
      cases he.symm.trans hi
    · have hne : more ≠ [] := by
        rintro rfl
        cases hmore
      cases (hway more hbelow hne hall).symm.trans hi

/-- The second look at a refused folder. -/
theorem settleSteps_of_refused (h : c.Refused members p) (id : ContentId) :
    c.settleSteps (p, id) = match c.rules.judge p with
      | .error failure => [.refuse p failure]
      | .ok true => []
      | .ok false => [.delete p] := by
  unfold settleSteps
  rw [(h.untouched tree).1]
  rfl

theorem nodup_firstLook : ((c.firstLook members reference).map Step.path).Nodup :=
  nodup_walkSteps (fun _ hm => absurd hm List.not_mem_nil) (tree.named.imp fun _ hn => hn.1) tree.distinct

/-- A refused folder that the reference knows is left to be settled. -/
theorem mem_left_of_refused (h : c.Refused members p) {id : ContentId} (known : (p, id) ∈ reference) :
    (p, id) ∈ (c.rules.walkSteps [] members reference).2 :=
  mem_left_of_untouched tree.distinct known (h.untouched tree).2.1 (h.untouched tree).2.2

/-- A path that is looked at on the walk and again in the end is a refused folder that the reference knows. It is
    skipped on the walk, and then the rules are asked about it as a file. -/
theorem refused_of_steps (hs : step ∈ c.firstLook members reference)
    (hs' : step' ∈ c.secondLook members reference) (hpath : step'.path = step.path) :
    c.Refused members step.path ∧ step.path ∈ reference.map Prod.fst ∧ (∃ e, step = .refuse step.path e) ∧
      ((∃ failure, c.rules.judge step.path = .error failure ∧ step' = .refuse step.path failure) ∨
        c.rules.judge step.path = .ok false ∧ step' = .delete step.path) := by
  rcases List.mem_flatMap.mp hs' with ⟨⟨q, id⟩, hx, hstep⟩
  have hq : step'.path = q := List.mem_singleton.mp ((paths_settleSteps c _).subset (List.mem_map_of_mem hstep))
  rw [hpath] at hq
  subst hq
  have refused : c.Refused members step.path := refused_of_mem_left tree.distinct hs hx rfl
  refine ⟨refused, ?_, ?_, ?_⟩
  · exact List.mem_map.mpr ⟨_, (walkSteps_sublist _ _ _ _).subset hx, rfl⟩
  · rcases RefusedIn.unanswered refused with ⟨e, he⟩
    have hrefuse : .refuse step.path e ∈ c.firstLook members reference :=
      refuse_mem_walkSteps tree.distinct refused he
    exact ⟨e, List.inj_on_of_nodup_map (nodup_firstLook tree) hs hrefuse rfl⟩
  · rw [settleSteps_of_refused tree refused] at hstep
    rcases hj : c.rules.judge step.path with failure | _ | _
    · rw [hj] at hstep
      exact Or.inl ⟨failure, rfl, List.mem_singleton.mp hstep⟩
    · rw [hj] at hstep
      exact Or.inr ⟨rfl, List.mem_singleton.mp hstep⟩
    · rw [hj] at hstep
      exact absurd hstep List.not_mem_nil

variable (unique : Ascending Prod.fst reference)

include unique

omit tree in
theorem nodup_secondLook :
    ((c.secondLook members reference).map Step.path).Nodup :=
  (unique.sublist (walkSteps_sublist _ _ _ _)).nodup_keys.sublist (paths_flatMap c _)

/-- Two steps about one path are one step, or one is taken on the walk and the other in the end. -/
theorem eq_or_refused (hs : step ∈ c.script members reference) (hs' : step' ∈ c.script members reference)
    (hpath : step'.path = step.path) :
    step' = step ∨
      (c.Refused members step.path ∧ step.path ∈ reference.map Prod.fst) ∧
        ((step ∈ c.firstLook members reference ∧ step' ∈ c.secondLook members reference) ∨
          (step' ∈ c.firstLook members reference ∧ step ∈ c.secondLook members reference)) := by
  rcases List.mem_append.mp hs with hs | hs
  · rcases List.mem_append.mp hs' with hs' | hs'
    · exact Or.inl (List.inj_on_of_nodup_map (nodup_firstLook tree) hs' hs hpath)
    · have h := refused_of_steps tree hs hs' hpath
      exact Or.inr ⟨⟨h.1, h.2.1⟩, Or.inl ⟨hs, hs'⟩⟩
  · rcases List.mem_append.mp hs' with hs' | hs'
    · have h := refused_of_steps tree hs' hs hpath.symm
      rw [hpath] at h
      exact Or.inr ⟨⟨h.1, h.2.1⟩, Or.inr ⟨hs', hs⟩⟩
    · exact Or.inl (List.inj_on_of_nodup_map (nodup_secondLook unique) hs' hs hpath)

/-- No path has two steps, where the rules have an answer about every folder. -/
theorem nodup_script (entered : ∀ q e, c.rules.isIgnored q true ≠ .error e) :
    ((c.script members reference).map Step.path).Nodup := by
  have hcut : (c.script members reference).map Step.path =
      (c.firstLook members reference).map Step.path ++ (c.secondLook members reference).map Step.path :=
    List.map_append
  rw [hcut]
  refine (nodup_firstLook tree).append (nodup_secondLook unique) fun p hp hp' => ?_
  rcases List.mem_map.mp hp with ⟨step, hs, rfl⟩
  rcases List.mem_map.mp hp' with ⟨step', hs', hpath⟩
  rcases RefusedIn.unanswered (refused_of_steps tree hs hs' hpath).1 with ⟨e, he⟩
  exact entered _ e he

end

end Scanner

end ThreeWay
