import ThreeWay.Proofs.Scan.Refused

/-!
# How Often a Scan Accounts for a Path

A scan is to account for a path at most once: it is skipped, or it is reported, or there is nothing to say about
it. That is so of every path that it looks at once.

A folder that the rules give no answer about is skipped on the walk. If the reference knows its path as that of a
file, it is looked at again in the end, and then the rules are asked about a file. If they fail again, the path
is skipped a second time. If they keep it, it is no file on the disk and so it is reported as deleted, besides
being skipped. Only if they leave it out the scan has nothing more to say.

So an account is given twice of exactly these paths, and of every other path at most one.

## Theorems

* `steps_of_refused`: Both looks at a refused folder.
* `count_skipped`: A path is skipped at most once on the walk and at most once in the end.
* `mem_skipped_and_changes_iff`: Which paths are skipped and reported.
* `scan_accounted`: Which paths a scan accounts for twice.
-/

namespace ThreeWay

namespace Scanner

open ThreeWay.Path Run

theorem mem_skips_iff {hash : Path → Except Error ContentId} {steps : List Step} {p : Path} :
    p ∈ (steps.filterMap (Step.skip? hash)).map Skipped.path ↔
      ∃ step ∈ steps, ∃ e, step.skip? hash = some ⟨p, e⟩ := by
  rw [List.mem_map]
  constructor
  · rintro ⟨⟨_, e⟩, hm, rfl⟩
    rcases List.mem_filterMap.mp hm with ⟨step, hs, hstep⟩
    exact ⟨step, hs, e, hstep⟩
  · rintro ⟨step, hs, e, hstep⟩
    exact ⟨⟨p, e⟩, List.mem_filterMap.mpr ⟨step, hs, hstep⟩, rfl⟩

section

variable {c : Scanner} {members : Forest FileEntry Unit} {reference : Reference} {p : Path} {step step' : Step}
  (tree : c.disk.IsWorkingTree c.root members)

include tree

/-- Both looks at a refused folder. -/
theorem steps_of_refused (h : c.Refused members p) (known : p ∈ reference.map Prod.fst) :
    (∃ e, Step.refuse p e ∈ c.firstLook members reference) ∧
      (∀ failure, c.rules.judge p = .error failure →
        Step.refuse p failure ∈ c.secondLook members reference) ∧
      (c.rules.judge p = .ok false →
        Step.delete p ∈ c.secondLook members reference) := by
  rcases RefusedIn.unanswered h with ⟨e, he⟩
  rcases List.mem_map.mp known with ⟨⟨_, id⟩, hm, rfl⟩
  have hleft := mem_left_of_refused tree h hm
  have hsteps := settleSteps_of_refused tree h id
  refine ⟨⟨e, refuse_mem_walkSteps tree.distinct h he⟩, fun failure hj => ?_, fun hj => ?_⟩
  · rw [hj] at hsteps
    exact List.mem_flatMap.mpr ⟨_, hleft, hsteps ▸ List.mem_singleton_self _⟩
  · rw [hj] at hsteps
    exact List.mem_flatMap.mpr ⟨_, hleft, hsteps ▸ List.mem_singleton_self _⟩

/-- Nothing but its deletion is reported at a refused folder. -/
theorem change_of_refused (h : c.Refused members p) (hs : step ∈ c.script members reference)
    {hash : Path → Except Error ContentId} {change : Change} (hc : step.change? hash = some change)
    (hp : change.path = p) : change = ⟨p, .deletion⟩ := by
  have hpath : step.path = p := (Step.path_of_change? hc).symm.trans hp
  -- On the walk there is one step about the folder, and it reports nothing; in the end it is deleted or not reported.
  rcases List.mem_append.mp hs with hs | hs
  · rcases RefusedIn.unanswered h with ⟨e, he⟩
    have hrefuse : .refuse p e ∈ c.firstLook members reference := refuse_mem_walkSteps tree.distinct h he
    rw [List.inj_on_of_nodup_map (nodup_firstLook tree) hs hrefuse hpath] at hc
    cases hc
  · rcases List.mem_flatMap.mp hs with ⟨⟨q, id⟩, _, hstep⟩
    have hq : step.path = q := List.mem_singleton.mp ((paths_settleSteps c _).subset (List.mem_map_of_mem hstep))
    cases hq.symm.trans hpath
    rw [settleSteps_of_refused tree h] at hstep
    split at hstep
    · cases List.mem_singleton.mp hstep
      cases hc
    · exact absurd hstep List.not_mem_nil
    · cases List.mem_singleton.mp hstep
      cases hc
      rfl

variable (unique : Ascending Prod.fst reference) {o : Outcome} (h : Returns (c.scan (.ok reference)) o)

include unique h

/-- A path is skipped on the walk at most once and in the end at most once. -/
theorem count_skipped (p : Path) : (o.skipped.map Skipped.path).count p ≤ 2 ∧
    (1 < (o.skipped.map Skipped.path).count p ↔
      ∃ step ∈ c.firstLook members reference,
        ∃ step' ∈ c.secondLook members reference,
          ∃ e e', step.skip? c.hashAt = some ⟨p, e⟩ ∧ step'.skip? c.hashAt = some ⟨p, e'⟩) := by
  have onWalk := (nodup_firstLook tree).sublist (Step.paths_skips c.hashAt (c.firstLook members reference))
  have inEnd := (nodup_secondLook unique).sublist (Step.paths_skips c.hashAt (c.secondLook members reference))
  have hskipped : o.skipped.map Skipped.path =
      ((c.firstLook members reference).filterMap (Step.skip? c.hashAt)).map Skipped.path ++
        ((c.secondLook members reference).filterMap (Step.skip? c.hashAt)).map Skipped.path := by
    rw [(returns_scan_script tree h).2, ← List.map_append, ← List.filterMap_append]
    rfl
  rw [hskipped, List.count_append, onWalk.count, inEnd.count]
  -- Each of the two lists has a path at most once, so the count is a sum of two bits.
  constructor
  · split_ifs <;> decide
  · constructor
    · intro hcount
      split_ifs at hcount with hw he
      · rcases mem_skips_iff.mp hw with ⟨step, hs, e, hstep⟩
        rcases mem_skips_iff.mp he with ⟨step', hs', e', hstep'⟩
        exact ⟨step, hs, step', hs', e, e', hstep, hstep'⟩
      all_goals exact absurd hcount (by decide)
    · rintro ⟨step, hs, step', hs', e, e', hstep, hstep'⟩
      rw [if_pos (mem_skips_iff.mpr ⟨step, hs, e, hstep⟩), if_pos (mem_skips_iff.mpr ⟨step', hs', e', hstep'⟩)]
      decide

/-- A path is skipped and reported if it is that of a refused folder that the reference knows and that the rules
    keep as a file. -/
theorem mem_skipped_and_changes_iff (p : Path) :
    p ∈ o.skipped.map Skipped.path ∧ p ∈ o.changes.map Change.path ↔
      c.Refused members p ∧ p ∈ reference.map Prod.fst ∧ c.rules.judge p = .ok false := by
  have found := returns_scan_script tree h
  constructor
  · rintro ⟨hskip, hchange⟩
    rcases List.mem_map.mp hskip with ⟨skipped, hm, rfl⟩
    rcases List.mem_map.mp hchange with ⟨change, hm', hpath⟩
    rw [found.2] at hm
    rw [found.1] at hm'
    rcases List.mem_filterMap.mp hm with ⟨step, hs, hstep⟩
    rcases List.mem_filterMap.mp (mem_of_mem_ascending hm') with ⟨step', hs', hstep'⟩
    have hskipped := Step.path_of_skip? hstep
    have hchanged := Step.path_of_change? hstep'
    rw [hskipped] at hpath ⊢
    rw [hchanged] at hpath
    rcases eq_or_refused tree unique hs hs' hpath with rfl | ⟨refused, ⟨hs, hs'⟩ | ⟨hs', hs⟩⟩
    · -- One step does not come to both.
      rw [Step.skip?_of_change? hstep'] at hstep
      cases hstep
    · rcases (refused_of_steps tree hs hs' hpath).2.2.2 with ⟨failure, _, rfl⟩ | ⟨hj, _⟩
      · cases hstep'
      · exact ⟨refused.1, refused.2, hj⟩
    · rcases (refused_of_steps tree hs' hs hpath.symm).2.2.1 with ⟨e, he⟩
      rw [he] at hstep'
      cases hstep'
  · rintro ⟨refused, known, hj⟩
    rcases steps_of_refused tree refused known with ⟨⟨e, hwalk⟩, _, hend⟩
    constructor
    · rw [found.2]
      exact List.mem_map.mpr ⟨⟨p, e⟩, List.mem_filterMap.mpr ⟨_, List.mem_append_left _ hwalk, rfl⟩, rfl⟩
    · rw [found.1]
      refine List.mem_map.mpr ⟨⟨p, .deletion⟩, mem_ascending ?_ fun other ho hpath => ?_, rfl⟩
      · exact List.mem_filterMap.mpr ⟨_, List.mem_append_right _ (hend hj), rfl⟩
      · rcases List.mem_filterMap.mp ho with ⟨step, hs, hc⟩
        exact change_of_refused tree refused hs hc hpath

end

/-- How often a scan accounts for a path. It is skipped twice exactly if it is that of a folder that the rules give
    no answer about, that the reference knows as a file, and that the rules give no answer about as a file either.
    It is skipped and reported exactly if the rules keep it as a file, and then it is reported as deleted. -/
theorem scan_accounted (c : Scanner) {members : Forest FileEntry Unit} {reference : Reference}
    (tree : c.disk.IsWorkingTree c.root members) (unique : Ascending Prod.fst reference) {o : Outcome}
    (h : (c.scan (.ok reference)).outcome = .ok o) (p : Path) :
    (o.skipped.map Skipped.path).count p ≤ 2 ∧
      (1 < (o.skipped.map Skipped.path).count p ↔
        c.Refused members p ∧ p ∈ reference.map Prod.fst ∧ ∃ e, c.rules.judge p = .error e) ∧
      (p ∈ o.skipped.map Skipped.path ∧ p ∈ o.changes.map Change.path ↔
        c.Refused members p ∧ p ∈ reference.map Prod.fst ∧ c.rules.judge p = .ok false) ∧
      (p ∈ o.skipped.map Skipped.path → ∀ change ∈ o.changes, change.path = p → change.kind = .deletion) := by
  have returned := returns_of_outcome h
  have twice := count_skipped tree unique returned p
  have both := mem_skipped_and_changes_iff tree unique returned p
  refine ⟨twice.1, twice.2.trans ⟨?_, ?_⟩, both, fun hskip change hm hp => ?_⟩
  · rintro ⟨step, hs, step', hs', e, e', hstep, hstep'⟩
    have hp : p = step.path := Step.path_of_skip? hstep
    have hp' : p = step'.path := Step.path_of_skip? hstep'
    rcases refused_of_steps tree hs hs' (hp'.symm.trans hp) with ⟨refused, known, _, ⟨failure, hj, _⟩ | ⟨_, rfl⟩⟩
    · exact hp ▸ ⟨refused, known, failure, hj⟩
    · cases hstep'
  · rintro ⟨refused, known, failure, hj⟩
    rcases steps_of_refused tree refused known with ⟨⟨e, hwalk⟩, hend, _⟩
    exact ⟨_, hwalk, _, hend failure hj, e, failure, rfl, rfl⟩
  · have refused := (both.mp ⟨hskip, List.mem_map.mpr ⟨change, hm, hp⟩⟩).1
    rw [(returns_scan_script tree returned).1] at hm
    rcases List.mem_filterMap.mp (mem_of_mem_ascending hm) with ⟨step, hs, hc⟩
    rw [change_of_refused tree refused hs hc hp]

namespace Swapped

/-- Two folders that stand where there were files before. -/
def members : Forest FileEntry Unit :=
  .folder (Utf8.encode "a") () .nil (.folder (Utf8.encode "b") () .nil .nil)

/-- What the rules say where they give no answer. -/
def failure (p : Path) : Error :=
  .contentRead p.text (.other "unreadable rules")

/-- A scanner of these folders whose rules give no answer about them, and none about the first one as a file. -/
def scanner : Scanner where
  disk := ⟨[Utf8.encode "w"], members⟩
  root := .ofString "/w"
  hash _ := .ok ⟨"new"⟩
  rules := {
    isIgnored := fun p isFolder => if isFolder || p.text = "a" then .error (failure p) else .ok false
    isRuleFile := fun _ => false }
  signal := none

/-- The files that were there before. -/
def reference : Reference :=
  [(.ofString "a", ⟨"old"⟩), (.ofString "b", ⟨"old"⟩)]

theorem tree : scanner.disk.IsWorkingTree scanner.root members := by
  have name : IsName (Utf8.encode "w") := by decide
  exact ⟨⟨[], Disk.resolve_place name (by decide) (by decide) members⟩, by decide, by decide, by decide, by decide⟩

theorem unique : Ascending Prod.fst reference := by decide

theorem refused : scanner.Refused members (.ofString "b") := by
  refine ⟨[Utf8.encode "b"], .nil, by decide, rfl, by decide, ⟨_, rfl⟩, fun front way hne hall => ?_⟩
  -- The only name has nothing on the way to it.
  rcases List.prefix_cons_iff.mp way with nil | ⟨rest, rfl, below⟩
  · exact absurd nil hne
  · exact absurd (congrArg _ (List.prefix_nil.mp below)) hall

/-- Both folders are met, and both are looked at again. -/
theorem script_eq : scanner.script members reference =
    [.refuse (.ofString "a") (failure (.ofString "a")), .refuse (.ofString "b") (failure (.ofString "b")),
      .refuse (.ofString "a") (failure (.ofString "a")), .delete (.ofString "b")] := by
  have again : scanner.settleSteps (.ofString "b", ⟨"old"⟩) = [.delete (.ofString "b")] :=
    settleSteps_of_refused tree refused _
  rw [script, show (scanner.rules.walkSteps [] members reference).2 = reference from rfl, reference,
    List.flatMap_cons, List.flatMap_cons, again]
  rfl

end Swapped

open Swapped in
/-- The accounts of a scan with two folders that are refused. -/
theorem scan_accounted_of_swapped :
    (scanner.disk.IsWorkingTree scanner.root members ∧ Ascending Prod.fst reference) ∧
    ∃ o, (scanner.scan (.ok reference)).outcome = .ok o ∧
      (o.skipped.map Skipped.path).count (.ofString "a") ≤ 2 ∧
      (1 < (o.skipped.map Skipped.path).count (.ofString "a") ↔
        scanner.Refused members (.ofString "a") ∧ .ofString "a" ∈ reference.map Prod.fst ∧
          ∃ e, scanner.rules.judge (.ofString "a") = .error e) ∧
      (.ofString "a" ∈ o.skipped.map Skipped.path ∧ .ofString "a" ∈ o.changes.map Change.path ↔
        scanner.Refused members (.ofString "a") ∧ .ofString "a" ∈ reference.map Prod.fst ∧
          scanner.rules.judge (.ofString "a") = .ok false) ∧
      (.ofString "a" ∈ o.skipped.map Skipped.path →
        ∀ change ∈ o.changes, change.path = .ofString "a" → change.kind = .deletion) := by
  have quiet : Signal.IsQuiet scanner.signal := fun _ h => nomatch h
  rcases scan_gives quiet reference with ⟨o, ho⟩
  exact ⟨⟨tree, unique⟩, o, ho.outcome, scan_accounted scanner tree unique ho.outcome (.ofString "a")⟩

open Swapped in
/-- A refused folder that was a file before is skipped twice, or it is skipped and reported as deleted. -/
theorem scan_of_swapped :
    scanner.disk.IsWorkingTree scanner.root members ∧ Ascending Prod.fst reference ∧
      (scanner.scan (.ok reference)).outcome.map (fun o => (o.skipped.map Skipped.path, o.changes)) =
        .ok ([.ofString "a", .ofString "b", .ofString "a"], [⟨.ofString "b", .deletion⟩]) := by
  have quiet : Signal.IsQuiet scanner.signal := fun _ h => nomatch h
  rcases scan_gives quiet reference with ⟨o, ho⟩
  have found := returns_scan_script tree ho.returns
  refine ⟨tree, unique, ?_⟩
  rw [ho.outcome, Except.map, found.1, found.2, script_eq]
  rfl

end Scanner

end ThreeWay
