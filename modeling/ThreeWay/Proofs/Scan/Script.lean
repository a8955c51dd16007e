import ThreeWay.Proofs.Scan.Settle

/-!
# The Script of a Scan

Which files a scan comes to, which of them it asks a hash for and what it deletes depends on the disk, on the
ignore rules and on the reference, and on no hash. So a scan can be written down before any file is read: as a
list of steps, in the order in which they are taken. A hash is needed only to tell what comes of a step.

`script` is that list. Answered by a way to hash files it is the outcome of the scan: the changes are those that
the steps come to, put in order, and skipped is what they could not read (`returns_scan_script`). So scans of
one folder with different hashes go by one script, and what is known of it from a scan in which all hashes can
be had is known for one in which some of them fail.

The script is made by the same recursion as the walk, with the state of the walk reduced to what remains of the
reference; that part of the state depends on no hash either. `eq_of_walk` says that the walk ends in the state
that the steps come to, by an induction on the forest with one case for each way an entry is passed. So all that
is said of scans in terms of their scripts holds of the scans themselves.

A path may have a step on the walk and another one in the end. Where no path has two, a change is told by the one
step that it came from, and then membership in the outcome is membership in the script.

## Main definitions

* `Step`: What a scan does about a path.
* `Step.change?`, `Step.skip?`: What comes of it.
* `IgnoreRules.walkSteps`, `Scanner.settleSteps`: The steps of a walk and of the settling.
* `Scanner.script`: The steps of a scan.
* `Outcome.after`: What is found after some steps.

## Theorems

* `Outcome.after_append`, `Outcome.after_cons`: Steps are answered one after the other.
* `IgnoreRules.walkSteps_leaf`, `IgnoreRules.walkSteps_entered`, `IgnoreRules.walkSteps_left_out`,
  `IgnoreRules.walkSteps_refused`: The steps of a walk, entry by entry.
* `answer_eq_judge`, `eq_of_compare`, `eq_of_visitFile`: The single steps.
* `eq_of_walk`, `eq_of_settle`: A walk and the settling take their steps.
* `returns_scan_script`: The outcome of a scan is its script, answered.
* `paths_meetSteps`, `paths_settleSteps`: A path has one step when it is met, and one when it is settled.
* `walkSteps_sublist`: A walk only takes entries out of the reference.
* `mem_changes_iff`, `mem_skipped_iff`: What is changed and what is skipped, step by step.
* `nodup_skipped`: Where no path has two steps, none is skipped twice.
-/

namespace ThreeWay

/-- What a scan does about a path: report a file as new, compare it with the id that it had, report it as
    deleted, or leave it because the ignore rules gave no answer. -/
inductive Step where
  | add (path : Path)
  | check (path : Path) (expected : ContentId)
  | delete (path : Path)
  | refuse (path : Path) (reason : Error)

namespace Step

/-- The path of a step. -/
def path : Step → Path
  | .add p => p
  | .check p _ => p
  | .delete p => p
  | .refuse p _ => p

/-- The change that a step comes to, if any. -/
def change? (hash : Path → Except Error ContentId) : Step → Option Change
  | .add p => some ⟨p, .addition⟩
  | .check p expected =>
    match hash p with
    | .ok found => if found = expected then none else some ⟨p, .modification⟩
    | .error _ => none
  | .delete p => some ⟨p, .deletion⟩
  | .refuse _ _ => none

/-- What is skipped at a step, if anything. -/
def skip? (hash : Path → Except Error ContentId) : Step → Option Skipped
  | .check p _ =>
    match hash p with
    | .ok _ => none
    | .error e => some ⟨p, e⟩
  | .refuse p e => some ⟨p, e⟩
  | _ => none

variable {hash : Path → Except Error ContentId} {step : Step}

theorem change?_check_eq_some_iff {p : Path} {expected : ContentId} {change : Change} :
    (check p expected).change? hash = some change ↔
      change = ⟨p, .modification⟩ ∧ ∃ found, hash p = .ok found ∧ found ≠ expected := by
  simp only [change?]
  cases hh : hash p with
  | error e =>
      simp only [reduceCtorEq, false_and, exists_false, and_false]
  | ok found =>
      by_cases he : found = expected
      · simp only [he, if_true, reduceCtorEq, Except.ok.injEq, exists_eq_left', ne_eq, not_true_eq_false,
          and_false]
      · simp only [he, if_false, Option.some.injEq, Except.ok.injEq, exists_eq_left', ne_eq, not_false_eq_true,
          and_true, eq_comm (b := change)]

theorem skip?_check_eq_some_iff {p : Path} {expected : ContentId} {skipped : Skipped} :
    (check p expected).skip? hash = some skipped ↔ skipped.path = p ∧ hash p = .error skipped.reason := by
  rcases skipped with ⟨q, reason⟩
  simp only [skip?]
  cases hh : hash p with
  | error e =>
      simp only [Option.some.injEq, Skipped.mk.injEq, Except.error.injEq, eq_comm]
  | ok found =>
      simp only [reduceCtorEq, and_false]

theorem path_of_change? {change : Change} (h : step.change? hash = some change) :
    change.path = step.path := by
  cases step with
  | add p => cases h; rfl
  | delete p => cases h; rfl
  | refuse p e => cases h
  | check p expected =>
      cases (change?_check_eq_some_iff.mp h).1
      rfl

theorem path_of_skip? {skipped : Skipped} (h : step.skip? hash = some skipped) :
    skipped.path = step.path := by
  cases step with
  | add p => cases h
  | delete p => cases h
  | refuse p e => cases h; rfl
  | check p expected => exact (skip?_check_eq_some_iff.mp h).1

theorem change?_eq_modification_iff {p : Path} : step.change? hash = some ⟨p, .modification⟩ ↔
    ∃ expected, step = .check p expected ∧ ∃ found, hash p = .ok found ∧ found ≠ expected := by
  constructor
  · intro h
    cases step with
    | add q => cases h
    | delete q => cases h
    | refuse q e => cases h
    | check q expected =>
        rcases change?_check_eq_some_iff.mp h with ⟨hc, unequal⟩
        cases hc
        exact ⟨expected, rfl, unequal⟩
  · rintro ⟨expected, rfl, unequal⟩
    exact change?_check_eq_some_iff.mpr ⟨rfl, unequal⟩

theorem skip?_eq_some_iff {skipped : Skipped} : step.skip? hash = some skipped ↔
    (∃ expected, step = .check skipped.path expected ∧ hash skipped.path = .error skipped.reason) ∨
      step = .refuse skipped.path skipped.reason := by
  constructor
  · intro h
    cases step with
    | add q => cases h
    | delete q => cases h
    | refuse q e =>
        cases h
        exact Or.inr rfl
    | check q expected =>
        rcases skip?_check_eq_some_iff.mp h with ⟨rfl, failed⟩
        exact Or.inl ⟨expected, rfl, failed⟩
  · rintro (⟨expected, rfl, failed⟩ | rfl)
    · exact skip?_check_eq_some_iff.mpr ⟨rfl, failed⟩
    · rfl

/-- What is skipped at some steps has the paths of the steps. -/
theorem paths_skips (hash : Path → Except Error ContentId) (steps : List Step) :
    ((steps.filterMap (skip? hash)).map Skipped.path).Sublist (steps.map path) := by
  induction steps with
  | nil => exact List.Sublist.refl _
  | cons step steps ih =>
      cases hs : step.skip? hash with
      | none =>
          rw [List.filterMap_cons_none hs]
          exact ih.cons _
      | some skipped =>
          rw [List.filterMap_cons_some hs, List.map_cons, List.map_cons, path_of_skip? hs]
          exact ih.cons_cons _

/-- A step does not come to a change where something is skipped. -/
theorem skip?_of_change? {change : Change} (h : step.change? hash = some change) : step.skip? hash = none := by
  cases step with
  | add p => rfl
  | delete p => rfl
  | refuse p e => cases h
  | check p expected =>
      rcases (change?_check_eq_some_iff.mp h).2 with ⟨found, hh, _⟩
      simp only [skip?, hh]

end Step

/-- What is found after some steps. -/
def Outcome.after (o : Outcome) (hash : Path → Except Error ContentId) (steps : List Step) : Outcome where
  changes := (steps.filterMap (Step.change? hash)).foldl (fun acc x => insertAt Change.path x acc) o.changes
  skipped := o.skipped ++ steps.filterMap (Step.skip? hash)

namespace Outcome

variable {hash : Path → Except Error ContentId}

theorem after_nil (o : Outcome) : o.after hash [] = o := by
  rw [after, List.filterMap_nil, List.filterMap_nil, List.append_nil]
  rfl

theorem after_append (o : Outcome) (first second : List Step) :
    o.after hash (first ++ second) = (o.after hash first).after hash second := by
  simp only [after, List.filterMap_append, List.foldl_append, List.append_assoc]

theorem after_cons (o : Outcome) (step : Step) (steps : List Step) :
    o.after hash (step :: steps) = (o.after hash [step]).after hash steps :=
  o.after_append [step] steps

theorem after_change {step : Step} {change : Change} (o : Outcome) (hc : step.change? hash = some change)
    (hs : step.skip? hash = none) : o.after hash [step] = o.record change.path change.kind := by
  simp only [after, hc, hs, List.filterMap_cons, List.filterMap_nil, List.foldl_cons, List.foldl_nil,
    List.append_nil]
  rfl

theorem after_check (o : Outcome) (p : Path) (expected : ContentId) :
    o.after hash [.check p expected] =
      match hash p with
      | .ok found => if found = expected then o else o.record p .modification
      | .error e => o.skip p e := by
  cases hh : hash p with
  | error e =>
      simp only [after, Step.change?, Step.skip?, hh, List.filterMap_cons, List.filterMap_nil, List.foldl_nil]
      rfl
  | ok found =>
      have read : (Step.check p expected).skip? hash = none := by
        simp only [Step.skip?, hh]
      by_cases he : found = expected
      · simp only [after, Step.change?, read, hh, he, if_true, List.filterMap_cons, List.filterMap_nil,
          List.foldl_nil, List.append_nil]
      · rw [after_change o (Step.change?_check_eq_some_iff.mpr ⟨rfl, found, hh, he⟩) read]
        simp only [he, if_false]

end Outcome

namespace IgnoreRules

/-- Whether a file is left out, as far as the rules can tell. -/
def judge (r : IgnoreRules) (p : Path) : Except Error Bool :=
  if r.isRuleFile p then .ok false else r.isIgnored p false

/-- What is done about a file that is met. -/
def meetSteps (r : IgnoreRules) (known : Option ContentId) (p : Path) : List Step :=
  match r.judge p with
  | .error e => [.refuse p e]
  | .ok true => []
  | .ok false =>
    match known with
    | .none => [.add p]
    | .some expected => [.check p expected]

/-- The steps of a walk, and what it leaves of the reference. -/
def walkSteps (r : IgnoreRules) (above : List Bytes) :
    Forest FileEntry Unit → Reference → List Step × Reference
  | .nil, left => ([], left)
  | .leaf name _ rest, left =>
    if name = Utf8.encode gitFolderName then r.walkSteps above rest left
    else
      let path := Scanner.pathOf (above ++ [name])
      let next := r.walkSteps above rest (left.filter (·.1 ≠ path))
      (r.meetSteps (left.lookup path) path ++ next.1, next.2)
  | .folder name _ members rest, left =>
    if name = Utf8.encode gitFolderName then r.walkSteps above rest left
    else
      let path := Scanner.pathOf (above ++ [name])
      match r.isIgnored path true with
      | .ok true => r.walkSteps above rest (left.filter fun (p, _) => !p.startsWith path || r.isRuleFile p)
      | .ok false =>
        let inner := r.walkSteps (above ++ [name]) members left
        let next := r.walkSteps above rest inner.2
        (inner.1 ++ next.1, next.2)
      | .error e =>
        let next := r.walkSteps above rest left
        (.refuse path e :: next.1, next.2)

section

variable {r : IgnoreRules} {above : List Bytes} {name : Bytes} {u : Unit} {members rest : Forest FileEntry Unit}
  {left : Reference} (hg : name ≠ Utf8.encode gitFolderName)

include hg

theorem walkSteps_leaf {value : FileEntry} {p : Path} (hp : Scanner.pathOf (above ++ [name]) = p) :
    r.walkSteps above (.leaf name value rest) left =
      Prod.map (r.meetSteps (left.lookup p) p ++ ·) id (r.walkSteps above rest (left.filter (·.1 ≠ p))) := by
  subst hp
  rw [walkSteps, if_neg hg]
  rfl

theorem walkSteps_left_out (hi : r.isIgnored (Scanner.pathOf (above ++ [name])) true = .ok true) :
    r.walkSteps above (.folder name u members rest) left = r.walkSteps above rest
      (left.filter fun (p, _) => !p.startsWith (Scanner.pathOf (above ++ [name])) || r.isRuleFile p) := by
  rw [walkSteps, if_neg hg]
  simp only [hi]

theorem walkSteps_entered (hi : r.isIgnored (Scanner.pathOf (above ++ [name])) true = .ok false) :
    r.walkSteps above (.folder name u members rest) left =
      Prod.map ((r.walkSteps (above ++ [name]) members left).1 ++ ·) id
        (r.walkSteps above rest (r.walkSteps (above ++ [name]) members left).2) := by
  rw [walkSteps, if_neg hg]
  simp only [hi]
  rfl

theorem walkSteps_refused {e : Error} (hi : r.isIgnored (Scanner.pathOf (above ++ [name])) true = .error e) :
    r.walkSteps above (.folder name u members rest) left =
      Prod.map (.refuse (Scanner.pathOf (above ++ [name])) e :: ·) id (r.walkSteps above rest left) := by
  rw [walkSteps, if_neg hg]
  simp only [hi]
  rfl

end

end IgnoreRules

namespace Scanner

open ThreeWay.Path Run

/-- The id of the file at a path. -/
def hashAt (c : Scanner) (p : Path) : Except Error ContentId :=
  c.hash (c.root.join p.toRaw)

/-- What is done about a path of the reference that was not met. -/
def settleSteps (c : Scanner) (e : Path × ContentId) : List Step :=
  match c.rules.judge e.1 with
  | .error failure => [.refuse e.1 failure]
  | .ok true => []
  | .ok false => if c.disk.isFile (c.root.join e.1.toRaw) then [.check e.1 e.2] else [.delete e.1]

/-- The steps of a scan. -/
def script (c : Scanner) (members : Forest FileEntry Unit) (reference : Reference) : List Step :=
  (c.rules.walkSteps [] members reference).1 ++
    (c.rules.walkSteps [] members reference).2.flatMap c.settleSteps

variable {c : Scanner} {s s' : State} {p : Path}

/-- The answer about a file is the judgement of the rules. -/
theorem answer_eq_judge {answer : Except Error Bool} (h : Returns (c.isExcluded p) answer) :
    answer = c.rules.judge p := by
  unfold isExcluded at h
  rcases h.bind with ⟨isRuleFile, hr, h⟩
  cases Except.ok.inj hr.serve
  unfold IgnoreRules.judge
  split_ifs at h ⊢ with hrule
  · exact h.pure
  · exact h.serveAny

/-! ### A Scan Takes Its Steps -/

/-- Comparing a file is one step. -/
theorem eq_of_compare {expected : ContentId} (h : Returns (c.compare p (c.root.join p.toRaw) expected s) s') :
    s' = ⟨s.remaining, s.outcome.after c.hashAt [.check p expected]⟩ := by
  rw [Outcome.after_check]
  cases hh : c.hash (c.root.join p.toRaw) with
  | error e =>
      rw [returns_compare_of_error hh h, hashAt, hh]
      rfl
  | ok found =>
      rw [returns_compare_of_ok hh h, hashAt, hh]
      simp only
      split_ifs <;> rfl

/-- Meeting a file takes it out of what remains, and takes its steps. -/
theorem eq_of_visitFile {below : List Bytes} (hb : ∀ name ∈ below, IsName name)
    (h : Returns (c.visitFile below s) s') :
    s' = ⟨s.remaining.filter (·.1 ≠ pathOf below), s.outcome.after c.hashAt
      (c.rules.meetSteps (s.remaining.lookup (pathOf below)) (pathOf below))⟩ := by
  unfold visitFile at h
  rcases h.bind with ⟨answer, ha, h⟩
  have judged := answer_eq_judge ha
  unfold IgnoreRules.meetSteps
  rw [← judged]
  -- The judgement of the rules picks the steps, and the state that is returned is read off in each case.
  rcases answer with e | _ | _
  · rw [h.pure]
    rfl
  · simp only at h
    cases hk : s.remaining.lookup (pathOf below) with
    | none =>
        rw [hk] at h
        rw [h.pure, Outcome.after_change s.outcome rfl rfl]
        rfl
    | some id =>
        rw [hk] at h
        simp only at h
        rw [fileOf_eq hb] at h
        exact eq_of_compare h
  · rw [h.pure, Outcome.after_nil]
    rfl

/-- A walk takes its steps. -/
theorem eq_of_walk {above : List Bytes} {f : Forest FileEntry Unit} (ha : ∀ name ∈ above, IsName name)
    (named : f.AllNames IsName) (h : Returns (c.walk above f s) s') :
    s' = ⟨(c.rules.walkSteps above f s.remaining).2,
      s.outcome.after c.hashAt (c.rules.walkSteps above f s.remaining).1⟩ := by
  -- The rest of the forest goes on from what its first entry left of the reference, so its steps are those from
  -- there; a folder that is entered comes with steps of its own, by the other induction hypothesis.
  induction f generalizing above s s' with
  | nil =>
      rw [walk] at h
      rw [h.pure, IgnoreRules.walkSteps, Outcome.after_nil]
  | leaf name value rest ih =>
      rcases returns_walk_leaf h with ⟨s₁, h₁, hrest⟩
      have hnext := ih ha named.2 hrest
      rcases returns_visitLeaf h₁ with ⟨hg, rfl⟩ | ⟨hg, h₁⟩
      · rw [hnext, IgnoreRules.walkSteps, if_pos hg]
      · rw [eq_of_visitFile (isName_concat ha named.1) h₁, ← Outcome.after_append] at hnext
        rw [hnext, IgnoreRules.walkSteps_leaf hg rfl]
        rfl
  | folder name value members rest ihm ih =>
      rcases returns_walk_folder h with ⟨s₁, h₁, hrest⟩
      have hnext := ih ha named.2.2 hrest
      rcases returns_visitFolder h₁ with ⟨hg, rfl⟩ | ⟨hg, ⟨e, he, rfl⟩ | ⟨hi, rfl⟩ | ⟨hi, h₁⟩⟩
      · rw [hnext, IgnoreRules.walkSteps, if_pos hg]
      · rw [hnext, IgnoreRules.walkSteps_refused hg he, Prod.map_fst, Outcome.after_cons]
        rfl
      · rw [hnext, IgnoreRules.walkSteps_left_out hg hi]
        rfl
      · rw [ihm (isName_concat ha named.1) named.2.1 h₁, ← Outcome.after_append] at hnext
        rw [hnext, IgnoreRules.walkSteps_entered hg hi]
        rfl

/-- Settling a path takes its steps. -/
theorem eq_of_settleOne {e : Path × ContentId} (h : Returns (c.settleOne e.1 e.2 s) s') :
    s' = ⟨s.remaining, s.outcome.after c.hashAt (c.settleSteps e)⟩ := by
  unfold settleOne at h
  rcases h.bind with ⟨answer, ha, h⟩
  have judged := answer_eq_judge ha
  unfold settleSteps
  rw [← judged]
  rcases answer with failure | _ | _
  · rw [h.pure]
    rfl
  · simp only at h ⊢
    split_ifs at h ⊢ with hf
    · exact eq_of_compare h
    · rw [h.pure, Outcome.after_change s.outcome rfl rfl]
      rfl
  · rw [h.pure, Outcome.after_nil]

/-- Settling takes the steps of its paths, one after the other. -/
theorem eq_of_settle {left : Reference} (h : Returns (c.settle left s) s') :
    s' = ⟨s.remaining, s.outcome.after c.hashAt (left.flatMap c.settleSteps)⟩ := by
  induction left generalizing s with
  | nil =>
      rw [settle] at h
      rw [h.pure, List.flatMap_nil, Outcome.after_nil]
  | cons e left ih =>
      rcases returns_settle_cons h with ⟨s₁, h₁, hrest⟩
      rw [ih hrest, eq_of_settleOne h₁, List.flatMap_cons, Outcome.after_append]

/-- The outcome of a scan is its script, answered: the changes that the steps come to, in order, and what was
    skipped at them. -/
theorem returns_scan_script {members : Forest FileEntry Unit} (tree : c.disk.IsWorkingTree c.root members)
    {reference : Reference} {o : Outcome} (h : Returns (c.scan (.ok reference)) o) :
    o.changes = ascending Change.path ((c.script members reference).filterMap (Step.change? c.hashAt)) ∧
      o.skipped = (c.script members reference).filterMap (Step.skip? c.hashAt) := by
  rcases returns_scan tree h with ⟨s₁, s₂, walked, settled, rfl⟩
  have h₁ := eq_of_walk (fun _ hm => absurd hm List.not_mem_nil) (tree.named.imp fun _ hn => hn.1) walked
  have h₂ := eq_of_settle settled
  rw [h₁, ← Outcome.after_append] at h₂
  rw [h₂]
  exact ⟨rfl, List.nil_append _⟩

section

variable {r : IgnoreRules} {above : List Bytes} {f : Forest FileEntry Unit} {left : Reference}

theorem paths_meetSteps (known : Option ContentId) (q : Path) :
    ((r.meetSteps known q).map Step.path).Sublist [q] := by
  unfold IgnoreRules.meetSteps
  rcases r.judge q with e | _ | _
  · exact List.Sublist.refl _
  · cases known with
    | none => exact List.Sublist.refl _
    | some expected => exact List.Sublist.refl _
  · exact List.nil_sublist _

theorem paths_settleSteps (c : Scanner) (e : Path × ContentId) :
    ((c.settleSteps e).map Step.path).Sublist [e.1] := by
  unfold settleSteps
  rcases c.rules.judge e.1 with failure | _ | _
  · exact List.Sublist.refl _
  · simp only
    split_ifs
    · exact List.Sublist.refl _
    · exact List.Sublist.refl _
  · exact List.nil_sublist _

theorem paths_flatMap (c : Scanner) (left : Reference) :
    ((left.flatMap c.settleSteps).map Step.path).Sublist (left.map Prod.fst) := by
  induction left with
  | nil => exact List.Sublist.refl _
  | cons e left ih =>
      rw [List.flatMap_cons, List.map_append, List.map_cons]
      exact (paths_settleSteps c e).append ih

/-- A walk only takes entries out of the reference. -/
theorem walkSteps_sublist (r : IgnoreRules) (above : List Bytes) (f : Forest FileEntry Unit)
    (left : Reference) : (r.walkSteps above f left).2.Sublist left := by
  -- A file takes out its own entry and a folder that is left out those below it; all else leaves the reference to the
  -- rest.
  induction f generalizing above left with
  | nil => exact List.Sublist.refl _
  | leaf name value rest ih =>
      by_cases hg : name = Utf8.encode gitFolderName
      · rw [IgnoreRules.walkSteps, if_pos hg]
        exact ih above left
      · rw [IgnoreRules.walkSteps_leaf hg rfl]
        exact (ih _ _).trans List.filter_sublist
  | folder name value members rest ihm ih =>
      by_cases hg : name = Utf8.encode gitFolderName
      · rw [IgnoreRules.walkSteps, if_pos hg]
        exact ih above left
      · rcases hi : r.isIgnored (pathOf (above ++ [name])) true with e | _ | _
        · rw [IgnoreRules.walkSteps_refused hg hi]
          exact ih above left
        · rw [IgnoreRules.walkSteps_entered hg hi]
          exact (ih _ _).trans (ihm _ _)
        · rw [IgnoreRules.walkSteps_left_out hg hi]
          exact (ih _ _).trans List.filter_sublist

end

section

variable {members : Forest FileEntry Unit} (tree : c.disk.IsWorkingTree c.root members) {reference : Reference}
  {o : Outcome} (h : Returns (c.scan (.ok reference)) o)

include tree h

theorem mem_skipped_iff {skipped : Skipped} : skipped ∈ o.skipped ↔
    ∃ step ∈ c.script members reference, step.skip? c.hashAt = some skipped := by
  rw [(returns_scan_script tree h).2, List.mem_filterMap]

variable (nodup : ((c.script members reference).map Step.path).Nodup)

include nodup

/-- Where no path has two steps, no change replaces another one. -/
theorem mem_changes_iff {change : Change} : change ∈ o.changes ↔
    ∃ step ∈ c.script members reference, step.change? c.hashAt = some change := by
  rw [(returns_scan_script tree h).1, ← List.mem_filterMap]
  refine ⟨mem_of_mem_ascending, fun hm => mem_ascending hm fun other ho hpath => ?_⟩
  -- A change at the same path would be the change of the same step.
  rcases List.mem_filterMap.mp hm with ⟨step, hs, hc⟩
  rcases List.mem_filterMap.mp ho with ⟨step', hs', hc'⟩
  rw [Step.path_of_change? hc, Step.path_of_change? hc'] at hpath
  rw [List.inj_on_of_nodup_map nodup hs' hs hpath] at hc'
  exact Option.some.inj (hc'.symm.trans hc)

/-- Where no path has two steps, none is skipped twice. -/
theorem nodup_skipped : (o.skipped.map Skipped.path).Nodup := by
  rw [(returns_scan_script tree h).2]
  exact nodup.sublist (Step.paths_skips c.hashAt _)

end

end Scanner

end ThreeWay
