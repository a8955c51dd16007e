import ThreeWay.Proofs.Ascending
import ThreeWay.Proofs.Lists
import ThreeWay.Proofs.Run
import ThreeWay.Proofs.Scan.Law

/-!
# Steps of a Scan

What one step of a scan does to its state, seen at one path. A state is two tables, what remains of the
reference and what was found, and every step changes them at the paths it is about and nowhere else.

The steps are described as they end, by `Returns`, and under the condition that nothing was skipped. A
failed question leaves its mark in the list of what was skipped, and that list only grows; so an empty
list in the end tells that every question had an answer.

There are two kinds of lemmas. The ones that start with `returns_` invert a step: they list the states it may end
in, each with the answer that led there. Everything else is a case analysis over such a list, and no later proof
unfolds a step again. The ones that end with `_gives` say that a step ends at all, which inversion does not.

What a step finds is said at one path, and apart from that at all others, where it finds nothing. A scan takes
many steps, and of most of them only the second is needed: the path in question is met once, and every other step
leaves it alone. That the path was not found before is a condition of the first kind, since a later change takes
the place of an earlier one.

## Main definitions

* `Scanner.State.Finds`: What a state has found at a path.
* `Scanner.Met`: What a file that is met is reported as.

## Theorems

* `finds_record`, `lookup_meet`, `lookup_forget`: The state changes, seen at one path.
* `not_clean_skip`, `prefix_skip`: A failure leaves its mark, and the mark stays.
* `returns_isExcluded`: What an answer about a file says of the rules.
* `returns_compare_of_ok`, `returns_compare_of_error`: Comparing a file.
* `returns_compare`, `compare_finds`, `compare_other`: The ways in which a comparison ends, and what it finds.
* `returns_visitFile`: The four ways in which a file is met.
* `visitFile_finds`: Meeting a file.
* `visitFile_remaining`, `visitFile_other`: Meeting a file, seen at other paths.
* `skipped_visitFile`: What was skipped stays skipped.
* `visitFile_gives`, `visitFile_clean`: It ends, and skips nothing where its questions have answers.
-/

namespace ThreeWay

namespace Scanner

open ThreeWay.Path Run

namespace State

/-- The state has found a change at a path. -/
def Finds (s : State) (p : Path) (k : ChangeKind) : Prop :=
  ⟨p, k⟩ ∈ s.outcome.changes

/-- What was found is in ascending order of paths. -/
def Ordered (s : State) : Prop :=
  Ascending Change.path s.outcome.changes

/-- Nothing was skipped. -/
def Clean (s : State) : Prop :=
  s.outcome.skipped = []

theorem Ordered.record {s : State} (h : s.Ordered) (p : Path) (k : ChangeKind) :
    (s.record p k).Ordered :=
  ascending_insertAt _ h

theorem finds_record {s : State} (h : s.Ordered) {p q : Path} {k kind : ChangeKind} :
    (s.record q kind).Finds p k ↔ (p = q ∧ k = kind) ∨ (p ≠ q ∧ s.Finds p k) := by
  have ho : Ascending Change.path s.outcome.changes := h
  -- Recording replaces a change at the same path, so at that path only the new one is found.
  have hm := mem_insertAt (x := ⟨q, kind⟩) ho ⟨p, k⟩
  rw [Finds, State.record, Outcome.record, hm, Change.mk.injEq, and_comm (b := p ≠ q)]
  rfl

theorem lookup_meet (s : State) (p q : Path) :
    (s.meet q).remaining.lookup p = if p = q then none else s.remaining.lookup p := by
  have h := List.lookup_filter_key (fun x => decide (x ≠ q)) s.remaining p
  simp only [decide_eq_true_eq] at h
  rw [meet, h]
  by_cases hp : p = q
  · rw [if_pos hp, if_neg (not_not.mpr hp)]
  · rw [if_neg hp, if_pos hp]

theorem lookup_forget (s : State) (folder p : Path) (isRuleFile : Path → Bool) :
    (s.forget folder isRuleFile).remaining.lookup p =
      if p.startsWith folder = true ∧ isRuleFile p = false then none else s.remaining.lookup p := by
  have h := List.lookup_filter_key (fun x => !x.startsWith folder || isRuleFile x) s.remaining p
  rw [forget]
  refine h.trans ?_
  cases p.startsWith folder <;> cases isRuleFile p <;> simp

theorem not_clean_skip (s : State) (p : Path) (e : Error) : ¬ (s.skip p e).Clean := by
  rw [Clean, skip, Outcome.skip]
  simp

theorem prefix_skip (s : State) (p : Path) (e : Error) :
    s.outcome.skipped <+: (s.skip p e).outcome.skipped :=
  List.prefix_append _ _

end State

/-- What a file that is met is reported as, by what the reference knows of it. -/
inductive Met (c : Scanner) (p : Path) : Option ContentId → ChangeKind → Prop
  | new (kept : ¬ c.Excluded p) : Met c p none .addition
  | changed (id : ContentId) (kept : ¬ c.Excluded p) (unequal : c.Unequal p id) :
      Met c p (some id) .modification

variable {c : Scanner} {s s' : State} {p : Path}

theorem Met.kept {known : Option ContentId} {k : ChangeKind} (h : Met c p known k) :
    ¬ c.Excluded p := by
  cases h with
  | new kept => exact kept
  | changed id kept => exact kept

/-- The answer about a file says whether it is excluded. -/
theorem returns_isExcluded {answer : Except Error Bool} (h : Returns (c.isExcluded p) answer) :
    (answer = .ok true → c.Excluded p) ∧ (answer = .ok false → ¬ c.Excluded p) ∧
      ∀ e, answer = .error e → c.rules.isIgnored p false = .error e := by
  unfold isExcluded at h
  rcases h.bind with ⟨isRuleFile, hr, h⟩
  cases Except.ok.inj hr.serve
  -- An ignore file is never left out, whatever the rules would say about it. The rules are asked about all others.
  by_cases hr : c.rules.isRuleFile p = true
  · rw [if_pos hr] at h
    rw [h.pure]
    refine ⟨fun he => (nomatch he), fun _ hx => ?_, fun _ he => (nomatch he)⟩
    exact Bool.false_ne_true (hx.1.symm.trans hr)
  · rw [if_neg hr] at h
    rw [h.serveAny]
    refine ⟨fun he => ⟨Bool.eq_false_iff.mpr hr, he⟩, fun he hx => ?_, fun _ he => he⟩
    exact absurd (Except.ok.inj (he.symm.trans hx.2)) Bool.false_ne_true

/-- A file that can be read is compared. -/
theorem returns_compare_of_ok {file : RawPath} {expected found : ContentId} (hh : c.hash file = .ok found)
    (h : Returns (c.compare p file expected s) s') :
    s' = if found = expected then s else s.record p .modification := by
  rcases h.bind with ⟨answer, ha, h⟩
  rw [ha.serveAny, hh] at h
  exact h.pure

/-- A file that cannot be read is skipped. -/
theorem returns_compare_of_error {file : RawPath} {expected : ContentId} {e : Error}
    (hh : c.hash file = .error e) (h : Returns (c.compare p file expected s) s') : s' = s.skip p e := by
  rcases h.bind with ⟨answer, ha, h⟩
  rw [ha.serveAny, hh] at h
  exact h.pure

/-- A comparison leaves the state alone, records a change, or skips the path. -/
theorem returns_compare {file : RawPath} {expected : ContentId}
    (h : Returns (c.compare p file expected s) s') :
    (c.hash file = .ok expected ∧ s' = s) ∨
      (c.hash file ≠ .ok expected ∧ s' = s.record p .modification) ∨
      ∃ e, c.hash file = .error e ∧ s' = s.skip p e := by
  -- The hash decides: it fails, it is the expected id, or it is another one.
  cases hh : c.hash file with
  | error e => exact Or.inr (Or.inr ⟨e, rfl, returns_compare_of_error hh h⟩)
  | ok found =>
      have hs := returns_compare_of_ok hh h
      split_ifs at hs with he
      · exact Or.inl ⟨by rw [he], hs⟩
      · exact Or.inr (Or.inl ⟨fun hx => he (Except.ok.inj hx), hs⟩)

/-- The raw path of a chain of names is the one that its path has. -/
theorem fileOf_eq {below : List Bytes} (h : ∀ name ∈ below, IsName name) :
    c.fileOf below = c.root.join (pathOf below).toRaw := by
  rw [fileOf, toRaw, toBytes_eq (isOrdinary_pathOf h), names_pathOf h]

/-- What was skipped before a comparison stays skipped. -/
theorem skipped_compare {file : RawPath} {expected : ContentId}
    (h : Returns (c.compare p file expected s) s') : s.outcome.skipped <+: s'.outcome.skipped := by
  rcases returns_compare h with ⟨_, rfl⟩ | ⟨_, rfl⟩ | ⟨e, _, rfl⟩
  · exact List.prefix_rfl
  · exact List.prefix_rfl
  · exact s.prefix_skip p e

theorem compare_ordered {file : RawPath} {expected : ContentId}
    (h : Returns (c.compare p file expected s) s') (ho : s.Ordered) : s'.Ordered := by
  rcases returns_compare h with ⟨_, rfl⟩ | ⟨_, rfl⟩ | ⟨e, _, rfl⟩
  · exact ho
  · exact ho.record _ _
  · exact ho

/-- Recording a change finds nothing at other paths. -/
theorem record_other (ho : s.Ordered) {q : Path} (hp : p ≠ q) (kind k : ChangeKind) :
    (s.record q kind).Finds p k ↔ s.Finds p k := by
  rw [State.finds_record ho]
  simp only [hp, false_and, false_or, ne_eq, not_false_eq_true, true_and]

/-- A comparison finds nothing at other paths. -/
theorem compare_other {q : Path} {file : RawPath} {expected : ContentId}
    (h : Returns (c.compare q file expected s) s') (ho : s.Ordered) (hp : p ≠ q) (k : ChangeKind) :
    s'.Finds p k ↔ s.Finds p k := by
  rcases returns_compare h with ⟨_, rfl⟩ | ⟨_, rfl⟩ | ⟨e, _, rfl⟩
  · rfl
  · exact record_other ho hp _ k
  · rfl

/-- What a comparison finds at its path, if nothing was found there before and nothing is skipped. -/
theorem compare_finds {expected : ContentId}
    (h : Returns (c.compare p (c.root.join p.toRaw) expected s) s') (ho : s.Ordered)
    (clean : s'.Clean) (fresh : ∀ k, ¬ s.Finds p k) (k : ChangeKind) :
    s'.Finds p k ↔ c.Unequal p expected ∧ k = .modification := by
  rcases returns_compare h with ⟨he, rfl⟩ | ⟨he, rfl⟩ | ⟨e, _, rfl⟩
  -- Nothing is recorded, and nothing was found here before.
  · exact ⟨fun hf => absurd hf (fresh k), fun hu => absurd he hu.1⟩
  · rw [State.finds_record ho]
    constructor
    · rintro (⟨_, hk⟩ | ⟨hne, _⟩)
      · exact ⟨he, hk⟩
      · exact absurd rfl hne
    · rintro ⟨_, hk⟩
      exact Or.inl ⟨rfl, hk⟩
  · exact absurd clean (State.not_clean_skip _ _ e)

/-- Meeting a file skips it, or passes over it, or records it, or compares it. -/
theorem returns_visitFile {below : List Bytes} (h : Returns (c.visitFile below s) s') :
    (∃ e, c.rules.isIgnored (pathOf below) false = .error e ∧
        s' = (s.meet (pathOf below)).skip (pathOf below) e) ∨
      (c.Excluded (pathOf below) ∧ s' = s.meet (pathOf below)) ∨
      (¬ c.Excluded (pathOf below) ∧ s.remaining.lookup (pathOf below) = none ∧
        s' = (s.meet (pathOf below)).record (pathOf below) .addition) ∨
      ∃ id, ¬ c.Excluded (pathOf below) ∧ s.remaining.lookup (pathOf below) = some id ∧
        Returns (c.compare (pathOf below) (c.fileOf below) id (s.meet (pathOf below))) s' := by
  unfold visitFile at h
  rcases h.bind with ⟨answer, ha, h⟩
  have he := returns_isExcluded ha
  -- First the answer of the rules, and where they keep the file, what the reference knows of it.
  cases answer with
  | error e => exact Or.inl ⟨e, he.2.2 e rfl, h.pure⟩
  | ok excluded =>
      cases excluded with
      | true => exact Or.inr (Or.inl ⟨he.1 rfl, h.pure⟩)
      | false =>
          simp only at h
          cases hk : s.remaining.lookup (pathOf below) with
          | none =>
              rw [hk] at h
              exact Or.inr (Or.inr (Or.inl ⟨he.2.1 rfl, rfl, h.pure⟩))
          | some id =>
              rw [hk] at h
              exact Or.inr (Or.inr (Or.inr ⟨id, he.2.1 rfl, rfl, h⟩))

/-- What was skipped before a file is met stays skipped. -/
theorem skipped_visitFile {below : List Bytes} (h : Returns (c.visitFile below s) s') :
    s.outcome.skipped <+: s'.outcome.skipped := by
  rcases returns_visitFile h with ⟨e, _, rfl⟩ | ⟨_, rfl⟩ | ⟨_, _, rfl⟩ | ⟨id, _, _, hc⟩
  · exact (s.meet (pathOf below)).prefix_skip _ e
  · exact List.prefix_rfl
  · exact List.prefix_rfl
  -- Taking the path out of what remains does not touch what was skipped.
  · have hs := skipped_compare hc
    exact hs

/-- Meeting a file takes its path out of what remains, and no other path. -/
theorem visitFile_remaining {below : List Bytes} (h : Returns (c.visitFile below s) s') :
    s'.remaining = (s.meet (pathOf below)).remaining := by
  rcases returns_visitFile h with ⟨e, _, rfl⟩ | ⟨_, rfl⟩ | ⟨_, _, rfl⟩ | ⟨id, _, _, hc⟩
  · rfl
  · rfl
  · rfl
  -- A comparison changes the outcome only, however it ends.
  · rcases returns_compare hc with ⟨_, rfl⟩ | ⟨_, rfl⟩ | ⟨e, _, rfl⟩
    · rfl
    · rfl
    · rfl

theorem visitFile_ordered {below : List Bytes} (h : Returns (c.visitFile below s) s')
    (ho : s.Ordered) : s'.Ordered := by
  have hm : (s.meet (pathOf below)).Ordered := ho
  rcases returns_visitFile h with ⟨e, _, rfl⟩ | ⟨_, rfl⟩ | ⟨_, _, rfl⟩ | ⟨id, _, _, hc⟩
  · exact hm
  · exact hm
  · exact hm.record _ _
  · exact compare_ordered hc hm

/-- Meeting a file finds nothing at other paths. -/
theorem visitFile_other {below : List Bytes} (h : Returns (c.visitFile below s) s')
    (ho : s.Ordered) (hp : p ≠ pathOf below) (k : ChangeKind) : s'.Finds p k ↔ s.Finds p k := by
  -- The path is taken out of the reference first, which changes nothing that was found.
  have hm : (s.meet (pathOf below)).Ordered := ho
  rcases returns_visitFile h with ⟨e, _, rfl⟩ | ⟨_, rfl⟩ | ⟨_, _, rfl⟩ | ⟨id, _, _, hc⟩
  · rfl
  · rfl
  · exact record_other hm hp _ k
  · exact compare_other hc hm hp k

/-- Whatever is skipped, meeting a file finds nothing new at other paths. -/
theorem found_visitFile {below : List Bytes} {k : ChangeKind} (h : Returns (c.visitFile below s) s')
    (ho : s.Ordered) (hf : s'.Finds p k) : s.Finds p k ∨ p = pathOf below := by
  by_cases hp : p = pathOf below
  · exact Or.inr hp
  · exact Or.inl ((visitFile_other h ho hp k).mp hf)

/-- What meeting a file finds at its path, if nothing was found there before and nothing is skipped. -/
theorem visitFile_finds {below : List Bytes} (h : Returns (c.visitFile below s) s')
    (hb : ∀ name ∈ below, IsName name) (ho : s.Ordered) (clean : s'.Clean)
    (fresh : ∀ k, ¬ s.Finds (pathOf below) k) (k : ChangeKind) :
    s'.Finds (pathOf below) k ↔ Met c (pathOf below) (s.remaining.lookup (pathOf below)) k := by
  have hm : (s.meet (pathOf below)).Ordered := ho
  have fresh' : ∀ k, ¬ (s.meet (pathOf below)).Finds (pathOf below) k := fresh
  rcases returns_visitFile h with ⟨e, _, rfl⟩ | ⟨hx, rfl⟩ | ⟨hx, hk, rfl⟩ | ⟨id, hx, hk, hc⟩
  -- A failure of the rules would have left its mark.
  · exact absurd clean (State.not_clean_skip _ _ e)
  · exact ⟨fun hf => absurd hf (fresh' k), fun hm => absurd hx hm.kept⟩
  · rw [hk, State.finds_record hm]
    constructor
    · rintro (⟨_, rfl⟩ | ⟨hne, _⟩)
      · exact Met.new hx
      · exact absurd rfl hne
    · intro hmet
      cases hmet
      exact Or.inl ⟨rfl, rfl⟩
  -- What is left is the comparison, and the file is hashed at the place that its path names.
  · rw [fileOf_eq hb] at hc
    rw [hk, compare_finds hc hm clean fresh']
    constructor
    · rintro ⟨hu, rfl⟩
      exact Met.changed id hx hu
    · intro hmet
      cases hmet with
      | changed _ _ unequal => exact ⟨unequal, rfl⟩

theorem isExcluded_gives (c : Scanner) (p : Path) : ∃ answer, Gives (c.isExcluded p) (.ok answer) := by
  unfold isExcluded
  by_cases hr : c.rules.isRuleFile p = true
  · refine ⟨.ok false, (Gives.serve _ _).bind ?_⟩
    rw [if_pos hr]
    exact Gives.pure _
  · refine ⟨c.rules.isIgnored p false, (Gives.serve _ _).bind ?_⟩
    rw [if_neg hr]
    exact Gives.serveAny _ _

theorem compare_gives (c : Scanner) (p : Path) (file : RawPath) (expected : ContentId) (s : State) :
    ∃ s', Gives (c.compare p file expected s) (.ok s') := by
  unfold compare
  cases hh : c.hash file with
  | error e => exact ⟨_, (Gives.serveAny _ _).bind (Gives.pure _)⟩
  | ok found =>
      refine ⟨if found = expected then s else s.record p .modification, ?_⟩
      refine (Gives.serveAny _ _).bind ?_
      exact Gives.pure _

/-- Meeting a file always ends. -/
theorem visitFile_gives (c : Scanner) (below : List Bytes) (s : State) :
    ∃ s', Gives (c.visitFile below s) (.ok s') := by
  unfold visitFile
  rcases c.isExcluded_gives (pathOf below) with ⟨answer, ha⟩
  -- In every case the next question is known, and every question has an answer, be it a failure.
  rcases answer with e | _ | _
  · exact ⟨_, ha.bind (Gives.pure _)⟩
  · cases hk : s.remaining.lookup (pathOf below) with
    | none =>
        refine ⟨(s.meet (pathOf below)).record (pathOf below) .addition, ha.bind ?_⟩
        simp only [hk]
        exact Gives.pure _
    | some id =>
        rcases c.compare_gives (pathOf below) (c.fileOf below) id (s.meet (pathOf below)) with
          ⟨s', hs⟩
        refine ⟨s', ha.bind ?_⟩
        simp only [hk]
        exact hs
  · exact ⟨_, ha.bind (Gives.pure _)⟩

/-- All questions of a scan have answers. -/
structure Answers (c : Scanner) : Prop where
  verdicts : ∀ p isFolder, ∃ verdict, c.rules.isIgnored p isFolder = .ok verdict
  hashes : ∀ file, ∃ id, c.hash file = .ok id

/-- Whether a path is left out is known. -/
def IsJudged (c : Scanner) (p : Path) (isFolder : Bool) : Prop :=
  ∃ verdict, c.rules.isIgnored p isFolder = .ok verdict

/-- The id of a file is known. -/
def IsHashed (c : Scanner) (file : RawPath) : Prop :=
  ∃ id, c.hash file = .ok id

theorem IsJudged.not_error {isFolder : Bool} (h : c.IsJudged p isFolder) {e : Error} :
    c.rules.isIgnored p isFolder ≠ .error e := by
  rcases h with ⟨verdict, hv⟩
  rw [hv]
  exact fun h => nomatch h

theorem compare_clean {file : RawPath} {expected : ContentId} (hashed : c.IsHashed file)
    (h : Returns (c.compare p file expected s) s') (clean : s.Clean) : s'.Clean := by
  rcases returns_compare h with ⟨_, rfl⟩ | ⟨_, rfl⟩ | ⟨e, he, rfl⟩
  · exact clean
  · exact clean
  · rcases hashed with ⟨id, hid⟩
    cases hid.symm.trans he

/-- Meeting a file skips nothing where the questions about the file have answers. -/
theorem visitFile_clean {below : List Bytes} (judged : c.IsJudged (pathOf below) false)
    (hashed : c.IsHashed (c.fileOf below)) (h : Returns (c.visitFile below s) s')
    (clean : s.Clean) : s'.Clean := by
  rcases returns_visitFile h with ⟨e, he, rfl⟩ | ⟨_, rfl⟩ | ⟨_, _, rfl⟩ | ⟨id, _, _, hc⟩
  · exact absurd he judged.not_error
  · exact clean
  · exact clean
  · exact compare_clean hashed hc clean

end Scanner

end ThreeWay
