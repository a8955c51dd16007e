import ThreeWay.Proofs.Scan.Walk
import ThreeWay.Settings.Basic

/-!
# The End of a Scan

What the walk did not meet is settled in the end, and then the whole scan obeys its law.

Settling goes through what remains of the reference, one path after the other, and each path is settled
by looking at the disk once more. Below a folder without links the disk and the forest of the walk agree
about which paths are files, so this second look only ever finds ignore files in folders that were not
entered.

`changes_iff_reported` puts the walk and the settling together at one path. It holds of every scan that
skipped nothing, and `scan_clean` shows that a scan with answers to its questions is one of them.

The law itself is a case analysis on whether the walk meets a path. If it does, the path is out of the reference
and settling does not come to it. If it does not, the walk found nothing there, and what the walk left of the
reference decides. So each path is found by one of the two at most, which is what makes them add up.

As on the walk, one step is inverted first: `returns_settleOne` lists how a path may be settled, and what holds of
each way holds of the step. `settle_induction` carries it over all paths. What is found at a path that does not
remain is found already (`settle_other`), so only the step at the path itself counts, and it comes once because
the paths of the reference ascend.

That a scan ends is proved apart from what it finds, by the same two recursions. It ends with an outcome whatever
the rules and the hashes answer: a question that fails costs its path, and never the scan.

## Main definitions

* `Scanner.Settled`: What a path that was not met is reported as.

## Theorems

* `returns_settleOne`: The ways in which a path is settled.
* `settleOne_other`, `settleOne_finds`: Settling one path, seen at other paths and at its own.
* `settle_induction`: What one path keeps up, all paths keep up.
* `skipped_settle`, `settle_ordered`, `found_settle`: What settling keeps up.
* `settle_finds`: Settling what remains.
* `met_iff_reported`, `settled_iff_reported`: A report is that of the walk or that of the end.
* `fileAt_iff_isFile`: The walk and the disk agree about files.
* `finds_iff_met_or_settled`: What is found at a path that the walk meets, and at one that it does not.
* `returns_scan`: A scan is a walk and then settling.
* `changes_iff_reported`: A scan that skips nothing reports what it has to.
* `scan_gives`, `scan_clean`: A scan ends, and skips nothing where its questions have answers.
* `scan_reports`: Such a scan obeys the law.
-/

namespace ThreeWay

namespace Scanner

open ThreeWay.Path Run

/-- What a path that the walk did not meet is reported as. -/
inductive Settled (c : Scanner) (p : Path) (id : ContentId) : ChangeKind → Prop
  | changed (kept : ¬ c.Excluded p) (file : c.disk.isFile (c.root.join p.toRaw) = true)
      (unequal : c.Unequal p id) : Settled c p id .modification
  | deleted (kept : ¬ c.Excluded p) (missing : c.disk.isFile (c.root.join p.toRaw) = false) :
      Settled c p id .deletion

/-- Settle one path. -/
def settleOne (c : Scanner) (path : Path) (expected : ContentId) (s : State) : Run State := do
  match ← c.isExcluded path with
  | .error e => pure (s.skip path e)
  | .ok true => pure s
  | .ok false =>
    if c.disk.isFile (c.root.join path.toRaw) then
      c.compare path (c.root.join path.toRaw) expected s
    else pure (s.record path .deletion)

theorem settle_cons (c : Scanner) (path : Path) (expected : ContentId) (rest : Reference)
    (s : State) :
    c.settle ((path, expected) :: rest) s = (do
      Run.checkpoint c.signal
      c.settle rest (← c.settleOne path expected s)) := by
  rw [settle]
  unfold settleOne
  congr 1
  funext _
  simp only [bind_assoc]
  congr 1
  funext answer
  -- In each case the path is dealt with before the rest, on both sides alike.
  rcases answer with e | _ | _
  · rfl
  · by_cases hf : c.disk.isFile (c.root.join path.toRaw) = true
    · simp only [hf, if_true]
    · simp only [hf]
      rfl
  · rfl

variable {c : Scanner} {s s' : State} {p q : Path} {expected : ContentId}

theorem returns_settleOne (h : Returns (c.settleOne q expected s) s') :
    (∃ e, c.rules.isIgnored q false = .error e ∧ s' = s.skip q e) ∨ (c.Excluded q ∧ s' = s) ∨
      (¬ c.Excluded q ∧ c.disk.isFile (c.root.join q.toRaw) = true ∧
        Returns (c.compare q (c.root.join q.toRaw) expected s) s') ∨
      (¬ c.Excluded q ∧ c.disk.isFile (c.root.join q.toRaw) = false ∧ s' = s.record q .deletion) := by
  unfold settleOne at h
  rcases h.bind with ⟨answer, ha, h⟩
  have he := returns_isExcluded ha
  rcases answer with e | _ | _
  · exact Or.inl ⟨e, he.2.2 e rfl, h.pure⟩
  · right
    right
    simp only at h
    by_cases hf : c.disk.isFile (c.root.join q.toRaw) = true
    · rw [if_pos hf] at h
      exact Or.inl ⟨he.2.1 rfl, hf, h⟩
    · rw [if_neg hf] at h
      exact Or.inr ⟨he.2.1 rfl, Bool.eq_false_iff.mpr hf, h.pure⟩
  · exact Or.inr (Or.inl ⟨he.1 rfl, h.pure⟩)

theorem skipped_settleOne (h : Returns (c.settleOne q expected s) s') :
    s.outcome.skipped <+: s'.outcome.skipped := by
  rcases returns_settleOne h with ⟨e, _, rfl⟩ | ⟨_, rfl⟩ | ⟨_, _, hc⟩ | ⟨_, _, rfl⟩
  · exact s.prefix_skip q e
  · exact List.prefix_rfl
  · exact skipped_compare hc
  · exact List.prefix_rfl

theorem settleOne_ordered (h : Returns (c.settleOne q expected s) s') (ho : s.Ordered) :
    s'.Ordered := by
  rcases returns_settleOne h with ⟨e, _, rfl⟩ | ⟨_, rfl⟩ | ⟨_, _, hc⟩ | ⟨_, _, rfl⟩
  · exact ho
  · exact ho
  · exact compare_ordered hc ho
  · exact ho.record _ _

/-- Settling one path finds nothing at other paths. -/
theorem settleOne_other (h : Returns (c.settleOne q expected s) s') (ho : s.Ordered) (hp : p ≠ q)
    (k : ChangeKind) : s'.Finds p k ↔ s.Finds p k := by
  rcases returns_settleOne h with ⟨e, _, rfl⟩ | ⟨_, rfl⟩ | ⟨_, _, hc⟩ | ⟨_, _, rfl⟩
  · rfl
  · rfl
  · exact compare_other hc ho hp k
  · exact record_other ho hp _ k

/-- What settling a path finds, if nothing was found there before and nothing is skipped. -/
theorem settleOne_finds (h : Returns (c.settleOne p expected s) s') (ho : s.Ordered)
    (clean : s'.Clean) (fresh : ∀ k, ¬ s.Finds p k) (k : ChangeKind) :
    s'.Finds p k ↔ Settled c p expected k := by
  -- The four ways in which a path is settled; `Settled` has a constructor for two of them.
  rcases returns_settleOne h with ⟨e, _, rfl⟩ | ⟨hx, rfl⟩ | ⟨hx, hf, hc⟩ | ⟨hx, hf, rfl⟩
  · exact absurd clean (State.not_clean_skip _ _ e)
  · refine ⟨fun h => absurd h (fresh k), fun hs => ?_⟩
    cases hs with
    | changed kept => exact absurd hx kept
    | deleted kept => exact absurd hx kept
  · rw [compare_finds hc ho clean fresh]
    constructor
    · rintro ⟨hu, rfl⟩
      exact Settled.changed hx hf hu
    · intro hs
      cases hs with
      | changed _ _ unequal => exact ⟨unequal, rfl⟩
      | deleted _ missing => exact absurd (missing.symm.trans hf) Bool.false_ne_true
  · rw [State.finds_record ho]
    constructor
    · rintro (⟨_, rfl⟩ | ⟨hne, _⟩)
      · exact Settled.deleted hx hf
      · exact absurd rfl hne
    · intro hs
      cases hs with
      | changed _ file => exact absurd (hf.symm.trans file) Bool.false_ne_true
      | deleted => exact Or.inl ⟨rfl, rfl⟩

/-- Settling a reference is settling its first path and then the rest. -/
theorem returns_settle_cons {e : Path × ContentId} {rest : Reference}
    (h : Returns (c.settle (e :: rest) s) s') :
    ∃ s₁, Returns (c.settleOne e.1 e.2 s) s₁ ∧ Returns (c.settle rest s₁) s' := by
  rw [settle_cons] at h
  rcases h.bind with ⟨_, _, h⟩
  exact h.bind

/-- What settling one path keeps up, settling keeps up. -/
theorem settle_induction {R : State → State → Prop} (refl : ∀ s, R s s)
    (trans : ∀ s₁ s₂ s₃, R s₁ s₂ → R s₂ s₃ → R s₁ s₃)
    {rest : Reference} (one : ∀ e ∈ rest, ∀ s s', Returns (c.settleOne e.1 e.2 s) s' → R s s')
    (h : Returns (c.settle rest s) s') : R s s' := by
  induction rest generalizing s with
  | nil =>
      rw [settle] at h
      rw [h.pure]
      exact refl s
  | cons e rest ih =>
      rcases returns_settle_cons h with ⟨s₁, h₁, h⟩
      exact trans s s₁ s' (one e List.mem_cons_self s s₁ h₁)
        (ih (fun d hd => one d (List.mem_cons_of_mem _ hd)) h)

theorem skipped_settle {rest : Reference} (h : Returns (c.settle rest s) s') :
    s.outcome.skipped <+: s'.outcome.skipped :=
  settle_induction (R := fun s s' => s.outcome.skipped <+: s'.outcome.skipped)
    (fun _ => List.prefix_rfl) (fun _ _ _ => List.IsPrefix.trans) (fun _ _ _ _ => skipped_settleOne) h

theorem settle_ordered {rest : Reference} (h : Returns (c.settle rest s) s') (ho : s.Ordered) :
    s'.Ordered :=
  settle_induction (R := fun s s' => s.Ordered → s'.Ordered) (fun _ => id)
    (fun _ _ _ h₁ h₂ => h₂ ∘ h₁) (fun _ _ _ _ => settleOne_ordered) h ho

/-- Whatever is skipped, settling finds nothing but paths that remained. -/
theorem found_settle {rest : Reference} {k : ChangeKind} (h : Returns (c.settle rest s) s')
    (ho : s.Ordered) (hf : s'.Finds p k) : s.Finds p k ∨ ∃ e ∈ rest, p = e.1 := by
  -- Off the paths that remained nothing is found, which is an invariant of every single step.
  by_cases hp : ∃ e ∈ rest, p = e.1
  · exact Or.inr hp
  · refine Or.inl ((settle_induction (R := fun s s' => s.Ordered → s'.Ordered ∧
      (s'.Finds p k ↔ s.Finds p k)) (fun _ ho => ⟨ho, Iff.rfl⟩) ?_ ?_ h ho).2.mp hf)
    · intro s₁ s₂ s₃ h₁ h₂ ho
      exact ⟨(h₂ (h₁ ho).1).1, (h₂ (h₁ ho).1).2.trans (h₁ ho).2⟩
    · intro e he s s' h ho
      exact ⟨settleOne_ordered h ho, settleOne_other h ho (fun heq => hp ⟨e, he, heq⟩) k⟩

/-- Settling what remains finds nothing at other paths. -/
theorem settle_other {rest : Reference} (h : Returns (c.settle rest s) s') (ho : s.Ordered)
    (hp : rest.lookup p = none) (k : ChangeKind) : s'.Finds p k ↔ s.Finds p k := by
  induction rest generalizing s with
  | nil =>
      rw [settle] at h
      rw [h.pure]
  | cons e rest ih =>
      rcases returns_settle_cons h with ⟨s₁, h₁, h⟩
      rw [List.lookup_cons] at hp
      by_cases he : p = e.1
      · rw [beq_iff_eq.mpr he] at hp
        cases hp
      · rw [beq_eq_false_iff_ne.mpr he] at hp
        rw [ih h (settleOne_ordered h₁ ho) hp, settleOne_other h₁ ho he]

/-- What settling what remains finds at one of its paths. -/
theorem settle_finds {rest : Reference} (h : Returns (c.settle rest s) s')
    (unique : Ascending Prod.fst rest) (ho : s.Ordered) (clean : s'.Clean)
    (fresh : ∀ k, ¬ s.Finds p k) (hp : rest.lookup p = some expected) (k : ChangeKind) :
    s'.Finds p k ↔ Settled c p expected k := by
  -- On the paths that remain: the one that is asked for is the first of them or comes later, and those before it
  -- leave it alone.
  induction rest generalizing s with
  | nil => cases hp
  | cons e rest ih =>
      rcases returns_settle_cons h with ⟨s₁, h₁, h⟩
      have ho₁ := settleOne_ordered h₁ ho
      rw [List.lookup_cons] at hp
      by_cases he : p = e.1
      · rw [beq_iff_eq.mpr he] at hp
        cases hp
        subst he
        have clean₁ : s₁.Clean := List.prefix_nil.mp (clean ▸ skipped_settle h)
        -- The paths ascend, so this one does not come a second time.
        have hnone : rest.lookup e.1 = none := by
          rw [List.lookup_eq_none_iff]
          intro d hd
          rw [bne_iff_ne]
          intro heq
          have hlt := unique.head_lt d hd
          rw [← heq] at hlt
          exact irrefl e.1 hlt
        rw [settle_other h ho₁ hnone, settleOne_finds h₁ ho clean₁ fresh]
      · rw [beq_eq_false_iff_ne.mpr he] at hp
        refine ih h unique.tail ho₁ (fun k hk => fresh k ?_) hp
        exact (settleOne_other h₁ ho he k).mp hk

section

variable {members : Forest FileEntry Unit} {reference : Reference}

/-- A file that is met is reported as it has to be. -/
theorem met_iff_reported (file : FileAt members p) (shown : ¬ c.Hidden members p) (k : ChangeKind) :
    Met c p (reference.lookup p) k ↔ Reported c members reference p k := by
  constructor
  · intro h
    cases hk : reference.lookup p with
    | none =>
        rw [hk] at h
        cases h with
        | new kept => exact Reported.new p file shown kept hk
    | some id =>
        rw [hk] at h
        cases h with
        | changed _ kept unequal => exact Reported.changed p id file shown kept hk unequal
  -- Of the four reports, two are about a path that is not met.
  · intro h
    cases h with
    | new _ _ kept unknown => exact unknown ▸ Met.new kept
    | changed id _ _ kept known unequal => exact known ▸ Met.changed id kept unequal
    | changedRules _ _ hidden => exact absurd hidden shown
    | deleted _ missing => exact absurd file missing

/-- A path that is left to settle is reported as it has to be. -/
theorem settled_iff_reported (known : reference.lookup p = some expected)
    (hfile : FileAt members p ↔ c.disk.isFile (c.root.join p.toRaw) = true)
    (left : FileAt members p → c.Hidden members p)
    (rules : c.Hidden members p → c.rules.isRuleFile p = true) (k : ChangeKind) :
    Settled c p expected k ↔ Reported c members reference p k := by
  constructor
  · intro h
    cases h with
    | changed _ file unequal =>
        have hidden := left (hfile.mpr file)
        exact Reported.changedRules p expected (hfile.mpr file) hidden (rules hidden) known unequal
    | deleted kept missing =>
        refine Reported.deleted p expected ?_ known kept ?_
        · rw [hfile, missing]
          exact Bool.false_ne_true
        -- What is left below a hidden folder are ignore files only.
        · by_cases hidden : c.Hidden members p
          · exact Or.inr (rules hidden)
          · exact Or.inl hidden
  · intro h
    cases h with
    | new _ _ _ unknown => cases known.symm.trans unknown
    | changed _ file shown => exact absurd (left file) shown
    | changedRules id file _ rule known' unequal =>
        cases known.symm.trans known'
        refine Settled.changed (fun hx => ?_) (hfile.mp file) unequal
        exact Bool.false_ne_true (hx.1.symm.trans rule)
    | deleted id missing _ kept =>
        exact Settled.deleted kept (Bool.eq_false_iff.mpr (mt hfile.mpr missing))

variable (tree : c.disk.IsWorkingTree c.root members)

include tree

/-- The walk and the disk agree about which paths are files. -/
theorem fileAt_iff_isFile (hp : p.IsOrdinary) (hg : Utf8.encode gitFolderName ∉ p.names) :
    FileAt members p ↔ c.disk.isFile (c.root.join p.toRaw) = true := by
  rw [tree.isFile_join_iff hp]
  constructor
  · rintro ⟨value, names, _, hl, hpath⟩
    have named := (tree.named.of_lookup hl).1
    rw [← hpath, List.nil_append, names_pathOf fun name hn => (named name hn).1]
    exact ⟨value, hl⟩
  · rintro ⟨value, hl⟩
    exact ⟨value, p.names, hg, hl, pathOf_names hp⟩

theorem FileAt.isFile (h : FileAt members p) : c.disk.isFile (c.root.join p.toRaw) = true := by
  rcases h with ⟨value, names, hg, hl, rfl⟩
  have named : ∀ name ∈ names, IsName name := fun name hn => ((tree.named.of_lookup hl).1 name hn).1
  refine (fileAt_iff_isFile tree (isOrdinary_pathOf named) ?_).mp ⟨value, names, hg, hl, rfl⟩
  rw [names_pathOf named]
  exact hg

/-- What a walk and then settling find at one path: the one if the walk meets it, the other if it does not and
    no folder that is left out takes the path with it. -/
theorem finds_iff_met_or_settled {s₁ s₂ : State} (unique : Ascending Prod.fst reference)
    (walked : Returns (c.walk [] members ⟨reference, .empty⟩) s₁)
    (settled : Returns (c.settle s₁.remaining s₁) s₂) (clean : s₂.Clean) (k : ChangeKind) :
    s₂.Finds p k ↔
      (FileAt members p ∧ ¬ c.Hidden members p) ∧ Met c p (reference.lookup p) k ∨
        ¬ (FileAt members p ∧ ¬ c.Hidden members p) ∧
          (c.Hidden members p → c.rules.isRuleFile p = true) ∧
          ∃ id, reference.lookup p = some id ∧ Settled c p id k := by
  have ho : (State.mk reference .empty).Ordered := Ascending.nil
  have ho₁ := walk_ordered walked ho
  have clean₁ : s₁.Clean := List.prefix_nil.mp (clean ▸ skipped_settle settled)
  have unique₁ : Ascending Prod.fst s₁.remaining := unique.sublist (walk_remaining walked)
  have nothing : ∀ k, ¬ (State.mk reference .empty).Finds p k := fun k hk => List.not_mem_nil hk
  have w : Walked c [] members ⟨reference, .empty⟩ s₁ p :=
    walk_walked (fun _ h => absurd h List.not_mem_nil) (tree.named.imp fun _ h => h.1)
      tree.distinct ho clean₁ walked
  by_cases hmet : FileAt members p ∧ ¬ c.Hidden members p
  · -- The walk met the path and took it out of the reference, so settling leaves it alone.
    rw [settle_other settled ho₁ (w.met hmet.1 hmet.2), w.finds nothing hmet.1 hmet.2]
    simp only [hmet, not_false_eq_true, and_self, true_and, not_true_eq_false, false_and, or_false]
  · -- The walk found nothing here, and what it left of the reference decides.
    have left : FileAt members p → c.Hidden members p := fun hf =>
      not_not.mp fun hh => hmet ⟨hf, hh⟩
    have fresh : ∀ k, ¬ s₁.Finds p k := fun k hk =>
      nothing k ((w.keeps (or_iff_not_imp_right.mpr fun h => left (not_not.mp h)) k).mp hk)
    simp only [hmet, false_and, not_false_eq_true, true_and, false_or]
    by_cases rules : c.Hidden members p → c.rules.isRuleFile p = true
    · -- The reference still says about the path what it said at first.
      have hsame : s₁.remaining.lookup p = reference.lookup p := by
        by_cases hidden : c.Hidden members p
        · rw [w.hidden hidden, if_pos (rules hidden)]
        · exact w.other (mt left hidden) hidden
      cases known : reference.lookup p with
      | none =>
          rw [settle_other settled ho₁ (hsame.trans known)]
          refine iff_of_false (fresh k) ?_
          rintro ⟨_, id, hid, _⟩
          cases hid
      | some id =>
          rw [settle_finds settled unique₁ ho₁ clean fresh (hsame.trans known)]
          simp only [Option.some.injEq, exists_eq_left']
          exact (and_iff_right rules).symm
    · -- A folder that was left out took the path with it, so there is nothing to settle.
      rcases Classical.not_imp.mp rules with ⟨hidden, hr⟩
      have hnone : s₁.remaining.lookup p = none := by
        rw [w.hidden hidden, if_neg hr]
      rw [settle_other settled ho₁ hnone]
      exact iff_of_false (fresh k) fun h => rules h.1

omit tree in
/-- Where no file is met, a report is about what the reference knows and no folder takes with it. -/
theorem Reported.known {k : ChangeKind} (h : Reported c members reference p k)
    (hmet : ¬ (FileAt members p ∧ ¬ c.Hidden members p)) :
    (c.Hidden members p → c.rules.isRuleFile p = true) ∧ ∃ id, reference.lookup p = some id := by
  cases h with
  | new file shown => exact absurd ⟨file, shown⟩ hmet
  | changed _ file shown => exact absurd ⟨file, shown⟩ hmet
  | changedRules id _ _ rule known => exact ⟨fun _ => rule, id, known⟩
  | deleted id _ known _ shown => exact ⟨fun hidden => shown.resolve_left (not_not.mpr hidden), id, known⟩

/-- What a walk and then settling find at one path is what has to be reported. -/
theorem finds_iff_reported {s₁ s₂ : State} (unique : Ascending Prod.fst reference)
    (walked : Returns (c.walk [] members ⟨reference, .empty⟩) s₁)
    (settled : Returns (c.settle s₁.remaining s₁) s₂) (clean : s₂.Clean)
    (regular : ∀ id, reference.lookup p = some id →
      p.IsOrdinary ∧ Utf8.encode gitFolderName ∉ p.names) (k : ChangeKind) :
    s₂.Finds p k ↔ Reported c members reference p k := by
  rw [finds_iff_met_or_settled tree unique walked settled clean]
  by_cases hmet : FileAt members p ∧ ¬ c.Hidden members p
  · rw [← met_iff_reported hmet.1 hmet.2]
    exact ⟨fun h => h.elim And.right fun h => absurd hmet h.1, fun h => Or.inl ⟨hmet, h⟩⟩
  · have left : FileAt members p → c.Hidden members p := fun hf =>
      not_not.mp fun hh => hmet ⟨hf, hh⟩
    have reported : ∀ id, reference.lookup p = some id →
        (c.Hidden members p → c.rules.isRuleFile p = true) →
        (Settled c p id k ↔ Reported c members reference p k) := fun id known rules =>
      settled_iff_reported known (fileAt_iff_isFile tree (regular id known).1 (regular id known).2) left rules k
    constructor
    · rintro (⟨h, _⟩ | ⟨_, rules, id, known, h⟩)
      · exact absurd h hmet
      · exact (reported id known rules).mp h
    · intro h
      rcases h.known hmet with ⟨rules, id, known⟩
      exact Or.inr ⟨hmet, rules, id, known, (reported id known rules).mpr h⟩

end

theorem settleOne_gives (c : Scanner) (p : Path) (id : ContentId) (s : State) :
    ∃ s', Gives (c.settleOne p id s) (.ok s') := by
  unfold settleOne
  rcases c.isExcluded_gives p with ⟨answer, ha⟩
  rcases answer with failure | _ | _
  · exact ⟨_, ha.bind (Gives.pure _)⟩
  · by_cases hf : c.disk.isFile (c.root.join p.toRaw) = true
    · rcases c.compare_gives p (c.root.join p.toRaw) id s with ⟨s', hs⟩
      refine ⟨s', ha.bind ?_⟩
      rw [if_pos hf]
      exact hs
    · refine ⟨s.record p .deletion, ha.bind ?_⟩
      rw [if_neg hf]
      exact Gives.pure _
  · exact ⟨_, ha.bind (Gives.pure _)⟩

/-- Settling always ends, unless the signal stops it. -/
theorem settle_gives (quiet : Signal.IsQuiet c.signal) (rest : Reference) (s : State) :
    ∃ s', Gives (c.settle rest s) (.ok s') := by
  induction rest generalizing s with
  | nil => exact ⟨s, by rw [settle]; exact Gives.pure s⟩
  | cons e rest ih =>
      rcases c.settleOne_gives e.1 e.2 s with ⟨s₁, h₁⟩
      rcases ih s₁ with ⟨s', h⟩
      refine ⟨s', ?_⟩
      rw [settle_cons]
      exact (Gives.checkpoint quiet).bind (h₁.bind h)

/-- Walking through the root always ends, whatever stands there, unless the signal stops it. -/
theorem walkRoot_gives (quiet : Signal.IsQuiet c.signal) (s : State) :
    ∃ s', Gives (c.walkRoot s) (.ok s') := by
  unfold walkRoot
  rcases c.disk.stat c.root with fault | ⟨_⟩ | ⟨_, members⟩
  · exact ⟨_, (Gives.checkpoint quiet).bind (Gives.pure _)⟩
  · exact ⟨s, Gives.pure s⟩
  · exact walk_gives quiet [] members s

/-- A scan always ends, unless the signal stops it. -/
theorem scan_gives (quiet : Signal.IsQuiet c.signal) (reference : Reference) :
    ∃ o, Gives (c.scan (.ok reference)) (.ok o) := by
  rcases walkRoot_gives quiet ⟨reference, .empty⟩ with ⟨s₁, h₁⟩
  rcases settle_gives quiet s₁.remaining s₁ with ⟨s₂, h₂⟩
  refine ⟨s₂.outcome, (Gives.ofExcept (.ok reference)).bind (h₁.bind ?_)⟩
  exact h₂.bind (Gives.pure _)

theorem settleOne_clean (judged : c.IsJudged q false)
    (hashed : c.disk.isFile (c.root.join q.toRaw) = true → c.IsHashed (c.root.join q.toRaw))
    (h : Returns (c.settleOne q expected s) s') (clean : s.Clean) : s'.Clean := by
  rcases returns_settleOne h with ⟨e, he, rfl⟩ | ⟨_, rfl⟩ | ⟨_, hf, hc⟩ | ⟨_, _, rfl⟩
  · exact absurd he judged.not_error
  · exact clean
  · exact compare_clean (hashed hf) hc clean
  · exact clean

/-- Settling skips nothing where the questions about what remains have answers. -/
theorem settle_clean {rest : Reference} (judged : ∀ e ∈ rest, c.IsJudged e.1 false)
    (hashed : ∀ e ∈ rest, c.disk.isFile (c.root.join e.1.toRaw) = true →
      c.IsHashed (c.root.join e.1.toRaw))
    (h : Returns (c.settle rest s) s') (clean : s.Clean) : s'.Clean :=
  settle_induction (R := fun s s' => s.Clean → s'.Clean) (fun _ => id) (fun _ _ _ h₁ h₂ => h₂ ∘ h₁)
    (fun e he _ _ => settleOne_clean (judged e he) (hashed e he)) h clean

section

variable {members : Forest FileEntry Unit} (tree : c.disk.IsWorkingTree c.root members)

include tree

theorem walkRoot_eq (s : State) : c.walkRoot s = c.walk [] members s := by
  rw [walkRoot, tree.stat_root]

/-- A scan is a walk through the members of the root and then settling. -/
theorem returns_scan {reference : Reference} {o : Outcome}
    (h : Returns (c.scan (.ok reference)) o) : ∃ s₁ s₂,
      Returns (c.walk [] members ⟨reference, .empty⟩) s₁ ∧
      Returns (c.settle s₁.remaining s₁) s₂ ∧ o = s₂.outcome := by
  rcases h.bind with ⟨remaining, hr, h⟩
  rcases h.bind with ⟨s₁, h₁, h⟩
  rcases h.bind with ⟨s₂, h₂, h⟩
  rw [← Except.ok.inj hr.ofExcept, walkRoot_eq tree] at h₁
  exact ⟨s₁, s₂, h₁, h₂, h.pure⟩

/-- A scan that skips nothing reports, in order, what it has to. -/
theorem changes_iff_reported {reference : Reference} {o : Outcome}
    (unique : Ascending Prod.fst reference) (h : Returns (c.scan (.ok reference)) o)
    (clean : o.skipped = [])
    (regular : ∀ id, reference.lookup p = some id →
      p.IsOrdinary ∧ Utf8.encode gitFolderName ∉ p.names) (k : ChangeKind) :
    ⟨p, k⟩ ∈ o.changes ↔ Reported c members reference p k := by
  rcases returns_scan tree h with ⟨s₁, s₂, walked, settled, rfl⟩
  exact finds_iff_reported tree unique walked settled clean regular k

/-- Whatever is skipped, a scan reports nothing but files of the working tree and of the reference. -/
theorem file_or_known_of_mem {reference : Reference} {o : Outcome} (h : Returns (c.scan (.ok reference)) o)
    {change : Change} (hc : change ∈ o.changes) :
    FileAt members change.path ∨ ∃ e ∈ reference, change.path = e.1 := by
  rcases returns_scan tree h with ⟨s₁, s₂, walked, settled, rfl⟩
  have ho : (State.mk reference .empty).Ordered := Ascending.nil
  rcases found_settle settled (walk_ordered walked ho) hc with hf | ⟨e, he, hp⟩
  · exact Or.inl ((found_walk tree.distinct walked ho hf).resolve_left List.not_mem_nil)
  · exact Or.inr ⟨e, (walk_remaining walked).subset he, hp⟩

theorem changes_ascending {reference : Reference} {o : Outcome}
    (h : Returns (c.scan (.ok reference)) o) : Ascending Change.path o.changes := by
  rcases returns_scan tree h with ⟨s₁, s₂, walked, settled, rfl⟩
  exact settle_ordered settled (walk_ordered walked Ascending.nil)

/-- A scan skips nothing where the questions about the working tree and the reference have answers. -/
theorem scan_clean {reference : Reference} {o : Outcome}
    (files : ∀ q, FileAt members q → c.IsJudged q false ∧ c.IsHashed (c.root.join q.toRaw))
    (folders : ∀ q, FolderAt members q → c.IsJudged q true)
    (judged : ∀ e ∈ reference, c.IsJudged e.1 false)
    (hashed : ∀ e ∈ reference, c.disk.isFile (c.root.join e.1.toRaw) = true →
      c.IsHashed (c.root.join e.1.toRaw))
    (h : Returns (c.scan (.ok reference)) o) : o.skipped = [] := by
  rcases returns_scan tree h with ⟨s₁, s₂, walked, settled, rfl⟩
  have clean : s₁.Clean := walk_clean (fun _ h => absurd h List.not_mem_nil)
    (tree.named.imp fun _ h => h.1) tree.distinct files folders walked rfl
  -- What is left to settle is part of the reference.
  have left := (walk_remaining walked).subset
  exact settle_clean (fun e he => judged e (left he)) (fun e he => hashed e (left he)) settled clean

theorem Answers.scan_clean (answers : c.Answers) {reference : Reference} {o : Outcome}
    (h : Returns (c.scan (.ok reference)) o) : o.skipped = [] :=
  Scanner.scan_clean tree (fun q _ => ⟨answers.verdicts q false, answers.hashes _⟩)
    (fun q _ => answers.verdicts q true) (fun e _ => answers.verdicts e.1 false)
    (fun _ _ _ => answers.hashes _) h

end

/-- A scan of a working tree, with answers to all questions and without interruption, skips nothing. It
    reports, in ascending order of paths, exactly what the law says. -/
theorem scan_reports (c : Scanner) {members : Forest FileEntry Unit} {reference : Reference}
    (tree : c.disk.IsWorkingTree c.root members) (unique : Ascending Prod.fst reference)
    (regular : ∀ e ∈ reference, e.1.IsOrdinary ∧ Utf8.encode gitFolderName ∉ e.1.names)
    (answers : c.Answers) (quiet : Signal.IsQuiet c.signal) :
    ∃ o, (c.scan (.ok reference)).outcome = .ok o ∧ o.skipped = [] ∧
      Ascending Change.path o.changes ∧
      ∀ p k, ⟨p, k⟩ ∈ o.changes ↔ Reported c members reference p k := by
  rcases scan_gives quiet reference with ⟨o, ho⟩
  have clean := Answers.scan_clean tree answers ho.returns
  refine ⟨o, ho.outcome, clean, changes_ascending tree ho.returns, fun p k => ?_⟩
  exact changes_iff_reported tree unique ho.returns clean
    (fun id known => regular (p, id) (List.mem_of_lookup known)) k

namespace Sample

/-- A file in the root, and a folder with an ignore file and another file. -/
def members : Forest FileEntry Unit :=
  .leaf (Utf8.encode "a") (.regular [1] false)
    (.folder (Utf8.encode "b") ()
      (.leaf (Utf8.encode ".gitignore") (.regular [2] false)
        (.leaf (Utf8.encode "c") (.regular [3] false) .nil)) .nil)

/-- A scanner of these files that leaves out the folder. -/
def scanner : Scanner where
  disk := ⟨[Utf8.encode "w"], members⟩
  root := .ofString "/w"
  hash _ := .ok ⟨"new"⟩
  rules := {
    isIgnored := fun p isFolder => .ok (p.text = "b" && isFolder)
    isRuleFile := fun p => p.fileName = ignoreFileName }
  signal := none

/-- What was there before: the ignore file, the other file, and one that is gone. -/
def reference : Reference :=
  [(.ofString "b/.gitignore", ⟨"old"⟩), (.ofString "b/c", ⟨"old"⟩), (.ofString "d", ⟨"old"⟩)]

end Sample

open Scanner.Sample in
/-- The law at a tree with an ignored folder, in which an ignore file changed. -/
theorem scan_of_ignored_folder :
    (scanner.disk.IsWorkingTree scanner.root members ∧ Ascending Prod.fst reference ∧
      (∀ e ∈ reference, e.1.IsOrdinary ∧ Utf8.encode gitFolderName ∉ e.1.names) ∧
      scanner.Answers ∧ Signal.IsQuiet scanner.signal) ∧
    ∃ o, (scanner.scan (.ok reference)).outcome = .ok o ∧ o.skipped = [] ∧
      Ascending Change.path o.changes ∧
      ∀ p k, ⟨p, k⟩ ∈ o.changes ↔ Reported scanner members reference p k := by
  have name : IsName (Utf8.encode "w") := by decide
  have tree : scanner.disk.IsWorkingTree scanner.root members :=
    ⟨⟨[], Disk.resolve_place name (by decide) (by decide) members⟩, by decide, by decide, by decide,
      by decide⟩
  have unique : Ascending Prod.fst reference := by decide
  have regular : ∀ e ∈ reference, e.1.IsOrdinary ∧ Utf8.encode gitFolderName ∉ e.1.names := by
    decide
  have answers : scanner.Answers := ⟨fun _ _ => ⟨_, rfl⟩, fun _ => ⟨_, rfl⟩⟩
  have quiet : Signal.IsQuiet scanner.signal := fun _ h => nomatch h
  exact ⟨⟨tree, unique, regular, answers, quiet⟩,
    scan_reports scanner tree unique regular answers quiet⟩

end Scanner

end ThreeWay
