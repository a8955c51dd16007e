import ThreeWay.Proofs.Classify

/-!
# What a Verdict Says

A verdict comes out of a cascade in which the first rule that applies decides. Here each rule is stated with
the condition under which it is reached, so that a verdict can be traced back to the sides it was given for.

What a verdict says is then read off rule by rule. Only two of them find nothing to transfer: nothing exists
and there is no base, or both sides were compared with the base and found equal to it. In particular no
comparison that failed ends there, and neither does a side that is only a handle.

A comparison fails on bytes that cannot be read, and a verdict fails on a comparison and on nothing else.
The rules that compare nothing come first, so a verdict without a base cannot fail, and neither can one on
sides of both kinds.

`Triple.Rule` is that cascade as an inductive predicate, one constructor for each rule, and what has to hold for a
rule to be reached is in its arguments. `Triple.rule_of_classify` goes from a verdict to its rule, and everything
about verdicts is then a case analysis on rules, with the code of the cascade opened only twice. The way back,
`Triple.classify_of_rule`, needs one thing more: that not both kinds are there, since that is asked first.

The three sides are not symmetric. The remote one counts as present only if it exists, the local one as soon as
there is a handle for it, and the base is never asked whether it exists. So a side may be a handle for something
that is not there, and the predicates on sides below say for each of them what is meant.

## Main definitions

* `Triple.Stands`: A side that is there and exists.
* `Triple.Mixed`: A file and a folder both exist.
* `Triple.Nowhere`, `Triple.Unchanged`: The two ways for a resource to be in sync.
* `Triple.Rule`: A rule of the cascade, with what has to hold for it to be reached.

## Theorems

* `isPresent_iff`, `existing_eq_some`, `existing_eq_none`: When a side exists.
* `Comparator.kinds_of_equal`: What is equal is of one kind.
* `directionOf_ne_none`: The order of two histories always names a side.
* `directionOf_of_unrecorded`: Without histories only the content tells a direction.
* `Triple.hasTypeConflict_iff`: The first rule asks whether both kinds are there.
* `Triple.Nowhere.not_mixed`, `Triple.Unchanged.not_mixed`: What is in sync is of one kind.
* `Triple.rule_of_classify`: Every verdict is given by a rule.
* `Triple.classify_of_rule`: Where only one kind of thing is there, a rule that is reached gives the verdict.
* `Triple.Rule.inSync_iff`, `Triple.Rule.direction_iff`, `Triple.Rule.addition_iff`,
  `Triple.Rule.pseudo_iff`: What each part of a verdict tells about the sides.
* `Triple.Rule.apart_of_unequal`: A remote side that was found different is not in sync.
* `Triple.classify_of_unchanged`: Three sides of equal content are in sync.
* `Triple.unreadable_of_classify`, `Triple.unreadable_files`: What a verdict fails on.
* `Triple.exists_classify`, `Triple.exists_classify_of_readable`: When there is a verdict.
* `classify_verdict`: All of it, for every triple and every store.
* `classify_of_unread_files`: Three equal ids that are not looked at.
-/

namespace ThreeWay

theorem isPresent_iff {side : Option Variant} :
    isPresent side = true ↔ ∃ v, side = some v ∧ v.present = true :=
  Option.any_eq_true Variant.present side

theorem existing_eq_some {side : Option Variant} {v : Variant} :
    existing side = some v ↔ side = some v ∧ v.present = true :=
  Option.filter_eq_some_iff

theorem existing_eq_none {side : Option Variant} : existing side = none ↔ isPresent side = false := by
  cases side with
  | none => exact iff_of_true rfl rfl
  -- A handle is kept if it exists, so this is a table of two rows.
  | some v =>
      rw [existing, Option.filter_some, isPresent, Option.any_some]
      cases v.present with
      | true => exact iff_of_false (Option.some_ne_none v) Bool.noConfusion
      | false => exact iff_of_true rfl rfl

/-- What is equal is both missing, or of one kind. -/
theorem Comparator.kinds_of_equal {c : Comparator} {a b : Option Variant}
    (h : c.equal a b = .ok true) : (existing a).map Variant.isTree = (existing b).map Variant.isTree := by
  -- The comparison goes by the kinds of the sides, and it is only for sides of one kind that it can hold.
  unfold equal Verdict.of at h
  split at h
  case h_1 ha hb => rw [ha, hb]
  case h_2 x y ha hb => rw [ha, hb]; rfl
  case h_3 x _ y _ ha hb => rw [ha, hb]; rfl
  case h_4 => cases h

/-- The order of two histories always names a side. -/
theorem directionOf_ne_none (base remote : Variant) (localChanged remoteChanged : Bool) :
    directionOf base remote localChanged remoteChanged ≠ .none := by
  -- All three ways to an answer end in a comparison that has a side for each outcome.
  have content : byContent localChanged remoteChanged ≠ .none := by
    cases localChanged <;> cases remoteChanged <;> exact Direction.noConfusion
  have length : ∀ b r, byLength b r localChanged remoteChanged ≠ .none := by
    intro b r
    unfold byLength
    split_ifs <;> first | exact content | exact Direction.noConfusion
  unfold directionOf
  split_ifs with hidden
  · unfold byContainment
    split
    · split_ifs <;> first | exact content | exact Direction.noConfusion
    · exact length _ _
  · exact length _ _

/-- Without histories only the content tells a direction, whether they are marked as cut off or not. -/
theorem directionOf_of_unrecorded {base remote : Variant} (hbase : base.ancestry = [])
    (hremote : remote.ancestry = []) (localChanged remoteChanged : Bool) :
    directionOf base remote localChanged remoteChanged = byContent localChanged remoteChanged := by
  -- Two empty histories have one length, so the length decides nothing, and neither does containment.
  rw [directionOf, hbase, hremote]
  split_ifs
  · exact byLength_same [] localChanged remoteChanged
  · exact byLength_same [] localChanged remoteChanged

namespace Triple

variable {c : Comparator} {t : Triple} {s : Status}

/-- A side that is there and exists. -/
def Stands (t : Triple) (v : Variant) : Prop :=
  some v ∈ [t.local, t.base, t.remote] ∧ v.present = true

/-- A file and a folder both exist among the sides. -/
def Mixed (t : Triple) : Prop :=
  (∃ b, t.Stands (.blob b)) ∧ ∃ f members, t.Stands (.tree f members)

/-- Nothing exists, and there is no base that could have been deleted. -/
def Nowhere (t : Triple) : Prop :=
  t.base = none ∧ isPresent t.local = false ∧ isPresent t.remote = false

/-- Both sides are found equal to the base, and the remote one exists. -/
def Unchanged (c : Comparator) (t : Triple) : Prop :=
  ∃ base here remote, t.base = some base ∧ t.local = some here ∧ t.remote = some remote ∧
    remote.present = true ∧ c.equal (some here) (some base) = .ok true ∧
    c.equal (some remote) (some base) = .ok true

theorem stands_iff {v : Variant} : t.Stands v ↔
    existing t.local = some v ∨ existing t.base = some v ∨ existing t.remote = some v := by
  unfold Stands
  simp only [existing_eq_some, List.mem_cons, List.not_mem_nil, or_false, eq_comm (a := some v)]
  rw [or_and_right, or_and_right]

theorem hasTypeConflict_iff : t.hasTypeConflict = true ↔ t.Mixed := by
  -- The code asks a list of the sides that exist, twice. Both times it is about one of three sides.
  have hmem : ∀ v, v ∈ t.existingSides ↔ t.Stands v := by
    intro v
    rw [existingSides, List.mem_filterMap, stands_iff]
    simp only [List.mem_cons, List.not_mem_nil, or_false, exists_eq_or_imp, exists_eq_left]
  rw [hasTypeConflict, Bool.and_eq_true, List.any_eq_true, List.any_eq_true, and_comm]
  constructor
  · rintro ⟨⟨x, hx, file⟩, ⟨y, hy, folder⟩⟩
    cases x with
    | tree f members => cases file
    | blob b =>
        cases y with
        | blob b' => cases folder
        | tree f members => exact ⟨⟨b, (hmem _).mp hx⟩, f, members, (hmem _).mp hy⟩
  · rintro ⟨⟨b, hb⟩, f, members, hf⟩
    exact ⟨⟨.blob b, (hmem _).mpr hb, rfl⟩, ⟨.tree f members, (hmem _).mpr hf, rfl⟩⟩

/-- Sides that are all of one kind are not mixed. -/
theorem not_mixed_of_kind {kind : Bool} (h : ∀ v, t.Stands v → v.isTree = kind) : ¬ t.Mixed := by
  rintro ⟨⟨b, hb⟩, f, members, hf⟩
  have hfile : false = kind := h _ hb
  have hfolder : true = kind := h _ hf
  rw [← hfile] at hfolder
  cases hfolder

/-- A base alone is of one kind. -/
theorem not_mixed_of_base (hlocal : existing t.local = none) (hremote : existing t.remote = none) :
    ¬ t.Mixed := by
  rintro ⟨⟨b, hb⟩, f, members, hf⟩
  rw [stands_iff, hlocal, hremote] at hb hf
  -- A file and a folder would both be the base.
  simp only [reduceCtorEq, false_or, or_false] at hb hf
  rw [hb] at hf
  cases hf

theorem Nowhere.not_mixed (h : t.Nowhere) : ¬ t.Mixed :=
  not_mixed_of_base (existing_eq_none.mpr h.2.1) (existing_eq_none.mpr h.2.2)

/-- Sides that equal the base are of its kind. -/
theorem Unchanged.not_mixed (h : t.Unchanged c) : ¬ t.Mixed := by
  rcases h with ⟨base, here, remote, hbase, hlocal, hremote, present, localSame, remoteSame⟩
  -- Each side has the kind of the base, by its own comparison, and the remote one exists, so the kind is the one of
  -- the remote side.
  have hl := Comparator.kinds_of_equal localSame
  have hr := Comparator.kinds_of_equal remoteSame
  rw [existing_of_present present] at hr
  rw [← hbase, ← hlocal] at hl
  rw [← hbase, Option.map_some] at hr
  rw [← hr] at hl
  refine @not_mixed_of_kind t remote.isTree (fun v hv => ?_)
  rcases stands_iff.mp hv with h | h | h
  · rw [h] at hl
    exact Option.some.inj hl
  · rw [h] at hr
    exact (Option.some.inj hr).symm
  · rw [hremote, existing_of_present present] at h
    rw [Option.some.inj h]

/-- A rule of the cascade with what has to hold for it to be reached, and its verdict. -/
inductive Rule (c : Comparator) (t : Triple) : Status → Prop where
  | kinds (mixed : t.Mixed) : Rule c t (.conflicting .change)
  | added (uniform : ¬ t.Mixed) (unknown : t.base = none) :
      Rule c t (withoutBase (isPresent t.local) (isPresent t.remote))
  | gone {base : Variant} (known : t.base = some base) (missing : t.local = none)
      (left : isPresent t.remote = false) : Rule c t (.pseudoConflict .deletion)
  | deleted {base remote : Variant} {same : Bool} (known : t.base = some base) (missing : t.local = none)
      (there : t.remote = some remote) (present : remote.present = true)
      (compared : c.equal (some remote) (some base) = .ok same) :
      Rule c t (if same then .outgoing .deletion else .conflicting .change)
  | dropped {base here : Variant} {same : Bool} (known : t.base = some base) (held : t.local = some here)
      (left : isPresent t.remote = false) (compared : c.equal (some here) (some base) = .ok same) :
      Rule c t (if same then .incoming .deletion else .conflicting .change)
  | kept {base here remote : Variant} {localSame remoteSame : Bool} (known : t.base = some base)
      (held : t.local = some here) (there : t.remote = some remote) (present : remote.present = true)
      (localCompared : c.equal (some here) (some base) = .ok localSame)
      (remoteCompared : c.equal (some remote) (some base) = .ok remoteSame) :
      Rule c t (if localSame && remoteSame then .inSync
        else ⟨directionOf base remote (!localSame) (!remoteSame), .change, false⟩)

/-- Every verdict is given by a rule. -/
theorem rule_of_classify (h : classify c t = .ok s) : Rule c t s := by
  -- The cases are those of the code, in its order: both kinds, no base, no local side, and all of them.
  by_cases mixed : t.hasTypeConflict = true
  · rw [classify, if_pos mixed] at h
    rw [← Except.ok.inj h]
    exact .kinds (hasTypeConflict_iff.mp mixed)
  · rw [classify, if_neg mixed] at h
    split at h
    case h_1 unknown =>
      rw [← Except.ok.inj h]
      exact .added (mt hasTypeConflict_iff.mpr mixed) unknown
    case h_2 base known missing =>
      by_cases there : isPresent t.remote = true
      · rw [if_pos there] at h
        rcases isPresent_iff.mp there with ⟨remote, hremote, present⟩
        rcases Run.bind_eq_ok h with ⟨same, compared, h⟩
        rw [hremote] at compared
        rw [← Except.ok.inj h]
        exact .deleted known missing hremote present compared
      · rw [if_neg there] at h
        rw [← Except.ok.inj h]
        exact .gone known missing (Bool.not_eq_true _ ▸ there)
    case h_3 base here known held =>
      rcases Run.bind_eq_ok h with ⟨localSame, localCompared, h⟩
      split at h
      case h_1 left =>
        rw [← Except.ok.inj h]
        exact .dropped known held (existing_eq_none.mp left) localCompared
      case h_2 remote there =>
        rcases existing_eq_some.mp there with ⟨hremote, present⟩
        rcases Run.bind_eq_ok h with ⟨remoteSame, remoteCompared, h⟩
        -- The verdict of the last rule is written with one condition here, where the code has a branch.
        have hs : s = if localSame && remoteSame then .inSync
            else ⟨directionOf base remote (!localSame) (!remoteSame), .change, false⟩ := by
          split_ifs at h ⊢ with same <;> exact (Except.ok.inj h).symm
        rw [hs]
        exact .kept known held hremote present localCompared remoteCompared

/-- A rule that is reached gives the verdict, unless a file and a folder exist: that is decided before all
    other rules, and some of them are reached there too. -/
theorem classify_of_rule (uniform : ¬ t.Mixed) (rule : Rule c t s) : classify c t = .ok s := by
  rw [classify, if_neg (mt hasTypeConflict_iff.mp uniform)]
  -- With the first rule out of the way, the arguments of each other one are what the code asks for.
  cases rule with
  | kinds mixed => exact absurd mixed uniform
  | added _ unknown => simp only [unknown]
  | gone known missing left => simp only [known, missing, left, Bool.false_eq_true, if_false]
  | @deleted base remote same known missing there present compared =>
      have remains : isPresent (some remote) = true := present
      simp only [known, missing, there, remains, if_true, compared]
      rfl
  | dropped known held left compared =>
      simp only [known, held, compared, existing_eq_none.mpr left]
      rfl
  | kept known held there present localCompared remoteCompared =>
      simp only [known, held, there, existing_of_present present, localCompared, remoteCompared,
        Run.ok_bind]
      split_ifs <;> rfl

theorem not_nowhere {base : Variant} (known : t.base = some base) : ¬ t.Nowhere := by
  rintro ⟨unknown, _⟩
  rw [unknown] at known
  cases known

theorem not_unchanged (missing : t.local = none) : ¬ t.Unchanged c := by
  rintro ⟨_, _, _, _, held, _⟩
  rw [missing] at held
  cases held

namespace Rule

/-- A verdict is in sync exactly where nothing is there or nothing changed. -/
theorem inSync_iff (rule : Rule c t s) : s = .inSync ↔ t.Nowhere ∨ t.Unchanged c := by
  -- Each rule has either a verdict that is not in sync, and an argument that excludes both ways to be in sync, or it
  -- is one of the two rules for them.
  cases rule with
  | kinds mixed =>
      refine iff_of_false (fun h => by cases h) ?_
      rintro (h | h)
      · exact h.not_mixed mixed
      · exact h.not_mixed mixed
  | added uniform unknown =>
      -- Without a base there is no comparison with it, so the first way is the only one.
      have changed : ¬ t.Unchanged c := by
        rintro ⟨base, _, _, hbase, _⟩
        rw [unknown] at hbase
        cases hbase
      rw [or_iff_left changed, Nowhere, and_iff_right unknown]
      cases isPresent t.local <;> cases isPresent t.remote <;> decide
  | gone known missing left =>
      exact iff_of_false (fun h => by cases h) (not_or.mpr ⟨not_nowhere known, not_unchanged missing⟩)
  | deleted known missing there present compared =>
      exact iff_of_false (fun h => by split_ifs at h <;> cases h)
        (not_or.mpr ⟨not_nowhere known, not_unchanged missing⟩)
  | dropped known held left compared =>
      refine iff_of_false (fun h => by split_ifs at h <;> cases h) (not_or.mpr ⟨not_nowhere known, ?_⟩)
      rintro ⟨_, _, remote, _, _, there, present, _⟩
      rw [isPresent_iff.mpr ⟨remote, there, present⟩] at left
      cases left
  | @kept base here remote localSame remoteSame known held there present localCompared remoteCompared =>
      -- With all three sides there, the two comparisons of the rule are those of the second way, because a comparison
      -- has one answer.
      have changed : t.Unchanged c ↔ (localSame && remoteSame) = true := by
        rw [Bool.and_eq_true]
        constructor
        · rintro ⟨base', here', remote', hbase, hlocal, hremote, _, hl, hr⟩
          rw [← hlocal, ← hbase, held, known, localCompared] at hl
          rw [← hremote, ← hbase, there, known, remoteCompared] at hr
          exact ⟨Except.ok.inj hl, Except.ok.inj hr⟩
        · rintro ⟨rfl, rfl⟩
          exact ⟨base, here, remote, known, held, there, present, localCompared, remoteCompared⟩
      rw [or_iff_right (not_nowhere known), changed]
      split_ifs with same
      · exact iff_of_true rfl same
      · exact iff_of_false (fun h => SyncChange.noConfusion (congrArg Status.change h)) same

/-- Where the remote side is found different from the base, there is something to transfer. -/
theorem apart_of_unequal (rule : Rule c t s) {base remote : Variant} (known : t.base = some base)
    (there : t.remote = some remote) (unequal : c.equal (some remote) (some base) = .ok false) :
    s.isInSync = false := by
  cases rule with
  | kinds => rfl
  | added uniform unknown => cases unknown.symm.trans known
  | gone => rfl
  | deleted => split_ifs <;> rfl
  | dropped => split_ifs <;> rfl
  -- The comparison of the rule is the one that was found to be unequal.
  | @kept base' here remote' localSame remoteSame known' held there' present localCompared remoteCompared =>
      rw [← there', ← known', there, known, unequal] at remoteCompared
      rw [← Except.ok.inj remoteCompared, Bool.and_false]
      rfl

/-- A verdict names no side exactly where it names no change. -/
theorem direction_iff (rule : Rule c t s) : s.direction = .none ↔ s.change = .inSync := by
  cases rule with
  | kinds => decide
  | added => cases isPresent t.local <;> cases isPresent t.remote <;> decide
  | gone => decide
  | deleted => split_ifs <;> decide
  | dropped => split_ifs <;> decide
  | kept =>
      split_ifs
      · decide
      · exact iff_of_false (directionOf_ne_none _ _ _ _) (fun h => by cases h)

/-- A verdict is an addition exactly where something of one kind is there without a base. -/
theorem addition_iff (rule : Rule c t s) : s.change = .addition ↔
    t.base = none ∧ (isPresent t.local = true ∨ isPresent t.remote = true) ∧ ¬ t.Mixed := by
  -- A rule for a base has a verdict that is no addition, and the condition asks for no base.
  have ofBase : ∀ {base : Variant} {kind : SyncChange}, t.base = some base → kind ≠ .addition →
      (kind = .addition ↔
        t.base = none ∧ (isPresent t.local = true ∨ isPresent t.remote = true) ∧ ¬ t.Mixed) := by
    intro base kind known other
    refine iff_of_false other ?_
    rw [known]
    exact fun h => Option.some_ne_none base h.1
  cases rule with
  | kinds mixed => exact iff_of_false SyncChange.noConfusion (fun h => h.2.2 mixed)
  | added uniform unknown =>
      rw [and_iff_right unknown, and_iff_left uniform]
      cases isPresent t.local <;> cases isPresent t.remote <;> decide
  | gone known => exact ofBase known SyncChange.noConfusion
  | deleted known => exact ofBase known (by split_ifs <;> exact SyncChange.noConfusion)
  | dropped known => exact ofBase known (by split_ifs <;> exact SyncChange.noConfusion)
  | kept known => exact ofBase known (by split_ifs <;> exact SyncChange.noConfusion)

/-- A verdict is a pseudo conflict exactly where both sides deleted what the base has, and then it says
    that. -/
theorem pseudo_iff (rule : Rule c t s) :
    (s.pseudo = true ↔ (∃ base, t.base = some base) ∧ t.local = none ∧ isPresent t.remote = false) ∧
      (s.pseudo = true → s = .pseudoConflict .deletion) := by
  -- Every rule but one has a verdict that is no pseudo conflict. It is enough to find what in its arguments is
  -- against the condition.
  have plain : ∀ {v : Status}, v.pseudo = false →
      ¬ ((∃ base, t.base = some base) ∧ t.local = none ∧ isPresent t.remote = false) →
      (v.pseudo = true ↔ (∃ base, t.base = some base) ∧ t.local = none ∧ isPresent t.remote = false) ∧
        (v.pseudo = true → v = .pseudoConflict .deletion) := by
    intro v hv apart
    rw [hv]
    exact ⟨iff_of_false Bool.false_ne_true apart, fun h => absurd h Bool.false_ne_true⟩
  cases rule with
  | kinds mixed =>
      refine plain rfl ?_
      rintro ⟨_, missing, left⟩
      refine not_mixed_of_base ?_ (existing_eq_none.mpr left) mixed
      rw [missing]
      rfl
  | added uniform unknown =>
      refine plain (by cases isPresent t.local <;> cases isPresent t.remote <;> rfl) ?_
      rintro ⟨⟨base, known⟩, _⟩
      rw [unknown] at known
      cases known
  | gone known missing left => exact ⟨iff_of_true rfl ⟨⟨_, known⟩, missing, left⟩, fun _ => rfl⟩
  | @deleted _ remote _ _ _ there present =>
      refine plain (by split_ifs <;> rfl) ?_
      rintro ⟨_, _, left⟩
      rw [isPresent_iff.mpr ⟨remote, there, present⟩] at left
      cases left
  | dropped known held =>
      refine plain (by split_ifs <;> rfl) ?_
      rintro ⟨_, missing, _⟩
      rw [held] at missing
      cases missing
  | kept known held =>
      refine plain (by split_ifs <;> rfl) ?_
      rintro ⟨_, missing, _⟩
      rw [held] at missing
      cases missing

end Rule

/-- A verdict fails only on a comparison with the base, and only where one kind of thing is there. -/
theorem unreadable_of_classify {e : Error} (h : classify c t = .error e) :
    ¬ t.Mixed ∧ ∃ side ∈ [t.local, t.remote], c.Unreadable side t.base e := by
  -- The same cases again, each with the comparisons that it makes: none, one, or two of which the first has to have
  -- an answer for the second to be made.
  by_cases mixed : t.hasTypeConflict = true
  · rw [classify, if_pos mixed] at h
    cases h
  · refine ⟨mt hasTypeConflict_iff.mpr mixed, ?_⟩
    rw [classify, if_neg mixed] at h
    split at h
    case h_1 => cases h
    case h_2 base known missing =>
      by_cases there : isPresent t.remote = true
      · rw [if_pos there] at h
        rcases Run.bind_eq_error h with h | ⟨same, _, h⟩
        · rw [known]
          exact ⟨t.remote, by simp, Comparator.equal_eq_error_iff.mp h⟩
        · cases h
      · rw [if_neg there] at h
        cases h
    case h_3 base here known held =>
      rw [known]
      rcases Run.bind_eq_error h with h | ⟨localSame, _, h⟩
      · rw [held]
        exact ⟨some here, by simp, Comparator.equal_eq_error_iff.mp h⟩
      · split at h
        case h_1 => cases h
        case h_2 remote there =>
          rcases existing_eq_some.mp there with ⟨hremote, _⟩
          rcases Run.bind_eq_error h with h | ⟨remoteSame, _, h⟩
          · exact ⟨t.remote, by simp, Comparator.equal_eq_error_iff.mp (hremote ▸ h)⟩
          · split_ifs at h <;> cases h

/-- A verdict fails on two files that exist, of which one cannot be read. -/
theorem unreadable_files {e : Error} (h : classify c t = .error e) : ∃ x y, t.Stands (.blob x) ∧
    t.Stands (.blob y) ∧ (c.byteCompare = true ∨ x.contentId = none ∨ y.contentId = none) ∧
    (c.store.content x = .error e ∨ c.store.content y = .error e) := by
  -- A comparison that fails is one of two files, of which the second is the base.
  rcases unreadable_of_classify h with ⟨_, side, hside, x, y, hx, hy, hread, hfail⟩
  refine ⟨x, y, ?_, stands_iff.mpr (Or.inr (Or.inl hy)), hread, hfail.imp id And.right⟩
  rcases existing_eq_some.mp hx with ⟨rfl, present⟩
  refine ⟨?_, present⟩
  rcases List.mem_pair.mp hside with h | h <;> rw [h] <;> simp

/-- Three sides of equal content are in sync. -/
theorem classify_of_unchanged (h : t.Unchanged c) : classify c t = .ok .inSync := by
  cases hs : classify c t with
  | ok s => rw [(rule_of_classify hs).inSync_iff.mpr (Or.inr h)]
  -- There is a verdict, since both comparisons were made and had answers.
  | error e =>
      rcases unreadable_of_classify hs with ⟨_, side, hside, unreadable⟩
      rcases h with ⟨base, here, remote, hbase, hhere, hremote, _, localSame, remoteSame⟩
      rw [← Comparator.equal_eq_error_iff, hbase] at unreadable
      rcases List.mem_pair.mp hside with rfl | rfl
      · rw [hhere, localSame] at unreadable
        cases unreadable
      · rw [hremote, remoteSame] at unreadable
        cases unreadable

/-- Without a base, on sides of both kinds and on files that are known by their ids, nothing is read. -/
theorem exists_classify
    (h : t.base = none ∨ t.Mixed ∨
      (c.byteCompare = false ∧ ∀ b, t.Stands (.blob b) → b.contentId ≠ none)) :
    ∃ s, classify c t = .ok s := by
  cases hs : classify c t with
  | ok s => exact ⟨s, rfl⟩
  | error e =>
      rcases unreadable_of_classify hs with ⟨uniform, _, _, _, y, _, hy, _⟩
      -- A failure would need a base, one kind of thing, and a file without an id or bytes to compare, so each of the
      -- three excludes it.
      rcases h with unknown | mixed | ⟨hbytes, identified⟩
      · rw [unknown] at hy
        cases hy
      · exact absurd mixed uniform
      · rcases unreadable_files hs with ⟨x, y, standsX, standsY, hread, _⟩
        rcases hread with h | h | h
        · rw [hbytes] at h
          cases h
        · exact absurd h (identified x standsX)
        · exact absurd h (identified y standsY)

/-- On files that can all be read there is a verdict. -/
theorem exists_classify_of_readable
    (readable : ∀ b, t.Stands (.blob b) → ∃ content, c.store.content b = .ok content) :
    ∃ s, classify c t = .ok s := by
  cases hs : classify c t with
  | ok s => exact ⟨s, rfl⟩
  | error e =>
      rcases unreadable_files hs with ⟨x, y, standsX, standsY, _, hfail | hfail⟩
      · rcases readable x standsX with ⟨content, hc⟩
        cases hc.symm.trans hfail
      · rcases readable y standsY with ⟨content, hc⟩
        cases hc.symm.trans hfail

end Triple

/-- What a verdict says about the three sides. It is in sync exactly where nothing is there or both sides
    were found equal to the base; it names a side exactly where it names a change; it is an addition exactly
    where something of one kind is there without a base; and it is a pseudo conflict exactly where both sides
    deleted what the base has. It fails only where a file is compared with the base by bytes that cannot be
    read, so never without a base, on sides of both kinds, or on files that ids tell apart. -/
theorem classify_verdict (c : Comparator) (t : Triple) :
    (∀ s, classify c t = .ok s →
      (s = .inSync ↔ t.Nowhere ∨ t.Unchanged c) ∧
      (s.direction = .none ↔ s.change = .inSync) ∧
      (s.change = .addition ↔
        t.base = none ∧ (isPresent t.local = true ∨ isPresent t.remote = true) ∧ ¬ t.Mixed) ∧
      (s.pseudo = true ↔
        (∃ base, t.base = some base) ∧ t.local = none ∧ isPresent t.remote = false) ∧
      (s.pseudo = true → s = .pseudoConflict .deletion)) ∧
    (∀ e, classify c t = .error e →
      ∃ side ∈ [t.local, t.remote], c.Unreadable side t.base e) ∧
    (t.base = none ∨ t.Mixed ∨
        (c.byteCompare = false ∧ ∀ b, t.Stands (.blob b) → b.contentId ≠ none) →
      ∃ s, classify c t = .ok s) := by
  refine ⟨fun s h => ?_, fun e h => (Triple.unreadable_of_classify h).2, Triple.exists_classify⟩
  have rule := Triple.rule_of_classify h
  exact ⟨rule.inSync_iff, rule.direction_iff, rule.addition_iff, rule.pseudo_iff⟩

/-- Three equal ids are not looked at where bytes are wanted, and what cannot be read is not in sync. -/
theorem classify_of_unread_files :
    let file := some (Variant.blob { Blob.at (.ofString "f") .workingTree with contentId := some ⟨"id"⟩ })
    let failed := Error.contentRead "f" .noStore
    classify ⟨.detached, true⟩ ⟨file, file, file⟩ = .error failed ∧
      (∃ side ∈ [file, file], Comparator.Unreadable ⟨.detached, true⟩ side file failed) ∧
      ∃ s, classify ⟨.detached, false⟩ ⟨file, file, file⟩ = .ok s := by
  intro file failed
  have hfails : classify ⟨.detached, true⟩ ⟨file, file, file⟩ = .error failed := rfl
  refine ⟨hfails, (classify_verdict ⟨.detached, true⟩ ⟨file, file, file⟩).2.1 failed hfails, ?_⟩
  refine (classify_verdict ⟨.detached, false⟩ ⟨file, file, file⟩).2.2 (Or.inr (Or.inr ⟨rfl, ?_⟩))
  rintro b ⟨hb, _⟩
  have hfile : some (Variant.blob b) = file := by
    rcases List.mem_cons.mp hb with h | h
    · exact h
    · exact List.mem_pair.mp h |>.elim id id
  rw [Variant.blob.inj (Option.some.inj hfile)]
  exact Option.some_ne_none _

end ThreeWay
