import ThreeWay.Checkout.Content
import ThreeWay.Proofs.Checkout.Sides
import ThreeWay.Proofs.Classify
import ThreeWay.Proofs.Repository.History

/-!
# Cut-off Histories Never Flip a Verdict

A limit hides the older commits of a history. The order of two histories is then found in another way, so
the question is what a verdict loses by it.

Two histories are coherent when they go on alike below a commit that they share: whenever the tip of one
stands somewhere in the other, what follows it there is the whole of the first. Of coherent histories only
three shapes matter. Either one of them is empty, or one ends in the other, or neither tip stands in the
other. In each shape the tips that are still in sight tell the same as the lengths of the whole histories,
and where no tip is in sight the verdict is that nothing is known, a conflict. So a limit may cost an answer,
and never gives a different one.

A conflict also takes the place of an answer that the lengths give without a reason: they call a longer
base history ahead of any remote one, related or not.

All that is about directions. Whether the files differ at all is told by their contents, and for that a store is
asked, which is handed the whole file, history included. A store that reads the history sees another file once
that is cut off, and its verdict may flip. The stores that there are, in memory and of a checkout, read a content
by its path and revision or by its id.

That a store does not read the history is therefore a condition of `classify_capped`, and
`classify_of_marked_history` shows that it cannot be left out.

## Main definitions

* `Blob.history`: The commits that are known to have changed a file.
* `Blob.capped`: A file whose history is cut off at a limit.
* `Coherent`: Two histories that go on alike below a commit that they share.
* `InSight`: The tip of one history is among the first commits of the other.
* `Store.IgnoresHistory`: What is read for a file does not depend on its history.

## Theorems

* `coherent_of_nodup`: A history without repetitions is coherent with every older part of it.
* `directionOf_files`: The direction of two files, from what is known of their histories.
* `byContainment_of_inSight`, `byContainment_of_not_inSight`: The order of two histories that were cut off.
* `limitedDirection_of_inSight`, `limitedDirection_or_conflicting`: The same next to whole histories.
* `classify_capped`: The verdict on files whose histories are cut off.
* `classify_of_marked_history`: A store that reads histories may flip it.
* `Checkout.capped_of_recordedVariant`: The files of a revision carry histories that are cut off.
-/

namespace ThreeWay

/-- The commits that are known to have changed a file, newest first. -/
def Blob.history (b : Blob) : List CommitId :=
  b.ancestry.getD []

/-- A file whose history is cut off at a limit, and marked if that hides something. -/
def Blob.capped (limit : Nat) (b : Blob) : Blob :=
  { b with
    ancestry := b.ancestry.map (List.take limit)
    truncated := limit < b.history.length }

theorem Blob.capped_history (limit : Nat) (b : Blob) :
    (b.capped limit).history = b.history.take limit := by
  rcases h : b.ancestry with _ | commits
  · simp only [history, capped, h, Option.map_none, Option.getD_none, List.take_nil]
  · simp only [history, capped, h, Option.map_some, Option.getD_some]

/-- Where the tip of one history stands in another, the first one follows. -/
def Continues (longer shorter : List CommitId) : Prop :=
  ∀ i tip, shorter.head? = some tip → longer[i]? = some tip → longer.drop i = shorter

/-- Two histories that go on alike below a commit that they share. -/
structure Coherent (base remote : List CommitId) : Prop where
  ahead : Continues remote base
  behind : Continues base remote

theorem Coherent.symm {base remote : List CommitId} (h : Coherent base remote) :
    Coherent remote base :=
  ⟨h.behind, h.ahead⟩

/-- A history without repetitions is coherent with every older part of it. -/
theorem coherent_of_nodup {newer older : List CommitId} (nodup : (newer ++ older).Nodup) :
    Coherent older (newer ++ older) := by
  constructor
  · intro i tip hb hr
    have hat : (newer ++ older)[newer.length]? = some tip := by
      rw [List.getElem?_append_right (Nat.le_refl _), Nat.sub_self, ← List.head?_eq_getElem?]
      exact hb
    have hi : i < (newer ++ older).length := (List.getElem?_eq_some_iff.mp hr).1
    have hplace : i = newer.length := (List.getElem?_inj hi nodup).mp (hr.trans hat.symm)
    rw [hplace, List.drop_left]
  · intro i tip hr hb
    cases newer with
    | nil =>
        have hi : i < older.length := (List.getElem?_eq_some_iff.mp hb).1
        rw [List.nil_append, List.head?_eq_getElem?] at hr
        have hplace : i = 0 := (List.getElem?_inj hi nodup).mp (hb.trans hr.symm)
        rw [hplace, List.drop_zero, List.nil_append]
    | cons first rest =>
        -- The tip of the longer history is one of the commits that the older part does not have.
        have htip : first = tip := Option.some.inj hr
        subst htip
        rw [List.cons_append, List.nodup_cons] at nodup
        exact absurd (List.mem_append_right rest (List.mem_of_getElem? hb)) nodup.1

/-- The tip of one of two histories is among the first commits of the other. -/
def InSight (limit : Nat) (base remote : List CommitId) : Prop :=
  (∃ tip, base.head? = some tip ∧ tip ∈ remote.take limit) ∨
    ∃ tip, remote.head? = some tip ∧ tip ∈ base.take limit

section

variable {limit n : Nat} {base remote older newer : List CommitId} {tip first : CommitId}
  {localChanged remoteChanged : Bool}

/-- A history whose tip stands below the first commit of another is the shorter one. -/
theorem Continues.length_lt (h : Continues (first :: newer) (tip :: older)) (hmem : tip ∈ newer) :
    (tip :: older).length < (first :: newer).length ∧
      (first :: newer)[(first :: newer).length - (tip :: older).length]? = some tip := by
  rcases List.getElem?_of_mem hmem with ⟨i, hi⟩
  -- What follows the tip in the longer history is the shorter one, so their lengths fix the place.
  have hdrop := h (i + 1) tip rfl hi
  have hlen := congrArg List.length hdrop
  rw [List.length_drop] at hlen
  have hlt : i < newer.length := (List.getElem?_eq_some_iff.mp hi).1
  simp only [List.length_cons] at hlen ⊢
  have hplace : newer.length + 1 - (older.length + 1) = i + 1 := by omega
  refine ⟨by omega, ?_⟩
  rw [hplace]
  exact hi

/-- Neither of two histories stands below the first commit of the other one. -/
theorem Coherent.not_both (h : Coherent (tip :: older) (first :: newer)) (hr : tip ∈ newer) :
    first ∉ older := by
  intro hb
  -- Each would be longer than the other.
  have hlt := (h.ahead.length_lt hr).1
  have hgt := (h.behind.length_lt hb).1
  omega

/-- Histories with one tip are the same. -/
theorem Coherent.eq_of_tip (h : Coherent (tip :: older) (tip :: newer)) : older = newer :=
  (List.cons.inj (h.ahead 0 tip rfl rfl)).2.symm

/-- The lengths tell a remote history that continues the base. -/
theorem byLength_incoming (h : Continues (first :: newer) (tip :: older)) (hmem : tip ∈ newer) :
    byLength (tip :: older) (first :: newer) localChanged remoteChanged = .incoming := by
  have hlen := h.length_lt hmem
  rw [byLength, List.head?_cons, if_pos hlen.1, if_pos (Or.inr hlen.2)]

/-- The lengths tell a base history that continues the remote one. -/
theorem byLength_outgoing (h : Continues (tip :: older) (first :: newer)) (hmem : first ∈ older) :
    byLength (tip :: older) (first :: newer) localChanged remoteChanged = .outgoing := by
  have hlen := (h.length_lt hmem).1
  rw [byLength, if_neg (by omega), if_pos hlen]

/-- Next to an empty history there is no tip to look up, and the lengths are asked. -/
theorem byContainment_of_nil (hnil : base = [] ∨ remote = []) :
    byContainment base remote localChanged remoteChanged =
      byLength base remote localChanged remoteChanged := by
  rcases hnil with rfl | rfl
  · rfl
  · cases base <;> rfl

/-- Next to an empty history a limit hides nothing that matters. -/
theorem byLength_take_of_nil (positive : 1 ≤ limit) (hnil : base = [] ∨ remote = []) :
    byLength (base.take limit) (remote.take limit) localChanged remoteChanged =
      byLength base remote localChanged remoteChanged := by
  -- Only whether a history is empty matters here, and a limit that is not zero leaves that as it is.
  rcases hnil with rfl | rfl
  · cases remote with
    | nil => rw [List.take_nil]
    | cons first newer =>
        rcases Nat.exists_eq_add_of_le' positive with ⟨n, rfl⟩
        rw [List.take_nil, List.take_succ_cons]
        simp only [byLength, List.length_nil, List.length_cons, Nat.zero_lt_succ, if_true, true_or]
  · cases base with
    | nil => rw [List.take_nil]
    | cons tip older =>
        rcases Nat.exists_eq_add_of_le' positive with ⟨n, rfl⟩
        rw [List.take_nil, List.take_succ_cons]
        simp only [byLength, List.length_nil, List.length_cons, Nat.not_lt_zero, if_false,
          Nat.zero_lt_succ, if_true]

/-- A tip in sight tells what the lengths of the whole histories tell. -/
theorem byContainment_of_inSight (h : Coherent (tip :: older) (first :: newer))
    (seen : InSight (n + 1) (tip :: older) (first :: newer)) :
    byContainment (tip :: older.take n) (first :: newer.take n) localChanged remoteChanged =
      byLength (tip :: older) (first :: newer) localChanged remoteChanged := by
  by_cases htips : tip = first
  · subst htips
    rw [byContainment, if_pos rfl, h.eq_of_tip, byLength_same]
  -- The tips are different, so the one that is in sight is below the first commit of the other.
  · have hseen : tip ∈ newer.take n ∨ first ∈ older.take n := by
      rcases seen with ⟨x, hx, hmem⟩ | ⟨x, hx, hmem⟩
      · have hxt : tip = x := Option.some.inj hx
        subst hxt
        rw [List.take_succ_cons, List.mem_cons] at hmem
        exact Or.inl (hmem.resolve_left htips)
      · have hxf : first = x := Option.some.inj hx
        subst hxf
        rw [List.take_succ_cons, List.mem_cons] at hmem
        exact Or.inr (hmem.resolve_left (Ne.symm htips))
    rw [byContainment, if_neg htips]
    rcases hseen with hr | hb
    · rw [if_pos (List.contains_iff_mem.mpr hr), byLength_incoming h.ahead (List.mem_of_mem_take hr)]
    · -- The remote tip stands in the base, so the base tip is nowhere below the remote one.
      have hnot : tip ∉ newer.take n := fun hr =>
        h.not_both (List.mem_of_mem_take hr) (List.mem_of_mem_take hb)
      rw [if_neg (mt List.contains_iff_mem.mp hnot), if_pos (List.contains_iff_mem.mpr hb),
        byLength_outgoing h.behind (List.mem_of_mem_take hb)]

/-- Without a tip in sight nothing is known. -/
theorem byContainment_of_not_inSight (unseen : ¬ InSight (n + 1) (tip :: older) (first :: newer)) :
    byContainment (tip :: older.take n) (first :: newer.take n) localChanged remoteChanged =
      .conflicting := by
  -- What is out of sight is not found by looking it up.
  have hr : tip ∉ first :: newer.take n := fun h => unseen (Or.inl ⟨tip, rfl, h⟩)
  have hb : first ∉ tip :: older.take n := fun h => unseen (Or.inr ⟨first, rfl, h⟩)
  rw [List.mem_cons, not_or] at hr hb
  rw [byContainment, if_neg hr.1, if_neg (mt List.contains_iff_mem.mp hr.2),
    if_neg (mt List.contains_iff_mem.mp hb.2)]

/-- A limit that hides nothing, or that stands next to an empty history, changes nothing. -/
theorem limitedDirection_of_shown (positive : 1 ≤ limit)
    (shown : (base = [] ∨ remote = []) ∨ (base.length ≤ limit ∧ remote.length ≤ limit)) :
    limitedDirection limit base remote localChanged remoteChanged =
      byLength base remote localChanged remoteChanged := by
  unfold limitedDirection
  -- An empty history is asked by its length in both branches. Whole histories are not cut.
  rcases shown with hnil | ⟨hb, hr⟩
  · have hshown : base.take limit = [] ∨ remote.take limit = [] := by
      rcases hnil with rfl | rfl
      · exact Or.inl List.take_nil
      · exact Or.inr List.take_nil
    rw [byContainment_of_nil hshown, ite_self, byLength_take_of_nil positive hnil]
  · rw [if_neg (by omega), List.take_of_length_le hb, List.take_of_length_le hr]

/-- Where a limit hides something of two histories, the tips in sight are looked at. -/
theorem limitedDirection_of_hidden
    (hidden : n + 1 < (tip :: older).length ∨ n + 1 < (first :: newer).length) :
    limitedDirection (n + 1) (tip :: older) (first :: newer) localChanged remoteChanged =
      byContainment (tip :: older.take n) (first :: newer.take n) localChanged remoteChanged := by
  rw [limitedDirection, if_pos hidden, List.take_succ_cons, List.take_succ_cons]

/-- With a tip in sight, a limit changes nothing. -/
theorem limitedDirection_of_inSight (positive : 1 ≤ limit) (h : Coherent base remote)
    (seen : InSight limit base remote) :
    limitedDirection limit base remote localChanged remoteChanged =
      byLength base remote localChanged remoteChanged := by
  -- Something is hidden only of histories that are not empty, and there the tips are looked at.
  by_cases shown : (base = [] ∨ remote = []) ∨ (base.length ≤ limit ∧ remote.length ≤ limit)
  · exact limitedDirection_of_shown positive shown
  · rw [not_or, not_or] at shown
    rcases List.exists_cons_of_ne_nil shown.1.1 with ⟨tip, older, rfl⟩
    rcases List.exists_cons_of_ne_nil shown.1.2 with ⟨first, newer, rfl⟩
    rcases Nat.exists_eq_add_of_le' positive with ⟨n, rfl⟩
    rw [limitedDirection_of_hidden (by omega), byContainment_of_inSight h seen]

/-- A limit changes nothing, or leaves a conflict. -/
theorem limitedDirection_or_conflicting (positive : 1 ≤ limit) (h : Coherent base remote) :
    limitedDirection limit base remote localChanged remoteChanged =
        byLength base remote localChanged remoteChanged ∨
      limitedDirection limit base remote localChanged remoteChanged = .conflicting := by
  -- A tip in sight tells the same. Without one, a limit that hides nothing does, and one that hides something leaves
  -- a conflict.
  by_cases seen : InSight limit base remote
  · exact Or.inl (limitedDirection_of_inSight positive h seen)
  · by_cases shown : (base = [] ∨ remote = []) ∨ (base.length ≤ limit ∧ remote.length ≤ limit)
    · exact Or.inl (limitedDirection_of_shown positive shown)
    · rw [not_or, not_or] at shown
      rcases List.exists_cons_of_ne_nil shown.1.1 with ⟨tip, older, rfl⟩
      rcases List.exists_cons_of_ne_nil shown.1.2 with ⟨first, newer, rfl⟩
      rcases Nat.exists_eq_add_of_le' positive with ⟨n, rfl⟩
      right
      rw [limitedDirection_of_hidden (by omega), byContainment_of_not_inSight seen]

end

/-- What is read for a file does not depend on what is known of its history. Otherwise a limit would change
    which contents are compared. -/
def Store.IgnoresHistory (s : Store) : Prop :=
  ∀ (b : Blob) ancestry truncated,
    s.content { b with ancestry := ancestry, truncated := truncated } = s.content b

theorem Memory.ignoresHistory (m : Memory) : m.store.IgnoresHistory := by
  intro b ancestry truncated
  rfl

theorem Checkout.ignoresHistory (c : Checkout) : c.store.IgnoresHistory := by
  intro b ancestry truncated
  exact Checkout.content_congr rfl rfl rfl

/-- The files of a revision carry the whole history of their path, cut off at the limit of the settings. -/
theorem Checkout.capped_of_recordedVariant {c : Checkout} {start : Commit} {path : Path} {spec : String}
    {b : Blob} (h : c.recordedVariant start path spec = .ok (some (.blob b))) :
    ∃ names id, path.treeNames = .ok names ∧ b = Blob.capped c.settings.ancestryLimit
      (.atRevision path spec id
        ⟨History.tell (History.all c.repository.objects start names), false⟩) := by
  unfold Checkout.recordedVariant at h
  rcases Run.bind_eq_ok h with ⟨names, hnames, h⟩
  have hpath := eq_ok_of_askObjects hnames
  refine ⟨names, ?_⟩
  split at h
  · cases h
  · cases h
  · rename_i leaf hleaf
    by_cases file : leaf.mode.isFile = true
    · rw [if_pos file, History.ancestry_eq hpath] at h
      have hb := Variant.blob.inj (Option.some.inj (Except.ok.inj h))
      refine ⟨leaf.id, hpath, hb.symm.trans ?_⟩
      simp only [Blob.capped, Blob.atRevision, Blob.history, History.tell, Option.map_some,
        Option.getD_some, List.length_map]
    · rw [if_neg file] at h
      cases h

/-- The direction of two files, from their histories and how these are marked. -/
theorem directionOf_files (base remote : Blob) (localChanged remoteChanged : Bool) :
    directionOf (.blob base) (.blob remote) localChanged remoteChanged =
      if (base.truncated || remote.truncated) = true then
        byContainment base.history remote.history localChanged remoteChanged
      else byLength base.history remote.history localChanged remoteChanged :=
  rfl

/-- The direction of two files whose histories are cut off. -/
theorem directionOf_capped (limit : Nat) (base remote : Blob) (localChanged remoteChanged : Bool) :
    directionOf (.blob (base.capped limit)) (.blob (remote.capped limit)) localChanged remoteChanged =
      limitedDirection limit base.history remote.history localChanged remoteChanged := by
  rw [directionOf_files, Blob.capped_history, Blob.capped_history, limitedDirection]
  simp only [Blob.capped, Bool.or_eq_true, decide_eq_true_eq]

/-- The direction of two files whose histories leave nothing out. -/
theorem directionOf_whole {base remote : Blob} (hbase : base.truncated = false)
    (hremote : remote.truncated = false) (localChanged remoteChanged : Bool) :
    directionOf (.blob base) (.blob remote) localChanged remoteChanged =
      byLength base.history remote.history localChanged remoteChanged := by
  rw [directionOf_files, hbase, hremote, Bool.or_self, if_neg Bool.false_ne_true]

section

variable {c : Comparator} {limit : Nat} {here base remote : Blob}

theorem Comparator.alike_capped (blind : c.store.IgnoresHistory) (limit : Nat) (b : Blob) :
    c.Alike (b.capped limit) b :=
  ⟨rfl, rfl, blind b _ _⟩

/-- The verdict on three files, from two comparisons and the direction of the histories. -/
theorem classify_files (hhere : here.present = true) (hbase : base.present = true)
    (hremote : remote.present = true) :
    classify c ⟨some (.blob here), some (.blob base), some (.blob remote)⟩ = (do
      let localSame ← c.equal (some (.blob here)) (some (.blob base))
      let remoteSame ← c.equal (some (.blob remote)) (some (.blob base))
      return if localSame && remoteSame then .inSync
        else ⟨directionOf (.blob base) (.blob remote) (!localSame) (!remoteSame), .change, false⟩) := by
  rw [classify, hasTypeConflict_files hhere hbase hremote, if_neg Bool.false_ne_true]
  simp only [Comparator.existing_of_blob hremote]
  refine bind_congr fun localSame => bind_congr fun remoteSame => ?_
  split_ifs <;> rfl

/-- Whether the files differ is not a matter of their histories, so only the direction can change. -/
theorem classify_capped_eq (blind : c.store.IgnoresHistory) (limit : Nat)
    (hhere : here.present = true) (hbase : base.present = true) (hremote : remote.present = true) :
    classify c ⟨some (.blob (here.capped limit)), some (.blob (base.capped limit)),
        some (.blob (remote.capped limit))⟩ = (do
      let localSame ← c.equal (some (.blob here)) (some (.blob base))
      let remoteSame ← c.equal (some (.blob remote)) (some (.blob base))
      return if localSame && remoteSame then .inSync
        else ⟨limitedDirection limit base.history remote.history (!localSame) (!remoteSame), .change,
          false⟩) := by
  have capped_present : ∀ {b : Blob}, b.present = true → (b.capped limit).present = true := id
  rw [classify_files (capped_present hhere) (capped_present hbase) (capped_present hremote),
    (Comparator.alike_capped blind limit here).equal_eq (Comparator.alike_capped blind limit base)
      hhere hbase,
    (Comparator.alike_capped blind limit remote).equal_eq (Comparator.alike_capped blind limit base)
      hremote hbase]
  simp only [directionOf_capped]

/-- Cutting the histories of three files off at a limit leaves the verdict as it is, or leaves a conflict
    in its place. It leaves the verdict as it is while the tip of the base is among the first commits of
    the remote history, or the other way round. -/
theorem classify_capped (blind : c.store.IgnoresHistory) (positive : 1 ≤ limit)
    (hhere : here.present = true) (hbase : base.present = true) (hremote : remote.present = true)
    (wholeBase : base.truncated = false) (wholeRemote : remote.truncated = false)
    (coherent : Coherent base.history remote.history) :
    let whole : Triple := ⟨some (.blob here), some (.blob base), some (.blob remote)⟩
    let capped : Triple := ⟨some (.blob (here.capped limit)), some (.blob (base.capped limit)),
      some (.blob (remote.capped limit))⟩
    (classify c capped = classify c whole ∨ classify c capped = .ok (.conflicting .change)) ∧
      (InSight limit base.history remote.history → classify c capped = classify c whole) := by
  intro whole capped
  have hcapped := classify_capped_eq blind limit hhere hbase hremote
  have hwhole := classify_files (c := c) hhere hbase hremote
  simp only [directionOf_whole wholeBase wholeRemote] at hwhole
  rw [hcapped, hwhole]
  rcases c.equal (some (.blob here)) (some (.blob base)) with e | localSame
  · exact ⟨Or.inl rfl, fun _ => rfl⟩
  rcases c.equal (some (.blob remote)) (some (.blob base)) with e | remoteSame
  · exact ⟨Or.inl rfl, fun _ => rfl⟩
  -- Both comparisons succeed, and only the direction is left to compare.
  simp only [Run.ok_bind]
  by_cases same : (localSame && remoteSame) = true
  · rw [if_pos same, if_pos same]
    exact ⟨Or.inl rfl, fun _ => rfl⟩
  · rw [if_neg same, if_neg same]
    constructor
    · have either : limitedDirection limit base.history remote.history (!localSame) (!remoteSame) =
          byLength base.history remote.history (!localSame) (!remoteSame) ∨
          limitedDirection limit base.history remote.history (!localSame) (!remoteSame) = .conflicting :=
        limitedDirection_or_conflicting positive coherent
      rcases either with hd | hd
      · exact Or.inl (by rw [hd])
      · right
        rw [hd]
        rfl
    · intro seen
      rw [limitedDirection_of_inSight positive coherent seen]

end

namespace Comparator.Sample

/-- The file at a revision. -/
def blob (revision : Revision) (history : List CommitId) : Blob :=
  { Blob.at (.ofString "f") revision with ancestry := some history }

/-- The remote history, of which the base knows the older half. -/
def history : List CommitId :=
  [⟨"fourth"⟩, ⟨"third"⟩, ⟨"second"⟩, ⟨"first"⟩]

theorem coherent_history : Coherent (blob (.named "base") (history.drop 2)).history
    (blob (.named "remote") history).history :=
  coherent_of_nodup (by decide : (history.take 2 ++ history.drop 2).Nodup)

theorem inSight_history : InSight 3 (blob (.named "base") (history.drop 2)).history
    (blob (.named "remote") history).history :=
  Or.inl ⟨⟨"second"⟩, rfl, by decide⟩

/-- The remote side changed the file. -/
def comparator : Comparator where
  store := (((Memory.empty.insert .workingTree (.ofString "f") [1]).insert (.named "base")
    (.ofString "f") [1]).insert (.named "remote") (.ofString "f") [2]).store
  byteCompare := false

/-- A store that reads of a file whether its history was cut off. It answers the same question the same way every
    time, but a limit changes what it is asked. -/
def marking : Store where
  content b := .ok [if b.truncated then 1 else 0]
  listing := Store.detached.listing

end Comparator.Sample

open Comparator.Sample in
/-- Three commits of four show the tip of the base, so the remote side is known to be ahead. -/
theorem classify_of_near_tip :
    classify comparator ⟨some (.blob ((blob .workingTree []).capped 3)),
      some (.blob ((blob (.named "base") (history.drop 2)).capped 3)),
      some (.blob ((blob (.named "remote") history).capped 3))⟩ = .ok (.incoming .change) :=
  ((classify_capped (Memory.ignoresHistory _) (by decide) rfl rfl rfl rfl rfl coherent_history).2
    inSight_history).trans (by decide)

open Comparator.Sample in
/-- A store that reads histories gives another verdict on the same files when these are cut off, also with the tip
    of the base in sight. Whole, they are in sync; cut off, the remote side is ahead. -/
theorem classify_of_marked_history :
    Coherent (blob (.named "base") (history.drop 2)).history (blob (.named "remote") history).history ∧
    InSight 3 (blob (.named "base") (history.drop 2)).history (blob (.named "remote") history).history ∧
    classify ⟨marking, false⟩ ⟨some (.blob (blob .workingTree [])),
      some (.blob (blob (.named "base") (history.drop 2))),
      some (.blob (blob (.named "remote") history))⟩ = .ok .inSync ∧
    classify ⟨marking, false⟩ ⟨some (.blob ((blob .workingTree []).capped 3)),
      some (.blob ((blob (.named "base") (history.drop 2)).capped 3)),
      some (.blob ((blob (.named "remote") history).capped 3))⟩ = .ok (.incoming .change) :=
  ⟨coherent_history, inSight_history, by decide, by decide⟩

end ThreeWay
