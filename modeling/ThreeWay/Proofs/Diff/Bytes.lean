import ThreeWay.Classify
import ThreeWay.Proofs.Diff.Build
import ThreeWay.Proofs.Run.Agree

/-!
# Ids Tell What Bytes Tell

Whether ids are trusted or contents are read makes no difference where the ids are right: where everything
that may be read can be read, and of two ids each tells its content apart from the other one. Files
without an id are read in any case.

The comparator is the only place that asks which of the two is wanted. So everything rests on what two
variants tell about their content: the same verdict either way, or two ids on one side and their contents
on the other (`Verdict.of_byteCompare`). A classification then compares the same pairs with the same
answers. A difference does too, but it also leaves a record of what it read, so there the two runs agree
up to the contents in their records.

What may be read is read off the hierarchies themselves: `Store.Contains` reaches every file of the two sides, at
any depth, through listings that are loaded or served. The condition is asked of these files only, and a member of
a folder contains nothing that the folder does not, so the condition goes down with the recursion of the
difference.

The signal may not listen to contents. Otherwise it could be raised by a file that one of the two runs reads and
the other does not, and stop that run alone.

## Main definitions

* `Store.Identifies`: The files in play can be read, and their ids tell their contents apart.
* `Store.Contains`: A file of a hierarchy, however deep.

## Theorems

* `Verdict.ofBlobs_byteCompare`: Two files with ids, known by these or by their contents.
* `Verdict.of_byteCompare`: The verdicts on two variants, with ids and with bytes.
* `classify_congr`: A verdict asks for comparisons with the base and for nothing else.
* `Comparator.equal_byteCompare`, `classify_byteCompare`: Comparing and classifying give the same.
* `Differ.equal_agree`, `Differ.expand_agree`, `Differ.childOf_agree`: The steps of a difference.
* `Differ.compare_agree`: Two differences that agree up to what they read.
* `byteCompare_agrees`: All three give the same.
* `byteCompare_of_two_revisions`: A file that differs, and one without an id.
-/

namespace ThreeWay

/-- The files in play can be read, and an id stands for one content, as a content does for one id. -/
structure Store.Identifies (s : Store) (inPlay : Blob → Prop) : Prop where
  readable : ∀ b, inPlay b → ∃ bytes, s.content b = .ok bytes
  faithful : ∀ a b i j, inPlay a → inPlay b → a.contentId = some i → b.contentId = some j →
    (i = j ↔ s.content a = s.content b)

/-- A file of a hierarchy, however deep. -/
inductive Store.Contains (s : Store) : Variant → Blob → Prop
  | here (b : Blob) : Contains s (.blob b) b
  | member (f : Folder) (members : Option (List Variant)) (found : List Variant)
      (listed : s.listed f members = .ok found) (v : Variant) (hv : v ∈ found) (b : Blob)
      (h : Contains s v b) : Contains s (.tree f members) b

section

variable {s : Store} {inPlay : Blob → Prop} (h : s.Identifies inPlay)

include h

/-- Two files are compared alike, or by their ids on one side and by their contents on the other. -/
theorem Verdict.ofBlobs_byteCompare {a b : Blob} (ha : inPlay a) (hb : inPlay b) :
    ofBlobs true a b = ofBlobs false a b ∨ ∃ x y, s.content a = .ok x ∧ s.content b = .ok y ∧
      ofBlobs true a b = .byBytes a b ∧ ofBlobs false a b = .known (x = y) := by
  cases hi : a.contentId with
  | none =>
      left
      simp only [ofBlobs, hi]
  | some i =>
      cases hj : b.contentId with
      | none =>
          left
          simp only [ofBlobs, hi, hj]
      | some j =>
          rcases h.readable a ha with ⟨x, hx⟩
          rcases h.readable b hb with ⟨y, hy⟩
          -- Each id tells its content from the other one, so equal ids are equal contents.
          have same : i = j ↔ x = y := by
            rw [h.faithful a b i j ha hb hi hj, hx, hy, Except.ok.injEq]
          refine Or.inr ⟨x, y, hx, hy, rfl, ?_⟩
          simp only [ofBlobs, hi, hj, same]

/-- Two variants are compared alike, or they are files whose ids and contents tell the same. -/
theorem Verdict.of_byteCompare {a b : Option Variant} (ha : ∀ x, existing a = some (.blob x) → inPlay x)
    (hb : ∀ x, existing b = some (.blob x) → inPlay x) :
    Verdict.of true a b = Verdict.of false a b ∨
      ∃ x y v w, s.content x = .ok v ∧ s.content y = .ok w ∧
        Verdict.of true a b = .byBytes x y ∧ Verdict.of false a b = .known (v = w) := by
  unfold Verdict.of
  rcases hx : existing a with _ | ⟨x | ⟨f, fs⟩⟩
  · left
    rcases existing b with _ | ⟨y | ⟨g, gs⟩⟩ <;> rfl
  · rcases hy : existing b with _ | ⟨y | ⟨g, gs⟩⟩
    · exact Or.inl rfl
    · -- Only two files leave a choice.
      rcases Verdict.ofBlobs_byteCompare h (ha x hx) (hb y hy) with same | ⟨v, w, hv, hw, ht, hf⟩
      · exact Or.inl same
      · exact Or.inr ⟨x, y, v, w, hv, hw, ht, hf⟩
    · exact Or.inl rfl
  · left
    rcases existing b with _ | ⟨y | ⟨g, gs⟩⟩ <;> rfl

/-- Comparing gives the same with ids and with bytes. -/
theorem Comparator.equal_byteCompare {a b : Option Variant}
    (ha : ∀ x, existing a = some (.blob x) → inPlay x)
    (hb : ∀ x, existing b = some (.blob x) → inPlay x) :
    (Comparator.mk s true).equal a b = (Comparator.mk s false).equal a b := by
  unfold Comparator.equal
  -- Where the verdicts differ, the one by bytes reads what the one by ids knows.
  rcases Verdict.of_byteCompare h ha hb with same | ⟨x, y, v, w, hv, hw, ht, hf⟩
  · simp only [same]
  · simp only [ht, hf, Verdict.settle, hv, hw]
    rfl

end

/-- The verdict on three sides asks for nothing but comparisons of sides with the base. -/
theorem classify_congr {c e : Comparator} {t : Triple}
    (hlocal : c.equal t.local t.base = e.equal t.local t.base)
    (hremote : c.equal t.remote t.base = e.equal t.remote t.base) : classify c t = classify e t := by
  rcases t with ⟨here, base, remote⟩
  simp only at hlocal hremote
  unfold classify
  -- Without a base nothing is compared, and with one only with it.
  cases base with
  | none => rfl
  | some base =>
      cases here with
      | none => simp only [hremote]
      | some here =>
          simp only [hlocal]
          rcases hr : existing remote with _ | v
          · rfl
          · have hv : remote = some v := (Option.filter_eq_some_iff.mp hr).1
            subst hv
            simp only [hremote]

section

variable {s : Store} {inPlay : Blob → Prop}

/-- A classification gives the same with ids and with bytes. -/
theorem classify_byteCompare (h : s.Identifies inPlay) {t : Triple}
    (ht : ∀ b, .blob b ∈ t.existingSides → inPlay b) :
    classify ⟨s, true⟩ t = classify ⟨s, false⟩ t := by
  have side : ∀ v ∈ [t.local, t.base, t.remote], ∀ x, existing v = some (.blob x) → inPlay x :=
    fun v hv x hx => ht x (List.mem_filterMap.mpr ⟨v, hv, hx⟩)
  have hbase := side t.base (by simp)
  exact classify_congr (Comparator.equal_byteCompare h (side t.local (by simp)) hbase)
    (Comparator.equal_byteCompare h (side t.remote (by simp)) hbase)

namespace Differ

open Run

variable {signal : Option Signal} {levels : Nat}

/-- Two members are told apart alike. -/
theorem equal_agree (h : s.Identifies inPlay) {a b : Variant}
    (ha : ∀ x, s.Contains a x → x.present = true → inPlay x)
    (hb : ∀ x, s.Contains b x → x.present = true → inPlay x) :
    Agree ((Differ.mk ⟨s, true⟩ signal).equal a b) ((Differ.mk ⟨s, false⟩ signal).equal a b) := by
  -- A file that is compared is the member itself.
  have inPlay_of_existing : ∀ {v : Variant}, (∀ x, s.Contains v x → x.present = true → inPlay x) →
      ∀ x, existing (some v) = some (.blob x) → inPlay x := by
    intro v hv x hx
    have hkept := Option.filter_eq_some_iff.mp hx
    have hblob : v = .blob x := Option.some.inj hkept.1
    exact hv x (hblob ▸ Store.Contains.here x) hkept.2
  unfold equal
  rcases Verdict.of_byteCompare h (inPlay_of_existing ha) (inPlay_of_existing hb) with
    same | ⟨x, y, v, w, hv, hw, ht, hf⟩
  · simp only [same]
    cases Verdict.of false (some a) (some b) with
    | known answer => exact Agree.pure answer
    | byBytes x y =>
        refine (Agree.serve _ _).bind fun _ _ => ?_
        exact (Agree.serve _ _).bind fun _ _ => Agree.pure _
  · simp only [ht, hf]
    -- Both contents are read on one side only, and then the answers are the same.
    have hpure : (Verdict.known (decide (v = w))).settle (Differ.content ⟨⟨s, false⟩, signal⟩) =
        (do
          let x ← Pure.pure v
          let y ← Pure.pure w
          return decide (x = y)) := rfl
    rw [hpure]
    refine (Agree.read x.path hv).bind fun v' hv' => ?_
    refine (Agree.read y.path hw).bind fun w' hw' => ?_
    exact Agree.pure _

theorem listing_agree (f : Folder) (members : Option (List Variant)) :
    Agree ((Differ.mk ⟨s, true⟩ signal).listing f members)
      ((Differ.mk ⟨s, false⟩ signal).listing f members) := by
  unfold listing
  refine Agree.bind ?_ fun found _ => (Agree.ofExcept _).bind fun _ _ => Agree.pure found
  cases members with
  | some given => exact Agree.pure given
  | none => exact Agree.serve _ _

/-- Expanding reads nothing at all. -/
theorem expand_agree (deaf : Signal.IgnoresContents signal) (kind : DiffKind) (v : Variant) :
    Agree ((Differ.mk ⟨s, true⟩ signal).expand levels kind v)
      ((Differ.mk ⟨s, false⟩ signal).expand levels kind v) := by
  -- Listings are served alike and no content is asked for.
  induction levels generalizing v with
  | zero =>
      cases v with
      | blob b =>
          rw [expand, expand]
          exact Agree.pure _
      | tree f members =>
          rw [expand, expand]
          exact Agree.throw _
  | succ levels ih =>
      cases v with
      | blob b =>
          rw [expand, expand]
          exact Agree.pure _
      | tree f members =>
          rw [expand_folder, expand_folder]
          refine (listing_agree f members).bind fun found _ => ?_
          refine (Agree.mapM fun v _ => ?_).bind fun children _ => Agree.pure _
          exact (Agree.checkpoint deaf).bind fun _ _ => ih v

/-- What one pairing leads to. -/
theorem childOf_agree (h : s.Identifies inPlay) (deaf : Signal.IgnoresContents signal)
    {p : Pairing Variant} (hl : ∀ l ∈ p.left?, ∀ x, s.Contains l x → x.present = true → inPlay x)
    (hr : ∀ r ∈ p.right?, ∀ x, s.Contains r x → x.present = true → inPlay x)
    (ih : ∀ l ∈ p.left?, ∀ r ∈ p.right?, Agree ((Differ.mk ⟨s, true⟩ signal).compare levels l r)
      ((Differ.mk ⟨s, false⟩ signal).compare levels l r)) :
    Agree ((Differ.mk ⟨s, true⟩ signal).childOf levels p)
      ((Differ.mk ⟨s, false⟩ signal).childOf levels p) := by
  unfold childOf
  refine (Agree.checkpoint deaf).bind fun _ _ => ?_
  cases p with
  | left l => exact (expand_agree deaf .addition l).map some
  | right r => exact (expand_agree deaf .deletion r).map some
  | both l r =>
      have hcompare := ih l rfl r rfl
      -- A descent is the same on both sides. A comparison may read on one side only, and answers the same.
      by_cases place : equalByPlace l r = true
      · simp only [if_pos place]
        exact hcompare.bind fun child _ => Agree.pure _
      · simp only [if_neg place]
        have hequal : Agree ((Differ.mk ⟨s, true⟩ signal).equal l r)
            ((Differ.mk ⟨s, false⟩ signal).equal l r) :=
          equal_agree h (hl l rfl) (hr r rfl)
        refine hequal.bind fun same _ => ?_
        cases same with
        | true => exact Agree.pure none
        | false => exact hcompare.map some

/-- Two differences that agree up to what they read. -/
theorem compare_agree (h : s.Identifies inPlay) (deaf : Signal.IgnoresContents signal) {l r : Variant}
    (hl : ∀ x, s.Contains l x → x.present = true → inPlay x)
    (hr : ∀ x, s.Contains r x → x.present = true → inPlay x) :
    Agree ((Differ.mk ⟨s, true⟩ signal).compare levels l r)
      ((Differ.mk ⟨s, false⟩ signal).compare levels l r) := by
  -- Level by level, with the files in play handed down from a folder to its members.
  induction levels generalizing l r with
  | zero =>
      rcases flat_or_folders l r with flat | ⟨f, fs, g, gs, rfl, rfl⟩
      · rw [compare_flat _ 0 l r flat, compare_flat _ 0 l r flat]
        exact Agree.pure _
      · rw [compare, compare]
        exact Agree.throw _
  | succ levels ih =>
      rcases flat_or_folders l r with flat | ⟨f, fs, g, gs, rfl, rfl⟩
      · rw [compare_flat _ (levels + 1) l r flat, compare_flat _ (levels + 1) l r flat]
        exact Agree.pure _
      · rw [compare_folders, compare_folders]
        refine (listing_agree f fs).bind fun ls hls => ?_
        refine (listing_agree g gs).bind fun rs hrs => ?_
        refine (Agree.mapM fun p hp => ?_).bind fun children _ => Agree.pure _
        -- The files below a member are files below its folder.
        have left := (returns_listing hls).1
        have right := (returns_listing hrs).1
        have sides := Pairing.sides_of_mem_join hp
        have hl' : ∀ v ∈ p.left?, ∀ x, s.Contains v x → x.present = true → inPlay x :=
          fun v hv x hx => hl x (.member f fs ls left v (sides.1 v hv) x hx)
        have hr' : ∀ v ∈ p.right?, ∀ x, s.Contains v x → x.present = true → inPlay x :=
          fun v hv x hx => hr x (.member g gs rs right v (sides.2 v hv) x hx)
        exact childOf_agree h deaf hl' hr' fun v hv w hw => ih (hl' v hv) (hr' w hw)

end Differ

/-- Comparing, classifying and building a difference give the same with ids and with bytes. -/
theorem byteCompare_agrees (h : s.Identifies inPlay) {signal : Option Signal}
    (deaf : Signal.IgnoresContents signal) :
    (∀ a b, (∀ x, existing a = some (.blob x) ∨ existing b = some (.blob x) → inPlay x) →
      (Comparator.mk s true).equal a b = (Comparator.mk s false).equal a b) ∧
    (∀ t : Triple, (∀ b, .blob b ∈ t.existingSides → inPlay b) →
      classify ⟨s, true⟩ t = classify ⟨s, false⟩ t) ∧
    ∀ levels l r, (∀ x, s.Contains l x ∨ s.Contains r x → x.present = true → inPlay x) →
      ((Differ.mk ⟨s, true⟩ signal).diff levels l r).outcome =
        ((Differ.mk ⟨s, false⟩ signal).diff levels l r).outcome := by
  refine ⟨?_, ?_, ?_⟩
  · intro a b hab
    exact Comparator.equal_byteCompare h (fun x hx => hab x (Or.inl hx)) fun x hx => hab x (Or.inr hx)
  · intro t ht
    exact classify_byteCompare h ht
  · intro levels l r hlr
    refine Run.Agree.outcome ?_
    refine (Run.Agree.ofExcept _).bind fun _ _ => (Run.Agree.ofExcept _).bind fun _ _ => ?_
    exact Differ.compare_agree h deaf (fun x hx => hlr x (Or.inl hx)) fun x hx => hlr x (Or.inr hx)

end

namespace Store.Sample

/-- A file with an id, or without one. -/
def file (name : String) (revision : Revision) (id : Option ContentId) : Blob :=
  { Blob.at (.ofString name) revision with contentId := id }

/-- The files of two revisions. One of them has no id. -/
def files : List Blob :=
  [file "a" .index (some ⟨"one"⟩), file "b" .index none, file "a" .workingTree (some ⟨"two"⟩),
    file "b" .workingTree (some ⟨"three"⟩)]

/-- One file differs between the revisions. -/
def store : Store :=
  ((((Memory.empty.insert .index (.ofString "a") [1]).insert .index (.ofString "b") [3]).insert
    .workingTree (.ofString "a") [2]).insert .workingTree (.ofString "b") [3]).store

/-- The files of one revision in a folder. -/
def root (revision : Revision) : Variant :=
  .tree (.at .root revision) (some ((files.filter (·.revision = revision)).map .blob))

theorem mem_files_of_contains {revision : Revision} {x : Blob} (h : store.Contains (root revision) x) :
    x ∈ files := by
  cases h with
  | member f members found listed v hv b h =>
      cases Except.ok.inj listed
      rcases List.mem_map.mp hv with ⟨y, hy, rfl⟩
      cases h
      exact (List.mem_filter.mp hy).1

theorem identifies : store.Identifies (· ∈ files) := by
  -- There are four files, so everything that is asked of them is decided.
  have readable : ∀ b ∈ files, (store.content b).toOption.isSome = true := by decide
  have faithful : ∀ a ∈ files, ∀ b ∈ files, a.contentId ≠ none → b.contentId ≠ none →
      (a.contentId = b.contentId ↔ store.content a = store.content b) := by decide
  constructor
  · intro b hb
    have hr := readable b hb
    rcases hc : store.content b with e | bytes
    · rw [hc] at hr
      cases hr
    · exact ⟨bytes, rfl⟩
  · intro a b i j ha hb hi hj
    rw [← faithful a ha b hb (by simp [hi]) (by simp [hj]), hi, hj, Option.some_inj]

end Store.Sample

open Store.Sample in
/-- The file that differs is found by its ids or by its contents, and the other one is read in any case. -/
theorem byteCompare_of_two_revisions :
    (Comparator.mk store true).equal (some (.blob (file "b" .index none)))
        (some (.blob (file "b" .workingTree (some ⟨"three"⟩)))) = .ok true ∧
    classify ⟨store, true⟩ ⟨some (.blob (file "a" .workingTree (some ⟨"two"⟩))),
        some (.blob (file "a" .index (some ⟨"one"⟩))), some (.blob (file "a" .index (some ⟨"one"⟩)))⟩ =
      .ok (.outgoing .change) ∧
    ((Differ.mk ⟨store, true⟩ none).diff 1 (root .index) (root .workingTree)).outcome.toOption.map
      (fun n => n.walk.map fun e => e.2.name) = some ["a"] := by
  have deaf : Signal.IgnoresContents none := fun _ h => nomatch h
  have agrees := byteCompare_agrees identifies deaf
  refine ⟨?_, ?_, ?_⟩
  · refine (agrees.1 _ _ fun x hx => ?_).trans (by decide)
    rcases hx with hx | hx
    · cases hx
      decide
    · cases hx
      decide
  · refine (agrees.2.1 _ fun b hb => ?_).trans (by decide)
    change Variant.blob b ∈ [.blob (file "a" .workingTree (some ⟨"two"⟩)),
      .blob (file "a" .index (some ⟨"one"⟩)), .blob (file "a" .index (some ⟨"one"⟩))] at hb
    simp only [List.mem_cons, List.not_mem_nil, or_false, Variant.blob.injEq, or_self] at hb
    rcases hb with rfl | rfl
    · decide
    · decide
  · rw [agrees.2.2 1 (root .index) (root .workingTree) fun x hx _ => hx.elim mem_files_of_contains
      mem_files_of_contains]
    decide +kernel

end ThreeWay
