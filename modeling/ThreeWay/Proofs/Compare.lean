import ThreeWay.Compare
import ThreeWay.Object.Id
import ThreeWay.Proofs.Run

/-!
# Files Compared by Their Content

A file whose content is known compares equal to another exactly when both contents are equal, whichever
way they are compared. By bytes that is the definition; by ids it rests on the two contents not sharing
one id.

What two variants tell is settled in two steps, first by what is known of them and then, where that leaves it
open, by reading. The first step is a pure table over kinds, ids and presence, `Verdict.of`, and the second reads
two files in an order, `Verdict.settle`. A failure can come from the second step only, and there it depends on
which file is read first. So the order of the sides matters for a failure, and for no answer.

`Comparator.Holds` asks for a content that can be read in any case, and `Comparator.Shows` only where bytes are
compared. `Comparator.Alike` asks for no content at all, only that two files have it in common, or fail in common.
They are what a disk, a revision and a deferred listing have to provide, so that files from different places can
be compared without opening the store.

## Main definitions

* `Verdict.swap`: What two variants tell, with the sides exchanged.
* `Comparator.Holds`: A file with a known content.
* `Comparator.Shows`: A file with a known content, which is read only where bytes are compared.
* `Comparator.Alike`: Two files that a comparison cannot tell apart.
* `Comparator.Unreadable`: Two files that are compared by bytes of which some cannot be read.

## Theorems

* `Verdict.ofBlobs_swap`, `Verdict.ofFolders_comm`, `Verdict.of_swap`: The table is symmetric.
* `Verdict.ofBlobs_byBytes`, `Verdict.ofBlobs_known`: Where the table leaves it open.
* `Verdict.settle_swap`: Which file is read first does not matter for an answer.
* `contentId_inj`: An object id has a text of its own.
* `Comparator.equal_of_kinds`, `Comparator.equal_folders`, `Comparator.equal_of_missing`: What is compared
  without a read.
* `Comparator.equal_eq_error_iff`: What a comparison fails on.
* `Comparator.equal_of_holds`: Files are equal exactly when their contents are.
* `Comparator.equal_of_shows`: Files of one content are equal.
* `Comparator.unequal_iff`: Files are found to differ by their ids, or by what is read.
* `Comparator.equal_swap`: Which side comes first does not matter.
* `Comparator.Alike.unequal`: A file may be replaced by one that is alike.
* `Comparator.Alike.not_unequal`: Files that are alike are never found to differ.
-/

namespace ThreeWay

/-- A variant that exists is there for a comparison. -/
theorem existing_of_present {v : Variant} (h : v.present = true) : existing (some v) = some v := by
  rw [existing, Option.filter_some, if_pos h]

namespace Verdict

/-- What two variants tell, with the sides exchanged. -/
def swap : Verdict → Verdict
  | .known same => .known same
  | .byBytes a b => .byBytes b a

theorem ofBlobs_swap (byteCompare : Bool) (a b : Blob) :
    ofBlobs byteCompare b a = (ofBlobs byteCompare a b).swap := by
  unfold ofBlobs
  -- Only two ids decide something, and then by an equation that can be turned around.
  rcases byteCompare with _ | _
  · rcases a.contentId with _ | x
    · rcases b.contentId with _ | y <;> rfl
    · rcases b.contentId with _ | y
      · rfl
      · simp only [swap, eq_comm]
  · rfl

/-- What two files tell is left open where bytes are wanted or an id is missing. -/
theorem ofBlobs_byBytes {byteCompare : Bool} {a b : Blob}
    (hread : byteCompare = true ∨ a.contentId = none ∨ b.contentId = none) :
    ofBlobs byteCompare a b = .byBytes a b := by
  unfold ofBlobs
  rcases hread with h | h | h
  · rw [h]
  · rw [h]
    cases byteCompare <;> rfl
  · rw [h]
    cases byteCompare with
    | true => rfl
    | false => cases a.contentId <;> rfl

/-- Otherwise it is known. -/
theorem ofBlobs_known {byteCompare : Bool} {a b : Blob}
    (hids : ¬ (byteCompare = true ∨ a.contentId = none ∨ b.contentId = none)) :
    ∃ same, ofBlobs byteCompare a b = .known same := by
  rw [not_or, not_or, Bool.not_eq_true] at hids
  rcases Option.ne_none_iff_exists'.mp hids.2.1 with ⟨i, hi⟩
  rcases Option.ne_none_iff_exists'.mp hids.2.2 with ⟨j, hj⟩
  refine ⟨decide (i = j), ?_⟩
  simp only [ofBlobs, hids.1, hi, hj]

theorem ofFolders_comm (f g : Folder) : ofFolders g f = ofFolders f g := by
  unfold ofFolders
  rcases f.treeId with _ | x
  · rcases g.treeId with _ | y <;> simp only [eq_comm]
  · rcases g.treeId with _ | y <;> simp only [eq_comm]

theorem of_swap (byteCompare : Bool) (a b : Option Variant) :
    Verdict.of byteCompare b a = (Verdict.of byteCompare a b).swap := by
  unfold Verdict.of
  -- The table has a row for each pair of a missing side, a file and a folder.
  rcases existing a with _ | x
  · rcases existing b with _ | y
    · rfl
    · cases y <;> rfl
  · rcases existing b with _ | y
    · cases x <;> rfl
    · cases x with
      | blob x =>
          cases y with
          | blob y => exact ofBlobs_swap byteCompare x y
          | tree g gs => rfl
      | tree f fs =>
          cases y with
          | blob y => rfl
          | tree g gs => exact congrArg Verdict.known (ofFolders_comm f g)

/-- An answer does not depend on which side is read first. -/
theorem settle_swap {read : Blob → Except Error Bytes} {v : Verdict} {same : Bool}
    (h : v.settle read = .ok same) : v.swap.settle read = .ok same := by
  cases v with
  | known answer => exact h
  | byBytes a b =>
      -- Both files were read, so both can be read in the other order.
      rcases Run.bind_eq_ok h with ⟨x, hx, h⟩
      rcases Run.bind_eq_ok h with ⟨y, hy, h⟩
      rw [swap, settle, hx, hy, ← h]
      simp only [Run.ok_bind, eq_comm]

end Verdict

/-- An object id has a text of its own. -/
theorem contentId_inj {i j : ObjectId} : ContentId.mk i.hex = ⟨j.hex⟩ ↔ i = j := by
  rw [ContentId.mk.injEq, ← ObjectId.mk.injEq]

namespace Comparator

variable {c : Comparator} {a b : Blob} {x y : Bytes}

/-- A file exists, has the id of a content, and its content can be read. -/
structure Holds (c : Comparator) (b : Blob) (content : Bytes) : Prop where
  present : b.present = true
  identified : b.contentId = some ⟨(ObjectId.ofBlob content).hex⟩
  readable : c.store.content b = .ok content

/-- A file exists and has the id of a content, which can be read if bytes are compared. -/
structure Shows (c : Comparator) (b : Blob) (content : Bytes) : Prop where
  present : b.present = true
  identified : b.contentId = some ⟨(ObjectId.ofBlob content).hex⟩
  readable : c.byteCompare = true → c.store.content b = .ok content

theorem existing_of_blob (h : a.present = true) : existing (some (.blob a)) = some (.blob a) :=
  existing_of_present h

theorem Holds.existing_eq (h : c.Holds b x) : existing (some (.blob b)) = some (.blob b) :=
  existing_of_blob h.present

/-- Two ids have one text exactly when the contents are equal, unless the digest confuses them. -/
theorem text_eq_iff (distinct : ObjectId.ofBlob x = ObjectId.ofBlob y → x = y) :
    ContentId.mk (ObjectId.ofBlob x).hex = ⟨(ObjectId.ofBlob y).hex⟩ ↔ x = y :=
  contentId_inj.trans ⟨distinct, congrArg ObjectId.ofBlob⟩

/-- Two files with one id and one content, whatever else is known of them. -/
structure Alike (c : Comparator) (a b : Blob) : Prop where
  present : a.present = b.present
  identified : a.contentId = b.contentId
  readable : c.store.content a = c.store.content b

theorem Alike.holds (h : c.Alike a b) (ha : c.Holds a x) : c.Holds b x :=
  ⟨h.present ▸ ha.present, h.identified ▸ ha.identified, h.readable ▸ ha.readable⟩

/-- A file and a folder are never equal. -/
theorem equal_of_kinds {l r : Variant} (hl : l.present = true) (hr : r.present = true)
    (apart : l.isTree ≠ r.isTree) : c.equal (some l) (some r) = .ok false := by
  rw [equal, Verdict.of, existing_of_present hl, existing_of_present hr]
  -- Of the four pairs of kinds two are of one kind.
  cases l with
  | blob a =>
      cases r with
      | blob b => exact absurd rfl apart
      | tree g gs => rfl
  | tree f fs =>
      cases r with
      | blob b => rfl
      | tree g gs => exact absurd rfl apart

/-- Two folders are compared without a read. -/
theorem equal_folders {f g : Folder} {fs gs : Option (List Variant)}
    (hl : (Variant.tree f fs).present = true) (hr : (Variant.tree g gs).present = true) :
    c.equal (some (.tree f fs)) (some (.tree g gs)) = .ok (Verdict.ofFolders f g) := by
  rw [equal, Verdict.of, existing_of_present hl, existing_of_present hr]
  rfl

/-- What does not exist is never equal to what does. -/
theorem equal_of_missing {side : Option Variant} {v : Variant} (missing : existing side = none)
    (hv : v.present = true) : c.equal side (some v) = .ok false := by
  rw [equal, Verdict.of, missing, existing_of_present hv]
  cases v <;> rfl

/-- Two files with ids are compared by them, unless bytes are wanted. -/
theorem equal_of_ids (hbytes : c.byteCompare = false) (ha : a.present = true) (hb : b.present = true)
    {i j : ContentId} (hi : a.contentId = some i) (hj : b.contentId = some j) :
    c.equal (some (.blob a)) (some (.blob b)) = .ok (decide (i = j)) := by
  rw [equal, Verdict.of, existing_of_blob ha, existing_of_blob hb]
  simp only [Verdict.ofBlobs, hbytes, hi, hj]
  rfl

/-- Otherwise both are read. -/
theorem equal_of_bytes (ha : a.present = true) (hb : b.present = true)
    (hread : c.byteCompare = true ∨ a.contentId = none ∨ b.contentId = none) :
    c.equal (some (.blob a)) (some (.blob b)) =
      (do return (← c.store.content a) = (← c.store.content b)) := by
  rw [equal, Verdict.of, existing_of_blob ha, existing_of_blob hb]
  simp only [Verdict.ofBlobs_byBytes hread]
  rfl

/-- Two existing files that are compared by their bytes, of which one cannot be read. -/
def Unreadable (c : Comparator) (a b : Option Variant) (e : Error) : Prop :=
  ∃ x y, existing a = some (.blob x) ∧ existing b = some (.blob y) ∧
    (c.byteCompare = true ∨ x.contentId = none ∨ y.contentId = none) ∧
    (c.store.content x = .error e ∨
      (∃ bytes, c.store.content x = .ok bytes) ∧ c.store.content y = .error e)

/-- A comparison fails exactly when bytes are needed and one of the two files cannot be read. -/
theorem equal_eq_error_iff {a b : Option Variant} {e : Error} :
    c.equal a b = .error e ↔ c.Unreadable a b e := by
  constructor
  · intro h
    unfold equal Verdict.of at h
    -- Without two files, or with an answer from their ids, nothing is read and nothing can fail.
    split at h
    case h_1 => cases h
    case h_2 x y ha hb =>
      by_cases hread : c.byteCompare = true ∨ x.contentId = none ∨ y.contentId = none
      · refine ⟨x, y, ha, hb, hread, ?_⟩
        rw [Verdict.ofBlobs_byBytes hread, Verdict.settle] at h
        rcases Run.bind_eq_error h with h | ⟨xs, hx, h⟩
        · exact Or.inl h
        · rcases Run.bind_eq_error h with h | ⟨ys, hy, h⟩
          · exact Or.inr ⟨⟨xs, hx⟩, h⟩
          · cases h
      · rcases Verdict.ofBlobs_known hread with ⟨same, hv⟩
        rw [hv] at h
        cases h
    case h_3 => cases h
    case h_4 => cases h
  · rintro ⟨x, y, ha, hb, hread, hfail⟩
    rw [equal, Verdict.of, ha, hb]
    simp only [Verdict.ofBlobs_byBytes hread, Verdict.settle]
    rcases hfail with hx | ⟨⟨xs, hx⟩, hy⟩
    · rw [hx]
      rfl
    · rw [hx, hy]
      rfl

/-- Files are equal exactly when their contents are. -/
theorem equal_of_holds (ha : c.Holds a x) (hb : c.Holds b y)
    (distinct : c.byteCompare = false → ObjectId.ofBlob x = ObjectId.ofBlob y → x = y) :
    c.equal (some (.blob a)) (some (.blob b)) = .ok (decide (x = y)) := by
  -- With ids the contents are told apart unless the digest confuses them, and with bytes they are what is compared.
  cases hbytes : c.byteCompare with
  | false =>
      rw [equal_of_ids hbytes ha.present hb.present ha.identified hb.identified]
      simp only [text_eq_iff (distinct hbytes)]
  | true =>
      rw [equal_of_bytes ha.present hb.present (Or.inl hbytes), ha.readable, hb.readable]
      rfl

/-- Files of one content are equal. -/
theorem equal_of_shows (ha : c.Shows a x) (hb : c.Shows b x) :
    c.equal (some (.blob a)) (some (.blob b)) = .ok true := by
  cases hbytes : c.byteCompare with
  | false =>
      rw [equal_of_ids hbytes ha.present hb.present ha.identified hb.identified, decide_eq_true rfl]
  | true =>
      rw [equal_of_bytes ha.present hb.present (Or.inl hbytes), ha.readable hbytes, hb.readable hbytes,
        Run.ok_bind, Run.ok_bind, decide_eq_true rfl]
      rfl

/-- What two readings have to give where the files are found to differ. -/
theorem unequal_of_bytes {s t : Except Error Bytes} :
    (do return decide ((← s) = (← t)) : Except Error Bool) = .ok false ↔
      ∃ x y, s = .ok x ∧ t = .ok y ∧ x ≠ y := by
  constructor
  · intro h
    cases s with
    | error e => cases h
    | ok x =>
        cases t with
        | error e => cases h
        | ok y => exact ⟨x, y, rfl, rfl, of_decide_eq_false (Except.ok.inj h)⟩
  · rintro ⟨x, y, rfl, rfl, hne⟩
    exact congrArg Except.ok (decide_eq_false hne)

/-- Files are found to differ by their ids, or by what is read. -/
theorem unequal_iff (ha : a.present = true) (hb : b.present = true) :
    c.equal (some (.blob a)) (some (.blob b)) = .ok false ↔
      (c.byteCompare = false ∧ ∃ i j, a.contentId = some i ∧ b.contentId = some j ∧ i ≠ j) ∨
      ((c.byteCompare = true ∨ a.contentId = none ∨ b.contentId = none) ∧
        ∃ x y, c.store.content a = .ok x ∧ c.store.content b = .ok y ∧ x ≠ y) := by
  by_cases hread : c.byteCompare = true ∨ a.contentId = none ∨ b.contentId = none
  · rw [equal_of_bytes ha hb hread, unequal_of_bytes]
    constructor
    · exact fun h => Or.inr ⟨hread, h⟩
    · rintro (⟨hids, i, j, hi, hj, _⟩ | ⟨_, h⟩)
      · -- Two ids that are compared leave nothing to read.
        rw [hids, hi, hj] at hread
        simp at hread
      · exact h
  -- Nothing asks for bytes, so both files have ids and these are compared.
  · have hids := hread
    rw [not_or, not_or, Bool.not_eq_true] at hids
    rcases Option.ne_none_iff_exists'.mp hids.2.1 with ⟨i, hi⟩
    rcases Option.ne_none_iff_exists'.mp hids.2.2 with ⟨j, hj⟩
    rw [equal_of_ids hids.1 ha hb hi hj]
    constructor
    · exact fun h => Or.inl ⟨hids.1, i, j, hi, hj, of_decide_eq_false (Except.ok.inj h)⟩
    · rintro (⟨_, k, l, hk, hl, hne⟩ | ⟨hr, _⟩)
      · rw [hi] at hk
        rw [hj] at hl
        cases hk
        cases hl
        exact congrArg Except.ok (decide_eq_false hne)
      · exact absurd hr hread

/-- Comparing does not depend on the order. -/
theorem equal_swap {a b : Option Variant} {same : Bool}
    (h : c.equal a b = .ok same) : c.equal b a = .ok same := by
  rw [equal, Verdict.of_swap]
  exact Verdict.settle_swap h

/-- Files that are alike give one answer. -/
theorem Alike.equal_eq {a' b' : Blob} (h : c.Alike a a') (g : c.Alike b b') (ha : a.present = true)
    (hb : b.present = true) :
    c.equal (some (.blob a)) (some (.blob b)) = c.equal (some (.blob a')) (some (.blob b')) := by
  have ha' : a'.present = true := h.present ▸ ha
  have hb' : b'.present = true := g.present ▸ hb
  -- Which way is taken depends on the ids only, and these are the same on both sides.
  by_cases hread : c.byteCompare = true ∨ a.contentId = none ∨ b.contentId = none
  · have hread' := hread
    rw [h.identified, g.identified] at hread'
    rw [equal_of_bytes ha hb hread, equal_of_bytes ha' hb' hread', h.readable, g.readable]
  · rw [not_or, not_or, Bool.not_eq_true] at hread
    rcases Option.ne_none_iff_exists'.mp hread.2.1 with ⟨i, hi⟩
    rcases Option.ne_none_iff_exists'.mp hread.2.2 with ⟨j, hj⟩
    rw [equal_of_ids hread.1 ha hb hi hj,
      equal_of_ids hread.1 ha' hb' (h.identified ▸ hi) (g.identified ▸ hj)]

/-- A file may be replaced by one that is alike. -/
theorem Alike.unequal {a' b' : Blob} (h : c.Alike a a') (g : c.Alike b b') (ha : a.present = true)
    (hb : b.present = true) (hd : c.equal (some (.blob a)) (some (.blob b)) = .ok false) :
    c.equal (some (.blob a')) (some (.blob b')) = .ok false := by
  rw [← h.equal_eq g ha hb]
  exact hd

/-- Files that are alike are never found to differ. -/
theorem Alike.not_unequal (h : c.Alike a b) (ha : a.present = true) :
    c.equal (some (.blob a)) (some (.blob b)) ≠ .ok false := by
  rw [ne_eq, unequal_iff ha (h.present ▸ ha)]
  -- They have one id and one content, and neither differs from itself.
  rintro (⟨_, i, j, hi, hj, hne⟩ | ⟨_, x, y, hx, hy, hne⟩)
  · rw [h.identified, hj] at hi
    exact hne (Option.some.inj hi).symm
  · rw [h.readable, hy] at hx
    exact hne (Except.ok.inj hx).symm

end Comparator

end ThreeWay
