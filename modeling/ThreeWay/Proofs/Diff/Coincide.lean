import ThreeWay.Proofs.Diff.Departs

/-!
# Hierarchies That Coincide

A difference of two folders has no children exactly if nothing below them differs, and to know that one has
to look at every place. What two hierarchies have to show at a place is simple: nothing on either side, files
that are equal, or folders whose ids do not tell them apart. If that is so at every place, the difference is
empty.

The folders need not have ids on both sides. Where one is missing the two folders are compared member by
member, and where both are there they are the same; either way nothing is found.

`Coincide` is the counterpart of `Departs`, which says how two hierarchies may differ at a place. It asks for more
than that nothing departs, since folders count here as well: a folder on one side only is a difference even if
there is no file in it.

## Main definitions

* `Coincide`: What two hierarchies may show at a place.

## Theorems

* `exists_partner_right`, `exists_partner_left`: Two folders at one place list the same names.
* `not_differs_of_coincide`: Variants at one place of two hierarchies that coincide do not differ.
* `children_eq_nil_of_coincide`: A difference at such a place has no children.
* `compare_childless`: The difference of two hierarchies that coincide has no children.
-/

namespace ThreeWay

open ThreeWay.Path Scanner Run

/-- What is shown at one place is the same on both sides: nothing, files that are equal, or folders that are
    not told apart by their ids. -/
inductive Coincide (c : Comparator) : Option Variant → Option Variant → Prop
  | nothing : Coincide c none none
  | files (a b : Blob) (equal : c.equal (some (.blob a)) (some (.blob b)) = .ok true) :
      Coincide c (some (.blob a)) (some (.blob b))
  | folders (f g : Folder) (fs gs : Option (List Variant))
      (ids : ∀ x y, f.treeId = some x → g.treeId = some y → x = y) :
      Coincide c (some (.tree f fs)) (some (.tree g gs))

/-- A folder without an id is not told apart from another one. -/
theorem Coincide.of_treeId_eq_none {c : Comparator} {f : Folder} (hf : f.treeId = none) (g : Folder)
    (fs gs : Option (List Variant)) : Coincide c (some (.tree f fs)) (some (.tree g gs)) := by
  refine .folders f g fs gs fun x _ hx => ?_
  cases hf.symm.trans hx

section

variable {c : Comparator} {m n : Nat} {left right : List Bytes → Option Variant}
  (onLeft : Hierarchy c.store m left) (onRight : Hierarchy c.store n right)
  (same : ∀ names, Coincide c (left names) (right names))

include onLeft onRight same

section

variable {above : List Bytes} {f g : Folder} {fs gs : Option (List Variant)} {ls rs : List Variant}
  (hv : left above = some (.tree f fs)) (hw : right above = some (.tree g gs))
  (listedL : c.store.listed f fs = .ok ls) (listedR : c.store.listed g gs = .ok rs)

include hv hw listedL listedR

/-- Two folders at one place list the same names. -/
theorem exists_partner_right {l : Variant} (hl : l ∈ ls) : ∃ r ∈ rs, r.name = l.name := by
  -- A member without a partner stands at a place where the other side shows nothing, and that is no way to coincide.
  by_contra missing
  have alone : ∀ r ∈ rs, r.name ≠ l.name := fun r hr he => missing ⟨r, hr, he⟩
  have hsame := same (above ++ [Utf8.encode l.name])
  rw [(onLeft.mem_iff hv listedL).mp hl, onRight.none_of_name_ne hw listedR alone] at hsame
  cases hsame

theorem exists_partner_left {r : Variant} (hr : r ∈ rs) : ∃ l ∈ ls, l.name = r.name := by
  by_contra missing
  have alone : ∀ l ∈ ls, l.name ≠ r.name := fun l hl he => missing ⟨l, hl, he⟩
  have hsame := same (above ++ [Utf8.encode r.name])
  rw [onLeft.none_of_name_ne hv listedL alone, (onRight.mem_iff hw listedR).mp hr] at hsame
  cases hsame

end

/-- Variants at one place of two hierarchies that coincide do not differ. -/
theorem not_differs_of_coincide {v w : Variant} (hd : Differs c v w) {above : List Bytes}
    (hv : left above = some v) (hw : right above = some w) : False := by
  -- Each way to differ contradicts what is shown, here or, for a pair of members, one name further down.
  induction hd generalizing above with
  | kinds l r apart =>
      have hsame := same above
      rw [hv, hw] at hsame
      cases hsame <;> exact apart rfl
  | contents a b unequal =>
      have hsame := same above
      rw [hv, hw] at hsame
      cases hsame with
      | files a b equal => cases unequal.symm.trans equal
  | ids f g fs gs x y hx hy unequal =>
      have hsame := same above
      rw [hv, hw] at hsame
      cases hsame with
      | folders f g fs gs ids => exact unequal (ids x y hx hy)
  | onlyLeft f g fs gs ls rs _ listedL listedR l hl alone =>
      rcases exists_partner_right onLeft onRight same hv hw listedL listedR hl with ⟨r, hr, hname⟩
      exact alone r hr hname
  | onlyRight f g fs gs ls rs _ listedL listedR r hr alone =>
      rcases exists_partner_left onLeft onRight same hv hw listedL listedR hr with ⟨l, hl, hname⟩
      exact alone l hl hname
  | pair f g fs gs ls rs _ listedL listedR l r hl hr hname _ ih =>
      have hmember := (onRight.mem_iff hw listedR).mp hr
      rw [← hname] at hmember
      exact ih ((onLeft.mem_iff hv listedL).mp hl) hmember

/-- So a difference at such a place has no children. -/
theorem children_eq_nil_of_coincide {v w : Variant} {node : DiffNode} (hdiff : IsDifference c v w node)
    {above : List Bytes} (hv : left above = some v) (hw : right above = some w) : node.children = [] := by
  cases hdiff with
  | leaf l r flat => rfl
  | folders f g fs gs ls rs children below listedL listedR _ _ _ _ _ nothingElse =>
      refine List.eq_nil_iff_forall_not_mem.mpr fun child hchild => ?_
      -- A child would be a member of one side alone or a pair that differs.
      rcases nothingElse child hchild with ⟨l, hl, alone, _⟩ | ⟨r, hr, alone, _⟩ |
        ⟨l, hl, r, hr, hname, differ, _⟩
      · rcases exists_partner_right onLeft onRight same hv hw listedL listedR hl with ⟨r, hr, hname⟩
        exact alone r hr hname
      · rcases exists_partner_left onLeft onRight same hv hw listedL listedR hr with ⟨l, hl, hname⟩
        exact alone l hl hname
      · have hmember := (onRight.mem_iff hw listedR).mp hr
        rw [← hname] at hmember
        exact not_differs_of_coincide onLeft onRight same differ ((onLeft.mem_iff hv listedL).mp hl) hmember

end

/-- The difference of two hierarchies that coincide has no children. -/
theorem compare_childless {d : Differ} (quiet : Signal.IsQuiet d.signal) {m n levels : Nat}
    {left right : List Bytes → Option Variant} (onLeft : Hierarchy d.comparator.store m left)
    (onRight : Hierarchy d.comparator.store n right)
    (same : ∀ names, Coincide d.comparator (left names) (right names)) {v w : Variant}
    (hv : left [] = some v) (hw : right [] = some w) (deepL : m < levels) (deepR : n < levels) :
    ∃ node, Gives (d.compare levels v w) (.ok node) ∧ node.children = [] := by
  have listedL := onLeft.wellListed hv (by simpa using deepL)
  have listedR := onRight.wellListed hw (by simpa using deepR)
  -- Files at one place are equal, so the comparison has an answer.
  have comparable : ∀ names a b, left names = some (.blob a) → right names = some (.blob b) →
      ∃ same, d.comparator.equal (some (.blob a)) (some (.blob b)) = .ok same := by
    intro names a b ha hb
    have hsame := same names
    rw [ha, hb] at hsame
    cases hsame with
    | files a b equal => exact ⟨true, equal⟩
  have readable := Hierarchy.readableBelow onLeft onRight comparable hv hw
  rcases Differ.compare_gives quiet le_rfl listedL listedR readable with ⟨node, hnode⟩
  have hdiff := Differ.compare_isDifference listedL listedR hnode.returns
  exact ⟨node, hnode, children_eq_nil_of_coincide onLeft onRight same hdiff hv hw⟩

end ThreeWay
