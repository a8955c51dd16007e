import ThreeWay.Proofs.Diff.Files
import ThreeWay.Proofs.Diff.Hierarchy

/-!
# What a Difference of Two Hierarchies Tells

Two hierarchies are compared at every place by itself: a file on one side only was added or removed, and two
files of different content are a change. That is `Departs`, and it knows nothing of folders. The difference
of the two hierarchies, which goes from folder to folder and leaves out the pairs that do not differ, tells
exactly this.

It takes two things of the hierarchies. What stands at one place on both sides has one kind, since a file in
the place of a folder hides everything below it; and two folders with one tree id hold the same files, since
they are taken for equal without a look at their members. Where the folders of one side have no tree id at
all, that is nothing to ask for.

The proof goes from the tree to the places and back. A node tells what its children tell, and each child speaks
about one name, so for the way to the places it is enough to follow the law of a difference one level at a time.
For the way back a place is followed name by name, and as long as something is to be told below, the node has a
child for the next name (`Aligned.exists_child`).

## Main definitions

* `Departs`: How two hierarchies differ at a place.
* `Aligned`: Two hierarchies that can be compared place by place.

## Theorems

* `tells_of_whole`: A tree of one side tells all files of that side.
* `Departs.exists_side`: Where two hierarchies depart from each other, something stands.
* `departs_iff_of_left`, `departs_iff_of_right`, `departs_iff_of_blobs`: What there is to tell where one side has
  nothing, and where both have a file.
* `identical_or_unknown`: Two folders that do not differ have one tree id, or one of them has none.
* `Aligned.right_of_blob`, `Aligned.left_of_blob`: Opposite a file there is a file or nothing.
* `Aligned.not_departs_of_not_differs`: Below two members that do not differ there is nothing to tell.
* `Aligned.tells_of_added`, `Aligned.tells_of_removed`, `Aligned.tells_of_blobs`: What a member on one side tells,
  and what two files tell.
* `Aligned.exists_child`: A difference has a child wherever something is told further down.
* `Aligned.tells_of_isDifference`: A difference tells where the two sides depart from each other.
* `expand_tells`, `Aligned.compare_tells`: There are such a tree and such a difference.
-/

namespace ThreeWay

open ThreeWay.Path Scanner Run

/-- How two hierarchies differ at a place: a file stands on one side only, or two files are not equal. -/
inductive Departs (c : Comparator) (left right : List Bytes → Option Variant) (names : List Bytes) :
    ChangeKind → Prop
  | added (b : Blob) (here : left names = some (.blob b)) (missing : right names = none) :
      Departs c left right names .addition
  | removed (b : Blob) (missing : left names = none) (there : right names = some (.blob b)) :
      Departs c left right names .deletion
  | changed (a b : Blob) (here : left names = some (.blob a)) (there : right names = some (.blob b))
      (unequal : c.equal (some (.blob a)) (some (.blob b)) = .ok false) :
      Departs c left right names .modification

/-- A file that stands at a place, told as something of one kind. -/
def FileOf (find : List Bytes → Option Variant) (kind : ChangeKind) (names : List Bytes)
    (k : ChangeKind) : Prop :=
  (∃ b, find names = some (.blob b)) ∧ k = kind

section

variable {above : List Bytes} {v : Variant} {node : DiffNode}

theorem ascending_of_whole {s : Store} {kind : DiffKind} {found : List Variant}
    {children : List DiffNode} (h : List.Forall₂ (Whole s kind) found children)
    (ordered : Ascending Variant.name found) : Ascending DiffNode.name children := by
  induction h with
  | nil => exact Ascending.nil
  | cons hw hrest ih =>
      -- Each child has the name of its member, and the members are in order.
      refine (ih ordered.tail).cons fun m hm => ?_
      rcases hrest.exists_mem_of_mem_right hm with ⟨u, hu, hwhole⟩
      rw [Differ.whole_name hw, Differ.whole_name hwhole]
      exact ordered.head_lt u hu

theorem tells_of_whole_blob {s : Store} {depth : Nat} {find : List Bytes → Option Variant}
    (h : Hierarchy s depth find) (kind : DiffKind) {b : Blob} (hv : find above = some (.blob b)) :
    (Differ.oneSided (.blob b) kind []).Tells above (FileOf find kind.changeKind) := by
  have hplace : (Variant.blob b).path = pathOf above := h.place hv
  refine DiffNode.tells_file kind.changeKind ?_ (by cases kind <;> rfl) fun more k => ?_
  · rw [← hplace]
    cases kind <;> rfl
  -- A file is told at its own place, and nothing stands below it.
  · cases more with
    | nil =>
        rw [List.append_nil]
        exact ⟨fun ⟨_, hk⟩ => ⟨rfl, hk⟩, fun ⟨_, hk⟩ => ⟨⟨b, hv⟩, hk⟩⟩
    | cons name more =>
        rw [FileOf, h.find_append_of_blob hv]
        simp

/-- A tree of one side tells all files of that side. -/
theorem tells_of_whole {s : Store} {depth : Nat} {find : List Bytes → Option Variant}
    (h : Hierarchy s depth find) {kind : DiffKind} (hv : find above = some v)
    (whole : Whole s kind v node) : node.Tells above (FileOf find kind.changeKind) := by
  have deep : ∃ n, WellListed s n v := ⟨depth + 1, h.wellListed hv (by omega)⟩
  rcases deep with ⟨n, deep⟩
  -- The induction is on the listings, which a whole tree follows down to its last level.
  induction deep generalizing above node with
  | blob n b =>
      cases whole with
      | blob b => exact tells_of_whole_blob h kind hv
  | tree n f members found listed ordered valid below ih =>
      cases whole with
      | tree _ _ found' children listed' whole =>
          cases Except.ok.inj (listed.symm.trans listed')
          have hchildren : (Differ.oneSided (.tree f members) kind children).children = children := by
            cases kind <;> rfl
          -- The folder tells nothing by itself. Its children are whole trees of its members, and every file below is
          -- below one of those.
          refine DiffNode.tells_folder (by cases kind <;> rfl) ?_ ?_ ?_ ?_ ?_
          · rw [hchildren]
            exact ascending_of_whole whole ((ascending_encode_iff _ _).mp ordered)
          · rintro names k ⟨⟨b, hb⟩, _⟩
            exact h.named hb
          · rintro k ⟨⟨b, hb⟩, _⟩
            cases hv.symm.trans hb
          · intro m hm
            rw [hchildren] at hm
            rcases whole.exists_mem_of_mem_right hm with ⟨u, hu, hwhole⟩
            rw [Differ.whole_name hwhole]
            exact ih u hu ((h.mem_iff hv listed).mp hu) hwhole
          · rintro name more k ⟨⟨b, hb⟩, _⟩
            rw [List.append_cons] at hb
            rcases h.exists_front hb with ⟨u, hu⟩
            rcases whole.exists_mem_of_mem_left (h.mem_of_find hv listed hu) with ⟨m, hm, hwhole⟩
            refine ⟨m, hchildren.symm ▸ hm, ?_⟩
            rw [Differ.whole_name hwhole, h.name_eq hu]

end

/-- Two hierarchies that can be compared place by place: what stands at one place on both sides has one kind,
    and below two folders with one tree id nothing departs. -/
structure Aligned (c : Comparator) (m n : Nat) (left right : List Bytes → Option Variant) : Prop where
  onLeft : Hierarchy c.store m left
  onRight : Hierarchy c.store n right
  kinds : ∀ names v w, left names = some v → right names = some w → v.isTree = w.isTree
  identical : ∀ above f fs g gs x, left above = some (.tree f fs) → right above = some (.tree g gs) →
    f.treeId = some x → g.treeId = some x → ∀ more k, ¬ Departs c left right (above ++ more) k

section

variable {c : Comparator} {left right : List Bytes → Option Variant} {names : List Bytes}
  {k : ChangeKind}

/-- Where nothing stands on the right, the files on the left were added. -/
theorem departs_iff_of_left (hn : right names = none) :
    Departs c left right names k ↔ FileOf left .addition names k := by
  constructor
  · intro hd
    -- A removal and a change need something on the right.
    cases hd with
    | added b here => exact ⟨⟨b, here⟩, rfl⟩
    | removed b _ there => cases hn.symm.trans there
    | changed a b _ there => cases hn.symm.trans there
  · rintro ⟨⟨b, hb⟩, rfl⟩
    exact Departs.added b hb hn

/-- Where nothing stands on the left, the files on the right were removed. -/
theorem departs_iff_of_right (hn : left names = none) :
    Departs c left right names k ↔ FileOf right .deletion names k := by
  constructor
  · intro hd
    cases hd with
    | added b here => cases hn.symm.trans here
    | removed b _ there => exact ⟨⟨b, there⟩, rfl⟩
    | changed a b here => cases hn.symm.trans here
  · rintro ⟨⟨b, hb⟩, rfl⟩
    exact Departs.removed b hn hb

/-- Where two hierarchies depart from each other, something stands on one side. -/
theorem Departs.exists_side (hd : Departs c left right names k) :
    (∃ v, left names = some v) ∨ ∃ v, right names = some v := by
  cases hd with
  | added b here => exact Or.inl ⟨_, here⟩
  | removed b _ there => exact Or.inr ⟨_, there⟩
  | changed a b here => exact Or.inl ⟨_, here⟩

/-- Two files depart from each other by a change only, and only if they are not equal. -/
theorem departs_iff_of_blobs {a b : Blob} (ha : left names = some (.blob a))
    (hb : right names = some (.blob b)) : Departs c left right names k ↔
      c.equal (some (.blob a)) (some (.blob b)) = .ok false ∧ k = .modification := by
  constructor
  · intro hd
    cases hd with
    | added _ _ missing => cases hb.symm.trans missing
    | removed _ missing => cases ha.symm.trans missing
    | changed a' b' here there unequal =>
        cases ha.symm.trans here
        cases hb.symm.trans there
        exact ⟨unequal, rfl⟩
  · rintro ⟨unequal, rfl⟩
    exact Departs.changed a b ha hb unequal

/-- Two folders that do not differ have one tree id, or one of them has none. -/
theorem identical_or_unknown {f g : Folder} {fs gs : Option (List Variant)}
    (alike : ¬ Differs c (.tree f fs) (.tree g gs)) :
    (∃ x, f.treeId = some x ∧ g.treeId = some x) ∨ f.treeId = none ∨ g.treeId = none := by
  cases hx : f.treeId with
  | none => exact Or.inr (Or.inl rfl)
  | some x =>
      cases hy : g.treeId with
      | none => exact Or.inr (Or.inr rfl)
      | some y =>
          by_cases hxy : x = y
          · exact Or.inl ⟨x, rfl, congrArg some hxy.symm⟩
          · exact absurd (.ids f g fs gs x y hx hy hxy) alike

/-- A folder departs from nothing by itself. -/
theorem not_departs_of_folder {f : Folder} {fs : Option (List Variant)}
    (hf : left names = some (.tree f fs)) : ¬ Departs c left right names k := by
  intro hd
  cases hd with
  | added b here => cases hf.symm.trans here
  | removed b missing => cases hf.symm.trans missing
  | changed a b here => cases hf.symm.trans here

end

namespace Aligned

variable {c : Comparator} {m n : Nat} {left right : List Bytes → Option Variant}
  (h : Aligned c m n left right) {above : List Bytes} {v w l r : Variant} {node : DiffNode}

include h

/-- Where one side has a file, the other has a file or nothing. -/
theorem right_of_blob {b : Blob} (hb : left above = some (.blob b)) :
    right above = none ∨ ∃ b', right above = some (.blob b') := by
  cases hw : right above with
  | none => exact Or.inl rfl
  | some w =>
      have same := h.kinds above _ w hb hw
      cases w with
      | blob b' => exact Or.inr ⟨b', rfl⟩
      | tree g gs => exact absurd same Bool.noConfusion

theorem left_of_blob {b : Blob} (hb : right above = some (.blob b)) :
    left above = none ∨ ∃ b', left above = some (.blob b') := by
  cases hv : left above with
  | none => exact Or.inl rfl
  | some v =>
      have same := h.kinds above v _ hv hb
      cases v with
      | blob b' => exact Or.inr ⟨b', rfl⟩
      | tree f fs => exact absurd same Bool.noConfusion

theorem isName_of_departs {names : List Bytes} {k : ChangeKind} (hd : Departs c left right names k) :
    ∀ name ∈ names, IsName name := by
  rcases hd.exists_side with ⟨v, hv⟩ | ⟨v, hv⟩
  · exact h.onLeft.named hv
  · exact h.onRight.named hv

/-- Where nothing stands on either side there is nothing to tell. -/
theorem not_departs_of_none (hv : left above = none) (hw : right above = none) (more : List Bytes)
    (k : ChangeKind) : ¬ Departs c left right (above ++ more) k := by
  intro hd
  rcases hd.exists_side with ⟨v, hs⟩ | ⟨v, hs⟩
  · cases (h.onLeft.find_append_of_none hv more).symm.trans hs
  · cases (h.onRight.find_append_of_none hw more).symm.trans hs

/-- Below two files there is nothing to tell. -/
theorem not_departs_of_blobs {a b : Blob} (ha : left above = some (.blob a))
    (hb : right above = some (.blob b)) (name : Bytes) (more : List Bytes) (k : ChangeKind) :
    ¬ Departs c left right (above ++ name :: more) k := by
  intro hd
  rcases hd.exists_side with ⟨v, hs⟩ | ⟨v, hs⟩
  · cases (h.onLeft.find_append_of_blob ha name more).symm.trans hs
  · cases (h.onRight.find_append_of_blob hb name more).symm.trans hs

theorem tells_of_added (hl : left above = some l) (hr : right above = none)
    (whole : Whole c.store .addition l node) : node.Tells above (Departs c left right) :=
  (tells_of_whole h.onLeft hl whole).congr fun more _ =>
    (departs_iff_of_left (h.onRight.find_append_of_none hr more)).symm

theorem tells_of_removed (hl : left above = none) (hr : right above = some r)
    (whole : Whole c.store .deletion r node) : node.Tells above (Departs c left right) :=
  (tells_of_whole h.onRight hr whole).congr fun more _ =>
    (departs_iff_of_right (h.onLeft.find_append_of_none hl more)).symm

/-- At and below two members that do not differ there is nothing to tell. -/
theorem not_departs_of_not_differs {more : List Bytes} (hv : left above = some v)
    (hw : right above = some w) (alike : ¬ Differs c v w) (k : ChangeKind) :
    ¬ Departs c left right (above ++ more) k := by
  -- Along the chain of names: both sides have a folder at each of them, or the two members would differ.
  induction more generalizing above v w with
  | nil =>
      rw [List.append_nil]
      intro hd
      cases hd with
      | added b _ missing => cases hw.symm.trans missing
      | removed b missing => cases hv.symm.trans missing
      | changed a b here there unequal =>
          cases hv.symm.trans here
          cases hw.symm.trans there
          exact alike (.contents a b unequal)
  | cons name more ih =>
      rcases Differ.flat_or_folders v w with flat | ⟨f, fs, g, gs, rfl, rfl⟩
      · have same := h.kinds above v w hv hw
        cases v with
        | tree f fs => exact absurd ⟨rfl, same.symm⟩ flat
        | blob a =>
            cases w with
            | tree g gs => exact absurd same Bool.noConfusion
            | blob b => exact h.not_departs_of_blobs hv hw name more k
      -- One tree id for both folders is where the hierarchies are trusted. Otherwise both are listed, and the next
      -- name is looked at on both sides.
      · rcases identical_or_unknown alike with ⟨x, hx, hy⟩ | unknown
        · exact h.identical above f fs g gs x hv hw hx hy (name :: more) k
        rcases h.onLeft.listing hv with ⟨ls, listedL, _⟩
        rcases h.onRight.listing hw with ⟨rs, listedR, _⟩
        rw [List.append_cons]
        cases hl : left (above ++ [name]) with
        | none =>
            cases hr : right (above ++ [name]) with
            | none => exact h.not_departs_of_none hl hr more k
            | some r =>
                rw [← h.onRight.name_eq hr] at hl
                exact absurd (.onlyRight f g fs gs ls rs unknown listedL listedR r
                  (h.onRight.mem_of_find hw listedR hr) (h.onLeft.name_ne_of_none hv listedL hl)) alike
        | some l =>
            have hml := h.onLeft.mem_of_find hv listedL hl
            cases hr : right (above ++ [name]) with
            | none =>
                rw [← h.onLeft.name_eq hl] at hr
                exact absurd (.onlyLeft f g fs gs ls rs unknown listedL listedR l hml
                  (h.onRight.name_ne_of_none hw listedR hr)) alike
            | some r =>
                have hmr := h.onRight.mem_of_find hw listedR hr
                have same : l.name = r.name :=
                  Utf8.encode_injective ((h.onLeft.name_eq hl).trans (h.onRight.name_eq hr).symm)
                refine ih hl hr fun differ => alike ?_
                exact .pair f g fs gs ls rs unknown listedL listedR l r hml hmr same differ

/-- Two files of different content are the whole of their difference. -/
theorem tells_of_blobs {a b : Blob} (ha : left above = some (.blob a))
    (hb : right above = some (.blob b)) (differ : Differs c (.blob a) (.blob b)) :
    (DiffNode.make (some (.blob a)) (some (.blob b)) .change []).Tells above
      (Departs c left right) := by
  have unequal : c.equal (some (.blob a)) (some (.blob b)) = .ok false := by
    cases differ with
    | kinds _ _ hne => exact absurd rfl hne
    | contents _ _ unequal => exact unequal
  have hplace : (Variant.blob a).path = pathOf above := h.onLeft.place ha
  refine DiffNode.tells_file .modification ?_ rfl fun more k => ?_
  · rw [← hplace]
    rfl
  · cases more with
    | nil =>
        rw [List.append_nil, departs_iff_of_blobs ha hb]
        simp [unequal]
    | cons name more => simp [h.not_departs_of_blobs ha hb name more k]

/-- Wherever there is something to tell below two folders, their difference has a child for the first
    name on the way there. -/
theorem exists_child {f g : Folder} {fs gs : Option (List Variant)} {name : Bytes}
    {more : List Bytes} {k : ChangeKind} (hv : left above = some (.tree f fs))
    (hw : right above = some (.tree g gs)) (hdiff : IsDifference c (.tree f fs) (.tree g gs) node)
    (hd : Departs c left right (above ++ name :: more) k) :
    ∃ m ∈ node.children, Utf8.encode m.name = name := by
  rw [List.append_cons] at hd
  cases hdiff with
  | leaf _ _ flat => exact absurd ⟨rfl, rfl⟩ flat
  | folders _ _ _ _ ls rs children below listedL listedR _ additions deletions changes nested =>
      -- On each side the next name leads somewhere or nowhere, and where it leads nowhere on both, nothing is told
      -- below.
      cases hl : left (above ++ [name]) with
      | none =>
          cases hr : right (above ++ [name]) with
          | none => exact absurd hd (h.not_departs_of_none hl hr more k)
          | some r =>
              have hmr := h.onRight.mem_of_find hw listedR hr
              rw [← h.onRight.name_eq hr] at hl ⊢
              rcases deletions r hmr (h.onLeft.name_ne_of_none hv listedL hl) with ⟨m, hm, whole⟩
              exact ⟨m, hm, congrArg Utf8.encode (Differ.whole_name whole)⟩
      | some l =>
          have hml := h.onLeft.mem_of_find hv listedL hl
          cases hr : right (above ++ [name]) with
          | none =>
              rw [← h.onLeft.name_eq hl] at hr ⊢
              rcases additions l hml (h.onRight.name_ne_of_none hw listedR hr) with ⟨m, hm, whole⟩
              exact ⟨m, hm, congrArg Utf8.encode (Differ.whole_name whole)⟩
          | some r =>
              have hmr := h.onRight.mem_of_find hw listedR hr
              have same : l.name = r.name :=
                Utf8.encode_injective ((h.onLeft.name_eq hl).trans (h.onRight.name_eq hr).symm)
              -- A pair that does not differ has no node, and then there is nothing to tell.
              by_cases differ : Differs c l r
              · refine ⟨_, changes l hml r hmr same differ, ?_⟩
                rw [Differ.isDifference_name (nested l hml r hmr same differ), h.onLeft.name_eq hl]
              · exact absurd hd (h.not_departs_of_not_differs hl hr differ k)

/-- A difference tells where the two sides depart from each other. -/
theorem tells_of_isDifference (hdiff : IsDifference c v w node) (hv : left above = some v)
    (hw : right above = some w) (apart : v.isTree = true ∨ Differs c v w) :
    node.Tells above (Departs c left right) := by
  -- With the law of a difference: a member alone, or a pair that differs, is told by its own child.
  induction hdiff generalizing above with
  | leaf l r flat =>
      have same := h.kinds above l r hv hw
      cases l with
      | tree f fs => exact absurd ⟨rfl, same.symm⟩ flat
      | blob a =>
          cases r with
          | tree g gs => exact absurd same Bool.noConfusion
          | blob b => exact h.tells_of_blobs hv hw (apart.resolve_left Bool.noConfusion)
  | folders f g fs gs ls rs children below listedL listedR ordered additions deletions changes nested
      nothingElse ih =>
      have hdiff := IsDifference.folders f g fs gs ls rs children below listedL listedR ordered
        additions deletions changes nested nothingElse
      refine DiffNode.tells_folder rfl ((ascending_encode_iff _ _).mp ordered)
        (fun names k hd => h.isName_of_departs hd) (fun k => not_departs_of_folder hv) ?_
        (fun name more k hd => h.exists_child hv hw hdiff hd)
      intro m hm
      rcases nothingElse m hm with ⟨l, hml, alone, whole⟩ | ⟨r, hmr, alone, whole⟩ |
        ⟨l, hml, r, hmr, same, differ, rfl⟩
      · rw [Differ.whole_name whole]
        exact h.tells_of_added ((h.onLeft.mem_iff hv listedL).mp hml)
          (h.onRight.none_of_name_ne hw listedR alone) whole
      · rw [Differ.whole_name whole]
        exact h.tells_of_removed (h.onLeft.none_of_name_ne hv listedL alone)
          ((h.onRight.mem_iff hw listedR).mp hmr) whole
      · have hr := (h.onRight.mem_iff hw listedR).mp hmr
        rw [← same] at hr
        rw [Differ.isDifference_name (nested l hml r hmr same differ)]
        exact ih l hml r hmr same differ ((h.onLeft.mem_iff hv listedL).mp hml) hr (Or.inr differ)

end Aligned

section

variable {d : Differ} (quiet : Signal.IsQuiet d.signal) {m n levels : Nat}
  {left right : List Bytes → Option Variant} {v w : Variant}

include quiet

/-- Two aligned hierarchies whose files can be compared have a difference, and it tells where they depart
    from each other. -/
theorem Aligned.compare_tells (h : Aligned d.comparator m n left right)
    (comparable : ∀ names a b, left names = some (.blob a) → right names = some (.blob b) →
      ∃ same, d.comparator.equal (some (.blob a)) (some (.blob b)) = .ok same)
    (hv : left [] = some v) (hw : right [] = some w) (folder : v.isTree = true) (deepL : m < levels)
    (deepR : n < levels) : ∃ node, Gives (d.compare levels v w) (.ok node) ∧
      node.Tells [] (Departs d.comparator left right) := by
  have listedL : WellListed d.comparator.store levels v := h.onLeft.wellListed hv (by simpa using deepL)
  have listedR : WellListed d.comparator.store levels w := h.onRight.wellListed hw (by simpa using deepR)
  have readable := Hierarchy.readableBelow h.onLeft h.onRight comparable hv hw
  rcases Differ.compare_gives quiet le_rfl listedL listedR readable with ⟨node, hnode⟩
  have hdiff := Differ.compare_isDifference listedL listedR hnode.returns
  exact ⟨node, hnode, h.tells_of_isDifference hdiff hv hw (Or.inl folder)⟩

/-- A hierarchy can be expanded, and the tree tells that all its files were added. -/
theorem expand_tells (h : Hierarchy d.comparator.store m left) (hv : left [] = some v)
    (deep : m < levels) : ∃ node, Gives (d.expand levels .addition v) (.ok node) ∧
      node.Tells [] (Departs d.comparator left fun _ => none) := by
  have listed : WellListed d.comparator.store levels v := h.wellListed hv (by simpa using deep)
  rcases Differ.expand_gives quiet .addition listed le_rfl with ⟨node, hnode⟩
  refine ⟨node, hnode, ?_⟩
  exact (tells_of_whole h hv (Differ.expand_whole hnode.returns)).congr fun more k =>
    (departs_iff_of_left rfl).symm

end

end ThreeWay
