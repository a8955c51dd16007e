import ThreeWay.Proofs.Compare
import ThreeWay.Proofs.Diff.Law
import ThreeWay.Proofs.Run

/-!
# Telling Two Members Apart

The law says which members of one name are a difference, and the builder finds out in two ways. Members that
their place does not make equal are compared, and what is unequal differs. Two folders of which one has no
tree id are descended into first, and they differ if anything was found below them.

Two folders with tree ids are compared by these and nothing below them is looked at. If one of them has none,
their ids could not tell anything, so the builder takes their place for a reason to look below. The law has both
cases in `Differs`, and the two lemmas here match them with the two branches of the code.

## Theorems

* `returns_equal`, `gives_equal`: Comparing two members is comparing their contents.
* `equalByPlace_folders`, `treeIds_of_not_equalByPlace`: When the place decides, and when the tree ids do.
* `differs_iff_unequal`: What differs among members that are compared.
* `differs_iff_children_nonempty`: What differs among folders that are descended into.
* `exists_equal_of_readable`, `readableBelow_of_readable`: What can be read is told apart.
-/

namespace ThreeWay.Differ

open Run

/-- Comparing two members is comparing their contents. -/
theorem returns_equal {d : Differ} {a b : Variant} {same : Bool} (h : Returns (d.equal a b) same) :
    d.comparator.equal (some a) (some b) = .ok same := by
  unfold equal at h
  unfold Comparator.equal
  -- The run asks for the contents one by one, and what it does with them is what the comparison does.
  cases hv : Verdict.of d.comparator.byteCompare (some a) (some b) with
  | known answer =>
      rw [hv] at h
      rw [h.pure]
      rfl
  | byBytes x y =>
      rw [hv] at h
      rcases h.bind with ⟨xs, hx, h⟩
      rcases h.bind with ⟨ys, hy, h⟩
      rw [h.pure, Verdict.settle, hx.serve, hy.serve]
      rfl

theorem gives_equal {d : Differ} {a b : Variant} {same : Bool}
    (h : d.comparator.equal (some a) (some b) = .ok same) : Gives (d.equal a b) (.ok same) := by
  unfold equal
  unfold Comparator.equal at h
  cases hv : Verdict.of d.comparator.byteCompare (some a) (some b) with
  | known answer =>
      rw [hv] at h
      rw [← h]
      exact Gives.pure answer
  | byBytes x y =>
      rw [hv, Verdict.settle] at h
      cases hx : d.comparator.store.content x with
      | error e =>
          rw [hx] at h
          cases h
      | ok xs =>
          cases hy : d.comparator.store.content y with
          | error e =>
              rw [hx, hy] at h
              cases h
          | ok ys =>
              rw [hx, hy] at h
              have gx : Gives (d.content x) (.ok xs) := hx ▸ Gives.serve _ _
              have gy : Gives (d.content y) (.ok ys) := hy ▸ Gives.serve _ _
              rw [← h]
              exact gx.bind (gy.bind (Gives.pure _))

/-- Two folders that only their place makes equal: one of them has no tree id. -/
theorem equalByPlace_folders {f g : Folder} {fs gs : Option (List Variant)} :
    equalByPlace (.tree f fs) (.tree g gs) = true ↔ f.treeId = none ∨ g.treeId = none := by
  unfold equalByPlace
  rw [Bool.or_eq_true, Option.isNone_iff_eq_none, Option.isNone_iff_eq_none]

/-- Where the place does not decide between two folders, their tree ids do. -/
theorem treeIds_of_not_equalByPlace {f g : Folder} {fs gs : Option (List Variant)}
    (hp : equalByPlace (.tree f fs) (.tree g gs) = false) :
    ∃ x y, f.treeId = some x ∧ g.treeId = some y := by
  have hne : ¬ (f.treeId = none ∨ g.treeId = none) := by
    rw [← @equalByPlace_folders f g fs gs, hp]
    exact Bool.false_ne_true
  rcases Option.ne_none_iff_exists'.mp (not_or.mp hne).1 with ⟨x, hx⟩
  rcases Option.ne_none_iff_exists'.mp (not_or.mp hne).2 with ⟨y, hy⟩
  exact ⟨x, y, hx, hy⟩

/-- Where the place does not decide, two existing members of one name differ exactly when they are found
    unequal. -/
theorem differs_iff_unequal {c : Comparator} {l r : Variant} (hl : l.present = true)
    (hr : r.present = true) (hp : equalByPlace l r = false) {same : Bool}
    (h : c.equal (some l) (some r) = .ok same) : Differs c l r ↔ same = false := by
  -- Members of two kinds are unequal at once. Of one kind, files are told apart by the comparison and folders by
  -- their ids.
  by_cases apart : l.isTree = r.isTree
  · cases l with
    | blob a =>
        cases r with
        | tree g gs => exact absurd apart Bool.false_ne_true
        | blob b =>
            constructor
            · intro hd
              cases hd with
              | kinds _ _ hne => exact absurd rfl hne
              | contents _ _ unequal => exact Except.ok.inj (h.symm.trans unequal)
            · intro hs
              exact Differs.contents a b (hs ▸ h)
    | tree f fs =>
        cases r with
        | blob b => exact absurd apart.symm Bool.false_ne_true
        | tree g gs =>
            rcases treeIds_of_not_equalByPlace hp with ⟨x, y, hx, hy⟩
            have hs := Except.ok.inj ((Comparator.equal_folders hl hr).symm.trans h)
            rw [Verdict.ofFolders, hx, hy] at hs
            rw [← hs, decide_eq_false_iff_not]
            constructor
            · intro hd
              cases hd with
              | kinds _ _ hne => exact absurd rfl hne
              | ids _ _ _ _ x' y' hx' hy' unequal =>
                  cases hx.symm.trans hx'
                  cases hy.symm.trans hy'
                  exact unequal
              | onlyLeft _ _ _ _ _ _ unknown => simp [hx, hy] at unknown
              | onlyRight _ _ _ _ _ _ unknown => simp [hx, hy] at unknown
              | pair _ _ _ _ _ _ unknown => simp [hx, hy] at unknown
            · intro hxy
              exact Differs.ids f g fs gs x y hx hy hxy
  · rw [Comparator.equal_of_kinds hl hr apart] at h
    exact ⟨fun _ => (Except.ok.inj h).symm, fun _ => Differs.kinds l r apart⟩

/-- Below two folders of which one has no tree id something differs exactly when their node has
    children. -/
theorem differs_iff_children_nonempty {c : Comparator} {l r : Variant} {node : DiffNode}
    (hp : equalByPlace l r = true) (h : IsDifference c l r node) :
    Differs c l r ↔ node.children ≠ [] := by
  cases h with
  | leaf _ _ flat =>
      cases l with
      | blob a => exact absurd hp Bool.false_ne_true
      | tree f fs =>
          cases r with
          | blob b => exact absurd hp Bool.false_ne_true
          | tree g gs => exact absurd ⟨rfl, rfl⟩ flat
  | folders f g fs gs ls rs children below left right ordered additions deletions changes nested
      nothingElse =>
      have unknown := equalByPlace_folders.mp hp
      change _ ↔ children ≠ []
      constructor
      · intro hd
        -- Each reason for the two folders to differ has a node, and two listings of one folder are the same.
        cases hd with
        | kinds _ _ apart => exact absurd rfl apart
        | ids _ _ _ _ x y hx hy unequal =>
            rcases unknown with hn | hn
            · exact absurd (hn.symm.trans hx) (by simp)
            · exact absurd (hn.symm.trans hy) (by simp)
        | onlyLeft _ _ _ _ ls' rs' _ left' right' l hl alone =>
            cases Except.ok.inj (left.symm.trans left')
            cases Except.ok.inj (right.symm.trans right')
            rcases additions l hl alone with ⟨n, hn, _⟩
            exact List.ne_nil_of_mem hn
        | onlyRight _ _ _ _ ls' rs' _ left' right' r hr alone =>
            cases Except.ok.inj (left.symm.trans left')
            cases Except.ok.inj (right.symm.trans right')
            rcases deletions r hr alone with ⟨n, hn, _⟩
            exact List.ne_nil_of_mem hn
        | pair _ _ _ _ ls' rs' _ left' right' l r hl hr same differ =>
            cases Except.ok.inj (left.symm.trans left')
            cases Except.ok.inj (right.symm.trans right')
            exact List.ne_nil_of_mem (changes l hl r hr same differ)
      · intro hne
        rcases List.exists_mem_of_ne_nil _ hne with ⟨n, hn⟩
        -- A node is there for a member alone or for a pair, and each is a reason to differ.
        rcases nothingElse n hn with ⟨l, hl, alone, _⟩ | ⟨r, hr, alone, _⟩ |
          ⟨l, hl, r, hr, same, differ, _⟩
        · exact Differs.onlyLeft f g fs gs ls rs unknown left right l hl alone
        · exact Differs.onlyRight f g fs gs ls rs unknown left right r hr alone
        · exact Differs.pair f g fs gs ls rs unknown left right l r hl hr same differ

/-- Where the place does not decide, readable members can be told apart. -/
theorem exists_equal_of_readable {c : Comparator} {l r : Variant} (hl : l.present = true)
    (hr : r.present = true) (h : Readable c l r) :
    ∃ same, c.equal (some l) (some r) = .ok same := by
  cases h with
  | kinds _ _ apart => exact ⟨false, Comparator.equal_of_kinds hl hr apart⟩
  | contents a b same read => exact ⟨same, read⟩
  | identical f g => exact ⟨Verdict.ofFolders f g, Comparator.equal_folders hl hr⟩
  | folders f g => exact ⟨Verdict.ofFolders f g, Comparator.equal_folders hl hr⟩

/-- Two readable folders that the builder descends into are readable below. -/
theorem readableBelow_of_readable {c : Comparator} {l r : Variant} (h : Readable c l r)
    (apart : ∀ x f fs g gs, l = .tree f fs → r = .tree g gs → f.treeId = some x →
      g.treeId ≠ some x) : ReadableBelow c l r := by
  -- Only one id for both folders makes them readable without a look at their listings, and that is ruled out here.
  cases h with
  | kinds _ _ hne =>
      cases l with
      | blob a => trivial
      | tree f fs =>
          cases r with
          | blob b => trivial
          | tree g gs => exact absurd rfl hne
  | contents => trivial
  | identical f g fs gs x hx hy => exact absurd hy (apart x f fs g gs rfl rfl hx)
  | folders f g fs gs ls rs left right below =>
      intro ls' rs' left' right'
      cases Except.ok.inj (left.symm.trans left')
      cases Except.ok.inj (right.symm.trans right')
      exact below

end ThreeWay.Differ
