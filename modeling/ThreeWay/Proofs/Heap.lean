import Mathlib.Data.List.Basic
import ThreeWay.Heap

/-!
# What a Heap Holds

The moves of a heap only swap elements. So a heap holds what was put into it, and nothing else leaves it,
whatever the order is that the elements are compared by.

The order in which elements leave a heap is nowhere used: a history walk that takes its commits from a heap may
take any of them, as long as it is one that was put in. That is why nothing is said here about which element is in
front.

## Theorems

* `rise_perm`, `sink_perm`: A move swaps elements.
* `insert_perm`, `foldl_insert_perm`: A heap holds what it held and what is put in.
* `toList_perm_of_moved`: The last element of an array may take the first place.
* `pop_perm`: What is taken out was in the heap, and what is left is the rest.
* `mem_foldl_insert`, `mem_of_pop`: The same for single members.
* `pop_eq_none`: Nothing is taken out of an empty heap only.
* `mem_of_mem_drain`: What leaves a heap was in it.
-/

namespace ThreeWay

namespace Heap

variable {α : Type} {before : α → α → Bool} {h rest : Heap α} {x y : α}

theorem rise_perm (before : α → α → Bool) (a : Array α) (i : Nat) (hi : i < a.size) :
    (rise before a i hi).Perm a := by
  -- The move has two ends, at the top and above a parent that is in front, and both leave the array as it is. Between
  -- them it goes on after a swap.
  induction a, i, hi using rise.induct before with
  | case1 a hi =>
      rw [rise, dif_pos rfl]
  | case2 a i hi hz hp first ih =>
      rw [rise, dif_neg hz, if_pos first]
      exact ih.trans (Array.swap_perm hi hp)
  | case3 a i hi hz hp first =>
      rw [rise, dif_neg hz, if_neg first]

theorem sink_perm (before : α → α → Bool) (a : Array α) (i : Nat) : (sink before a i).Perm a := by
  -- The same downwards, with the child that is in front.
  induction a, i using sink.induct before with
  | case1 a i down hc first ih =>
      rw [sink, dif_pos hc, if_pos first]
      exact ih.trans (Array.swap_perm _ _)
  | case2 a i down hc first =>
      rw [sink, dif_pos hc, if_neg first]
  | case3 a i down hc =>
      rw [sink, dif_neg hc]

/-- A heap holds what it held and what is put in. -/
theorem insert_perm (before : α → α → Bool) (h : Heap α) (x : α) :
    (h.insert before x).elements.toList.Perm (x :: h.elements.toList) := by
  rw [insert]
  -- The new element is put last and rises from there.
  have hr := Array.perm_iff_toList_perm.mp
    (rise_perm before (h.elements.push x) h.elements.size (by simp))
  rw [Array.toList_push] at hr
  exact hr.trans (List.perm_append_singleton x _)

theorem foldl_insert_perm (before : α → α → Bool) (h : Heap α) (xs : List α) :
    (xs.foldl (fun heap x => heap.insert before x) h).elements.toList.Perm
      (xs ++ h.elements.toList) := by
  -- Every element that is put in is a member for the ones that follow.
  induction xs generalizing h with
  | nil => exact List.Perm.refl _
  | cons x xs ih =>
      rw [List.foldl_cons]
      refine (ih (h.insert before x)).trans ?_
      exact ((insert_perm before h x).append_left xs).trans List.perm_middle

theorem mem_foldl_insert {xs : List α} :
    y ∈ (xs.foldl (fun heap x => heap.insert before x) h).elements ↔ y ∈ h.elements ∨ y ∈ xs := by
  rw [← Array.mem_toList_iff, (foldl_insert_perm before h xs).mem_iff, List.mem_append, or_comm]
  exact or_congr_left Array.mem_toList_iff

/-- The last element of an array takes the first place. -/
theorem toList_perm_of_moved {a : Array α} (hs : 0 < a.size) :
    a.toList.Perm (a[0] :: ((a.set 0 a[a.size - 1]).pop).toList) := by
  rcases a with ⟨xs⟩
  cases xs with
  | nil => exact absurd hs (by simp)
  | cons first xs =>
      -- A single element is its own replacement. Otherwise the last one stands in for the first.
      rcases List.eq_nil_or_concat xs with rfl | ⟨front, last, rfl⟩
      · simp
      · have hl : (last :: (front ++ [last])).dropLast = last :: front := by
          rw [← List.cons_append, List.dropLast_concat]
        simp only [List.concat_eq_append, List.size_toArray, List.getElem_toArray, List.set_toArray,
          List.pop_toArray, List.getElem_cons_zero, List.set_cons_zero, List.length_cons,
          List.length_append, List.length_nil, Nat.add_sub_cancel, List.getElem_cons_succ,
          List.getElem_concat_length, hl]
        exact (List.perm_append_singleton last front).cons first

/-- What is taken out was in the heap, and what is left is the rest. -/
theorem pop_perm (hp : h.pop before = some (x, rest)) :
    h.elements.toList.Perm (x :: rest.elements.toList) := by
  rw [pop] at hp
  split_ifs at hp with hs
  cases hp
  -- What takes the first place sinks from there.
  have hk := Array.perm_iff_toList_perm.mp
    (sink_perm before (h.elements.set 0 h.elements[h.elements.size - 1]).pop 0)
  exact (toList_perm_of_moved hs).trans (hk.symm.cons _)

/-- Nothing is taken out of an empty heap only. -/
theorem pop_eq_none : h.pop before = none ↔ h.elements.toList = [] := by
  rw [pop]
  split_ifs with hs
  · refine iff_of_false (by simp) fun he => ?_
    rw [← Array.length_toList, he] at hs
    exact absurd hs (Nat.lt_irrefl 0)
  · refine iff_of_true rfl (List.eq_nil_of_length_eq_zero ?_)
    rw [Array.length_toList]
    omega

theorem mem_of_pop (hp : h.pop before = some (x, rest)) :
    x ∈ h.elements ∧ ∀ z ∈ rest.elements, z ∈ h.elements := by
  have held : ∀ z ∈ x :: rest.elements.toList, z ∈ h.elements := fun z hz =>
    Array.mem_toList_iff.mp ((pop_perm hp).mem_iff.mpr hz)
  exact ⟨held x List.mem_cons_self,
    fun z hz => held z (List.mem_cons_of_mem _ (Array.mem_toList_iff.mpr hz))⟩

/-- What leaves a heap was in it. -/
theorem mem_of_mem_drain (hy : y ∈ h.drain before) : y ∈ h.elements := by
  rw [drain] at hy
  generalize h.size = n at hy
  -- A heap is drained as often as it has elements, and each time what is taken out was in it.
  induction n generalizing h with
  | zero => cases hy
  | succ n ih =>
      rw [drainUpTo] at hy
      cases hp : h.pop before with
      | none =>
          rw [hp] at hy
          cases hy
      | some next =>
          rcases next with ⟨x, rest⟩
          rw [hp] at hy
          rcases List.mem_cons.mp hy with rfl | hy
          · exact (mem_of_pop hp).1
          · exact (mem_of_pop hp).2 y (ih hy)

end Heap

end ThreeWay
