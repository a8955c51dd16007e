import Mathlib.Data.String.Basic
import ThreeWay.Diff.Pairing
import ThreeWay.Proofs.Ascending

/-!
# What a Join of Two Ascending Listings Holds

The join of two listings is defined by which of two names comes first. Here it is described without
that order of steps: on ascending listings a member stands alone exactly when its name is missing from
the other listing, and two members are paired exactly when they have one name.

The recursion of `Pairing.join` compares the heads of both listings, and the whole argument is that a
head is smaller than everything behind it. So a name that is passed over on one side cannot turn up
further down on the other.

`join_swap` exchanges the two listings, which is how every statement about the right listing follows
from the one about the left.

What the join uses up, and that it pairs members of one name only, holds of any two listings. That a name is
paired if it can be needs both to ascend: where a listing has its names in disorder, a member may have been passed
over by the time the other side gets to its name.

## Main definitions

* `Pairing.key`: The name that a pairing stands for.
* `Pairing.Rel`: Two pairings with related sides.

## Theorems

* `join_swap`: Exchanging the listings exchanges the sides of every pairing.
* `filterMap_left?_join`, `filterMap_right?_join`: The join uses up both listings.
* `forall₂_join`: The join looks at names only.
* `mem_join_left`, `mem_join_right`, `mem_join_both`: What the join holds.
* `sides_of_mem_join`: The join pairs nothing but members of the two listings.
* `key_of_mem_join`: A pairing stands for the name of a member.
* `name_eq_of_mem_join`: It pairs members of one name only.
* `join_ascending`: The pairings come in strictly ascending order of their names.
-/

namespace ThreeWay

variable {α : Type}

namespace Pairing

/-- The name that a pairing stands for, taken from the left side first. -/
def key (name : α → String) : Pairing α → String
  | .left a => name a
  | .right b => name b
  | .both a _ => name a

theorem join_nil (name : α → String) (ls : List α) : join name ls [] = ls.map .left := by
  cases ls with
  | nil => simp only [join, List.map_nil]
  | cons l ls => simp only [join]

/-- Exchanging the listings exchanges the sides of every pairing. -/
theorem join_swap (name : α → String) (ls rs : List α) :
    join name rs ls = (join name ls rs).map swap := by
  induction ls, rs using Pairing.join.induct name with
  | case1 rs =>
      rw [join_nil, join, List.map_map]
      rfl
  | case2 ls _ =>
      rw [join_nil, join, List.map_map]
      rfl
  | case3 l ls r rs heq ih =>
      rw [join, join, if_pos heq, if_pos heq.symm, List.map_cons, ih]
      rfl
  | case4 l ls r rs hne hlt ih =>
      rw [join, join, if_neg hne, if_neg (Ne.symm hne), if_pos hlt, if_neg (lt_asymm hlt),
        List.map_cons, ih]
      rfl
  | case5 l ls r rs hne hlt ih =>
      -- Neither equal nor smaller, so the head on the right comes first, and from the other side it is the one on the
      -- left.
      have hgt : name r < name l := lt_of_le_of_ne (not_lt.mp hlt) (Ne.symm hne)
      rw [join, join, if_neg hne, if_neg (Ne.symm hne), if_neg hlt, if_pos hgt, List.map_cons, ih]
      rfl

/-- The left sides of the pairings are the left listing, in its order and each member once, whatever the order
    of the listings is. -/
theorem filterMap_left?_join (name : α → String) (ls rs : List α) :
    (join name ls rs).filterMap left? = ls := by
  induction ls, rs using Pairing.join.induct name with
  | case1 rs =>
      rw [join, List.filterMap_map]
      exact List.filterMap_eq_nil_iff.mpr fun _ _ => rfl
  | case2 ls _ =>
      rw [join_nil, List.filterMap_map]
      exact List.filterMap_some
  | case3 l ls r rs heq ih =>
      rw [join, if_pos heq, List.filterMap_cons, ih]
      rfl
  | case4 l ls r rs hne hlt ih =>
      rw [join, if_neg hne, if_pos hlt, List.filterMap_cons, ih]
      rfl
  | case5 l ls r rs hne hlt ih =>
      rw [join, if_neg hne, if_neg hlt, List.filterMap_cons, ih]
      rfl

theorem filterMap_right?_join (name : α → String) (ls rs : List α) :
    (join name ls rs).filterMap right? = rs := by
  have hswap : (left? ∘ swap : Pairing α → Option α) = right? := by
    funext p
    cases p <;> rfl
  -- The join of the exchanged listings has this listing on the left, where the members are counted already.
  rw [← hswap, ← List.filterMap_map, ← join_swap, filterMap_left?_join]

/-- Pairings of one kind whose sides are related. -/
inductive Rel {β : Type} (R : α → β → Prop) : Pairing α → Pairing β → Prop
  | left {a : α} {b : β} (h : R a b) : Rel R (.left a) (.left b)
  | right {a : α} {b : β} (h : R a b) : Rel R (.right a) (.right b)
  | both {a c : α} {b e : β} (hl : R a b) (hr : R c e) : Rel R (.both a c) (.both b e)

/-- The join looks at names only: where those are the same, the same places are joined. -/
theorem forall₂_join {β : Type} {R : α → β → Prop} {name : α → String} {name' : β → String}
    (named : ∀ a b, R a b → name a = name' b) {ls rs : List α} {ls' rs' : List β}
    (hl : List.Forall₂ R ls ls') (hr : List.Forall₂ R rs rs') :
    List.Forall₂ (Rel R) (join name ls rs) (join name' ls' rs') := by
  induction ls, rs using Pairing.join.induct name generalizing ls' rs' with
  | case1 rs =>
      cases hl
      rw [join, join]
      exact List.forall₂_map_left_iff.mpr (List.forall₂_map_right_iff.mpr (hr.imp fun _ _ => Rel.right))
  | case2 ls _ =>
      cases hr
      rw [join_nil, join_nil]
      exact List.forall₂_map_left_iff.mpr (List.forall₂_map_right_iff.mpr (hl.imp fun _ _ => Rel.left))
  | case3 l ls r rs heq ih =>
      rcases hl with _ | ⟨hl, hls⟩
      rcases hr with _ | ⟨hr, hrs⟩
      rw [join, join, if_pos heq, if_pos (named _ _ hl ▸ named _ _ hr ▸ heq)]
      exact List.Forall₂.cons (Rel.both hl hr) (ih hls hrs)
  | case4 l ls r rs hne hlt ih =>
      rcases hl with _ | ⟨hl, hls⟩
      -- A copy is taken apart, since the whole listing on the right goes on into the rest.
      rcases id hr with _ | ⟨hr', hrs⟩
      rw [join, join, if_neg hne, if_pos hlt, if_neg (named _ _ hl ▸ named _ _ hr' ▸ hne),
        if_pos (named _ _ hl ▸ named _ _ hr' ▸ hlt)]
      exact List.Forall₂.cons (Rel.left hl) (ih hls hr)
  | case5 l ls r rs hne hlt ih =>
      rcases id hl with _ | ⟨hl', hls⟩
      rcases hr with _ | ⟨hr, hrs⟩
      rw [join, join, if_neg hne, if_neg hlt, if_neg (named _ _ hl' ▸ named _ _ hr ▸ hne),
        if_neg (named _ _ hl' ▸ named _ _ hr ▸ hlt)]
      exact List.Forall₂.cons (Rel.right hr) (ih hl hrs)

/-- The sides of a pairing are members of the two listings. -/
theorem sides_of_mem_join {name : α → String} {ls rs : List α} {p : Pairing α}
    (h : p ∈ join name ls rs) : (∀ a ∈ p.left?, a ∈ ls) ∧ ∀ b ∈ p.right?, b ∈ rs := by
  constructor
  · intro a ha
    rw [← filterMap_left?_join name ls rs]
    exact List.mem_filterMap.mpr ⟨p, h, ha⟩
  · intro b hb
    rw [← filterMap_right?_join name ls rs]
    exact List.mem_filterMap.mpr ⟨p, h, hb⟩

/-- Every pairing stands for the name of a member of one of the listings. -/
theorem key_of_mem_join {name : α → String} {ls rs : List α} {p : Pairing α}
    (h : p ∈ join name ls rs) :
    (∃ a ∈ ls, key name p = name a) ∨ ∃ b ∈ rs, key name p = name b := by
  have sides := sides_of_mem_join h
  cases p with
  | left a => exact Or.inl ⟨a, sides.1 a rfl, rfl⟩
  | right b => exact Or.inr ⟨b, sides.2 b rfl, rfl⟩
  | both a b => exact Or.inl ⟨a, sides.1 a rfl, rfl⟩

/-- The pairings come in strictly ascending order of their names. -/
theorem join_ascending {name : α → String} {ls rs : List α} (hl : Ascending name ls)
    (hr : Ascending name rs) : Ascending (key name) (join name ls rs) := by
  induction ls, rs using Pairing.join.induct name with
  | case1 rs =>
      rw [join]
      exact List.pairwise_map.mpr hr
  | case2 ls _ =>
      rw [join_nil]
      exact List.pairwise_map.mpr hl
  | case3 l ls r rs heq ih =>
      rw [join, if_pos heq]
      refine (ih hl.tail hr.tail).cons ?_
      intro p hp
      -- Whatever comes later stands for a name behind one of the two heads, which are one name here.
      rcases key_of_mem_join hp with ⟨a, ha, hk⟩ | ⟨b, hb, hk⟩
      · rw [hk]
        exact hl.head_lt a ha
      · rw [hk, key, heq]
        exact hr.head_lt b hb
  | case4 l ls r rs hne hlt ih =>
      rw [join, if_neg hne, if_pos hlt]
      refine (ih hl.tail hr).cons ?_
      intro p hp
      rcases key_of_mem_join hp with ⟨a, ha, hk⟩ | ⟨b, hb, hk⟩
      · rw [hk]
        exact hl.head_lt a ha
      · rw [hk]
        exact hr.lt_of_lt_head hlt b hb
  | case5 l ls r rs hne hlt ih =>
      have hgt : name r < name l := lt_of_le_of_ne (not_lt.mp hlt) (Ne.symm hne)
      rw [join, if_neg hne, if_neg hlt]
      refine (ih hl hr.tail).cons ?_
      intro p hp
      rcases key_of_mem_join hp with ⟨a, ha, hk⟩ | ⟨b, hb, hk⟩
      · rw [hk]
        exact hl.lt_of_lt_head hgt a ha
      · rw [hk]
        exact hr.head_lt b hb

/-- A member of the left listing stands alone exactly when its name is missing on the right. -/
theorem mem_join_left {name : α → String} {ls rs : List α} (hl : Ascending name ls)
    (hr : Ascending name rs) (a : α) :
    .left a ∈ join name ls rs ↔ a ∈ ls ∧ ∀ b ∈ rs, name b ≠ name a := by
  induction ls, rs using Pairing.join.induct name with
  | case1 rs =>
      simp only [join, List.mem_map, reduceCtorEq, and_false, exists_false, List.not_mem_nil,
        false_and]
  | case2 ls _ =>
      simp only [join_nil, List.mem_map, Pairing.left.injEq, exists_eq_right, List.not_mem_nil,
        false_implies, implies_true, and_true]
  | case3 l ls r rs heq ih =>
      rw [join, if_pos heq, List.mem_cons, ih hl.tail hr.tail]
      constructor
      · rintro (h | ⟨ha, hb⟩)
        · cases h
        · -- Behind the head there are greater names only, so the head on the right is none of them.
          refine ⟨List.mem_cons_of_mem _ ha, fun b hm => ?_⟩
          rcases List.mem_cons.mp hm with rfl | hm
          · rw [← heq]
            exact ne_of_lt (hl.head_lt a ha)
          · exact hb b hm
      · rintro ⟨ha, hb⟩
        rcases List.mem_cons.mp ha with rfl | ha
        · exact absurd heq.symm (hb r List.mem_cons_self)
        · exact Or.inr ⟨ha, fun b hm => hb b (List.mem_cons_of_mem _ hm)⟩
  | case4 l ls r rs hne hlt ih =>
      rw [join, if_neg hne, if_pos hlt, List.mem_cons, ih hl.tail hr]
      constructor
      · rintro (h | ⟨ha, hb⟩)
        · cases h
          -- The head on the right is greater already, and everything behind it greater still.
          exact ⟨List.mem_cons_self, fun b hm => ne_of_gt (hr.lt_of_lt_head hlt b hm)⟩
        · exact ⟨List.mem_cons_of_mem _ ha, hb⟩
      · rintro ⟨ha, hb⟩
        rcases List.mem_cons.mp ha with rfl | ha
        · exact Or.inl rfl
        · exact Or.inr ⟨ha, hb⟩
  | case5 l ls r rs hne hlt ih =>
      have hgt : name r < name l := lt_of_le_of_ne (not_lt.mp hlt) (Ne.symm hne)
      rw [join, if_neg hne, if_neg hlt, List.mem_cons, ih hl hr.tail]
      constructor
      · rintro (h | ⟨ha, hb⟩)
        · cases h
        -- The head that is dropped on the right is smaller than everything on the left.
        · refine ⟨ha, fun b hm => ?_⟩
          rcases List.mem_cons.mp hm with rfl | hm
          · exact ne_of_lt (hl.lt_of_lt_head hgt a ha)
          · exact hb b hm
      · rintro ⟨ha, hb⟩
        exact Or.inr ⟨ha, fun b hm => hb b (List.mem_cons_of_mem _ hm)⟩

/-- A member of the right listing stands alone exactly when its name is missing on the left. -/
theorem mem_join_right {name : α → String} {ls rs : List α} (hl : Ascending name ls)
    (hr : Ascending name rs) (b : α) :
    .right b ∈ join name ls rs ↔ b ∈ rs ∧ ∀ a ∈ ls, name a ≠ name b := by
  rw [← mem_join_left hr hl, join_swap name ls rs, List.mem_map]
  constructor
  · intro h
    exact ⟨.right b, h, rfl⟩
  · rintro ⟨p, hp, hs⟩
    cases p with
    | left a => cases hs
    | right b' => cases hs; exact hp
    | both a b' => cases hs

/-- Two members are paired exactly when they have one name. -/
theorem mem_join_both {name : α → String} {ls rs : List α} (hl : Ascending name ls)
    (hr : Ascending name rs) (a b : α) :
    .both a b ∈ join name ls rs ↔ a ∈ ls ∧ b ∈ rs ∧ name a = name b := by
  induction ls, rs using Pairing.join.induct name with
  | case1 rs =>
      simp only [join, List.mem_map, reduceCtorEq, and_false, exists_false, List.not_mem_nil,
        false_and]
  | case2 ls _ =>
      simp only [join_nil, List.mem_map, reduceCtorEq, and_false, exists_false, List.not_mem_nil,
        false_and]
  | case3 l ls r rs heq ih =>
      rw [join, if_pos heq, List.mem_cons, ih hl.tail hr.tail]
      constructor
      · rintro (h | ⟨ha, hb, hn⟩)
        · cases h
          exact ⟨List.mem_cons_self, List.mem_cons_self, heq⟩
        · exact ⟨List.mem_cons_of_mem _ ha, List.mem_cons_of_mem _ hb, hn⟩
      · rintro ⟨ha, hb, hn⟩
        -- A head with a member behind the other head would have a greater name than itself.
        rcases List.mem_cons.mp ha with rfl | ha
        · rcases List.mem_cons.mp hb with rfl | hb
          · exact Or.inl rfl
          · exact absurd (heq.symm.trans hn) (ne_of_lt (hr.head_lt b hb))
        · rcases List.mem_cons.mp hb with rfl | hb
          · exact absurd (heq.trans hn.symm) (ne_of_lt (hl.head_lt a ha))
          · exact Or.inr ⟨ha, hb, hn⟩
  | case4 l ls r rs hne hlt ih =>
      rw [join, if_neg hne, if_pos hlt, List.mem_cons, ih hl.tail hr]
      constructor
      · rintro (h | ⟨ha, hb, hn⟩)
        · cases h
        · exact ⟨List.mem_cons_of_mem _ ha, hb, hn⟩
      · rintro ⟨ha, hb, hn⟩
        rcases List.mem_cons.mp ha with rfl | ha
        · exact absurd hn (ne_of_lt (hr.lt_of_lt_head hlt b hb))
        · exact Or.inr ⟨ha, hb, hn⟩
  | case5 l ls r rs hne hlt ih =>
      have hgt : name r < name l := lt_of_le_of_ne (not_lt.mp hlt) (Ne.symm hne)
      rw [join, if_neg hne, if_neg hlt, List.mem_cons, ih hl hr.tail]
      constructor
      · rintro (h | ⟨ha, hb, hn⟩)
        · cases h
        · exact ⟨ha, List.mem_cons_of_mem _ hb, hn⟩
      · rintro ⟨ha, hb, hn⟩
        rcases List.mem_cons.mp hb with rfl | hb
        · exact absurd hn (ne_of_gt (hl.lt_of_lt_head hgt a ha))
        · exact Or.inr ⟨ha, hb, hn⟩

/-- The two sides of a pairing have one name, whatever the order of the listings is. -/
theorem name_eq_of_mem_join {name : α → String} {ls rs : List α} {p : Pairing α}
    (h : p ∈ join name ls rs) {a b : α} (ha : a ∈ p.left?) (hb : b ∈ p.right?) : name a = name b := by
  cases p with
  | left => cases hb
  | right => cases ha
  | both =>
      cases ha
      cases hb
      -- Only where the names are equal does the recursion make a pair, so no order is needed.
      induction ls, rs using Pairing.join.induct name with
      | case1 rs =>
          rw [join] at h
          rcases List.mem_map.mp h with ⟨_, _, hp⟩
          cases hp
      | case2 ls _ =>
          rw [join_nil] at h
          rcases List.mem_map.mp h with ⟨_, _, hp⟩
          cases hp
      | case3 l ls r rs heq ih =>
          rw [join, if_pos heq] at h
          rcases List.mem_cons.mp h with hp | h
          · cases hp
            exact heq
          · exact ih h
      | case4 l ls r rs hne hlt ih =>
          rw [join, if_neg hne, if_pos hlt] at h
          rcases List.mem_cons.mp h with hp | h
          · cases hp
          · exact ih h
      | case5 l ls r rs hne hlt ih =>
          rw [join, if_neg hne, if_neg hlt] at h
          rcases List.mem_cons.mp h with hp | h
          · cases hp
          · exact ih h

end Pairing

end ThreeWay
