import Mathlib.Data.String.Basic
import Mathlib.Order.RelClasses
import ThreeWay.Ascending
import ThreeWay.Proofs.Lists

/-!
# Lists with One Element for Each Key

The lists that `insertAt` builds are sets in disguise: they ascend strictly in their keys, so a key
occurs once, and membership is all there is to know about them.

`insertAt` looks for the place of a key from the front and stops at the first greater one. That an
element with the same key does not survive further down is where the order is needed: behind a greater
key there are only greater ones.

There are two insertions, and they differ in which element stays where a key comes twice. With `insertAt` it is
the later one, which is how a table is filled whose entries are overwritten. With `insertNew` it is the earlier
one, as in a set that does not take an element again. A list can be put in order by either, and for lists in which
a key stands for one element the two come to the same members.

The order of keys is any strict total order. It is used for names, for paths and for pairs of numbers.

That the members determine the list is what most uses come down to: two lists in order are equal if each element
of the one is in the other. Membership after an insertion is told element by element, so what a whole table holds
is an induction on what was put in, with the order as the invariant.

## Main definitions

* `Ascending`: A list in strictly ascending order of a key.

## Theorems

* `Ascending.head_lt`, `Ascending.cons`, `Ascending.sublist`: How a list in order is taken apart and made.
* `Ascending.lt_of_lt_head`: A key in front of the head is in front of everything.
* `Ascending.eq_of_key_eq`: A key occurs once.
* `Ascending.nodup`, `Ascending.lookup_eq_some_iff`: Nothing stands twice, and a table is read by its entries.
* `Ascending.eq_of_mem_iff`: The members determine the list.
* `mem_insertAt`, `ascending_insertAt`: What an insertion holds, and that it keeps the order.
* `mem_of_mem_ascending`, `mem_ascending`: A list put in order holds what it was made from.
* `ascending_ascending`: A list put in order is in order.
* `ascending_map`, `map_snd_ascending`: Putting in order what is made of other elements.
* `mem_insertNew`, `ascending_ascendingNew`, `mem_of_mem_ascendingNew`, `mem_ascendingNew`: The same where the
  first element of a key stays.
-/

namespace ThreeWay

variable {α κ : Type}

/-- A list in strictly ascending order of a key. -/
def Ascending [LT κ] (key : α → κ) (xs : List α) : Prop :=
  xs.Pairwise fun a b => key a < key b

instance [LT κ] [DecidableLT κ] (key : α → κ) (xs : List α) : Decidable (Ascending key xs) :=
  inferInstanceAs (Decidable (xs.Pairwise fun a b => key a < key b))

namespace Ascending

section

variable [LT κ] {key : α → κ}

/-- The head of an ascending list is smaller than everything behind it. -/
theorem head_lt {x : α} {xs : List α} (h : Ascending key (x :: xs)) : ∀ y ∈ xs, key x < key y :=
  (List.pairwise_cons.mp h).1

theorem tail {x : α} {xs : List α} (h : Ascending key (x :: xs)) : Ascending key xs :=
  (List.pairwise_cons.mp h).2

theorem cons {x : α} {xs : List α} (hx : ∀ y ∈ xs, key x < key y) (h : Ascending key xs) :
    Ascending key (x :: xs) :=
  List.pairwise_cons.mpr ⟨hx, h⟩

theorem nil : Ascending key ([] : List α) :=
  List.Pairwise.nil

theorem sublist {xs ys : List α} (h : Ascending key ys) (hs : List.Sublist xs ys) :
    Ascending key xs :=
  List.Pairwise.sublist hs h

end

variable [LT κ] [IsStrictTotalOrder κ (· < ·)] {key : α → κ}

/-- A key in front of the head is in front of everything. -/
theorem lt_of_lt_head {x : α} {xs : List α} (h : Ascending key (x :: xs)) {k : κ} (hk : k < key x) :
    ∀ y ∈ x :: xs, k < key y := by
  intro y hy
  rcases List.mem_cons.mp hy with rfl | hy
  · exact hk
  · exact IsTrans.trans _ _ _ hk (h.head_lt y hy)

/-- A key occurs once in an ascending list. -/
theorem eq_of_key_eq {xs : List α} (h : Ascending key xs) {x y : α} (hx : x ∈ xs) (hy : y ∈ xs)
    (hk : key x = key y) : x = y := by
  -- One of the two is the head or none is. The head has a smaller key than all others.
  induction xs with
  | nil => exact absurd hx List.not_mem_nil
  | cons z xs ih =>
      rcases List.mem_cons.mp hx with ex | mx
      · rcases List.mem_cons.mp hy with ey | my
        · rw [ex, ey]
        · rw [ex] at hk
          exact absurd (hk ▸ h.head_lt y my) (irrefl _)
      · rcases List.mem_cons.mp hy with ey | my
        · rw [ey] at hk
          exact absurd (hk ▸ h.head_lt x mx) (irrefl _)
        · exact ih h.tail mx my

theorem nodup_keys {xs : List α} (h : Ascending key xs) : (xs.map key).Nodup := by
  refine List.Pairwise.map key (fun x y hlt he => ?_) h
  rw [he] at hlt
  exact irrefl _ hlt

/-- Nothing stands twice in an ascending list. -/
theorem nodup {xs : List α} (h : Ascending key xs) : xs.Nodup :=
  List.Nodup.of_map key h.nodup_keys

/-- Ascending lists with the same members are the same. -/
theorem eq_of_mem_iff {xs ys : List α} (hx : Ascending key xs) (hy : Ascending key ys)
    (h : ∀ x, x ∈ xs ↔ x ∈ ys) : xs = ys :=
  have antisymm : ∀ x y, x ∈ xs → y ∈ ys → key x < key y → key y < key x → x = y := fun x _ _ _ hlt hgt =>
    absurd (IsTrans.trans _ _ _ hlt hgt) (irrefl (key x))
  -- Both lists are permutations of each other, and an order leaves one list of a permutation.
  ((List.perm_ext_iff_of_nodup hx.nodup hy.nodup).mpr h).eq_of_pairwise antisymm hx hy

/-- Looking up a key of a table finds the entry that has it. -/
theorem lookup_eq_some_iff {β : Type} [BEq κ] [LawfulBEq κ] {xs : List (κ × β)}
    (h : Ascending Prod.fst xs) {k : κ} {v : β} : xs.lookup k = some v ↔ (k, v) ∈ xs := by
  constructor
  · exact List.mem_of_lookup
  · intro hm
    cases hl : xs.lookup k with
    | none => exact absurd (List.lookup_eq_none_iff.mp hl (k, v) hm) (by simp)
    | some w =>
        have he := h.eq_of_key_eq (List.mem_of_lookup hl) hm rfl
        exact congrArg some (Prod.mk.inj he).2

end Ascending

variable [LT κ] [DecidableLT κ] [DecidableEq κ] [IsStrictTotalOrder κ (· < ·)] {key : α → κ}

/-- Inserting an element takes the place of the one with its key and keeps all others. -/
theorem mem_insertAt {x : α} {xs : List α} (h : Ascending key xs) (y : α) :
    y ∈ insertAt key x xs ↔ y = x ∨ y ∈ xs ∧ key y ≠ key x := by
  induction xs with
  | nil => simp only [insertAt, List.mem_singleton, List.not_mem_nil, false_and, or_false]
  | cons z xs ih =>
      rw [insertAt]
      by_cases hlt : key x < key z
      · rw [if_pos hlt, List.mem_cons]
        -- The element stops in front of the first greater key, and the rest is greater still.
        have hne : ∀ w ∈ z :: xs, key w ≠ key x := by
          intro w hw he
          have hgt : key x < key w := h.lt_of_lt_head hlt w hw
          exact irrefl (key x) (he ▸ hgt)
        constructor
        · rintro (rfl | hy)
          · exact Or.inl rfl
          · exact Or.inr ⟨hy, hne y hy⟩
        · rintro (rfl | ⟨hy, _⟩)
          · exact Or.inl rfl
          · exact Or.inr hy
      · rw [if_neg hlt]
        by_cases heq : key x = key z
        · rw [if_pos heq, List.mem_cons]
          -- The element takes the place of the head, and behind the head its key does not come again.
          constructor
          · rintro (rfl | hy)
            · exact Or.inl rfl
            · refine Or.inr ⟨List.mem_cons_of_mem _ hy, fun he => ?_⟩
              exact irrefl _ ((he.trans heq) ▸ h.head_lt y hy)
          · rintro (rfl | ⟨hy, hk⟩)
            · exact Or.inl rfl
            · rcases List.mem_cons.mp hy with rfl | hy
              · exact absurd heq.symm hk
              · exact Or.inr hy
        · rw [if_neg heq, List.mem_cons, ih h.tail]
          constructor
          · rintro (rfl | rfl | ⟨hy, hk⟩)
            · exact Or.inr ⟨List.mem_cons_self, Ne.symm heq⟩
            · exact Or.inl rfl
            · exact Or.inr ⟨List.mem_cons_of_mem _ hy, hk⟩
          · rintro (rfl | ⟨hy, hk⟩)
            · exact Or.inr (Or.inl rfl)
            · rcases List.mem_cons.mp hy with rfl | hy
              · exact Or.inl rfl
              · exact Or.inr (Or.inr ⟨hy, hk⟩)

/-- An insertion keeps the order. -/
theorem ascending_insertAt (x : α) {xs : List α} (h : Ascending key xs) :
    Ascending key (insertAt key x xs) := by
  induction xs with
  | nil => exact Ascending.nil.cons fun y hy => absurd hy List.not_mem_nil
  | cons z xs ih =>
      rw [insertAt]
      by_cases hlt : key x < key z
      · rw [if_pos hlt]
        exact h.cons (h.lt_of_lt_head hlt)
      · rw [if_neg hlt]
        by_cases heq : key x = key z
        · rw [if_pos heq]
          exact h.tail.cons fun y hy => heq ▸ h.head_lt y hy
        · rw [if_neg heq]
          refine (ih h.tail).cons fun y hy => ?_
          -- Behind the head stands what stood there, and the new element, whose key is greater.
          rcases (mem_insertAt h.tail y).mp hy with rfl | ⟨hy, _⟩
          · rcases trichotomous_of (· < ·) (key z) (key y) with hgt | he | hgt
            · exact hgt
            · exact absurd he.symm heq
            · exact absurd hgt hlt
          · exact h.head_lt y hy

/-- Putting elements in one after the other keeps the order. -/
theorem ascending_foldl (ys : List α) {xs : List α} (h : Ascending key xs) :
    Ascending key (ys.foldl (fun acc x => insertAt key x acc) xs) := by
  induction ys generalizing xs with
  | nil => exact h
  | cons y ys ih => exact ih (ascending_insertAt y h)

/-- A list put in order is in order. -/
theorem ascending_ascending (xs : List α) : Ascending key (ascending key xs) :=
  ascending_foldl xs Ascending.nil

theorem mem_foldl (ys : List α) {xs : List α} (h : Ascending key xs) {z : α}
    (hz : z ∈ ys.foldl (fun acc x => insertAt key x acc) xs) : z ∈ xs ∨ z ∈ ys := by
  induction ys generalizing xs with
  | nil => exact Or.inl hz
  | cons y ys ih =>
      -- What is there at the end was there before, or was put in with the first element or with a later one.
      rcases ih (ascending_insertAt y h) hz with hm | hm
      · rcases (mem_insertAt h z).mp hm with rfl | ⟨hm, _⟩
        · exact Or.inr List.mem_cons_self
        · exact Or.inl hm
      · exact Or.inr (List.mem_cons_of_mem _ hm)

omit [IsStrictTotalOrder κ (· < ·)] in
/-- A list can be put in order before it is mapped, by what the keys will be. -/
theorem ascending_map {β : Type} (f : β → α) (xs : List β) :
    ascending key (xs.map f) = (ascending (fun x => key (f x)) xs).map f := by
  have insert (x : β) (ys : List β) :
      insertAt key (f x) (ys.map f) = (insertAt (fun x => key (f x)) x ys).map f := by
    induction ys with
    | nil => rfl
    | cons y ys ih =>
        rw [List.map_cons, insertAt, insertAt, ih]
        split_ifs <;> rfl
  -- Induction needs the list that is built so far, which is the image of another one.
  suffices go : ∀ acc, (xs.map f).foldl (fun acc x => insertAt key x acc) (acc.map f) =
      (xs.foldl (fun acc x => insertAt (fun x => key (f x)) x acc) acc).map f from go []
  induction xs with
  | nil => exact fun _ => rfl
  | cons x xs ih =>
      intro acc
      rw [List.map_cons, List.foldl_cons, List.foldl_cons, insert]
      exact ih _

omit [IsStrictTotalOrder κ (· < ·)] in
/-- Elements that are put in order under their own keys are put in order by them. -/
theorem map_snd_ascending (key : α → κ) (xs : List α) :
    (ascending Prod.fst (xs.map fun x => (key x, x))).map Prod.snd = ascending key xs := by
  rw [ascending_map, List.map_map]
  exact List.map_id _

/-- A list put in order holds nothing new. -/
theorem mem_of_mem_ascending {xs : List α} {z : α} (h : z ∈ ascending key xs) : z ∈ xs := by
  rcases mem_foldl xs Ascending.nil h with h | h
  · exact absurd h List.not_mem_nil
  · exact h

/-- An element stays until another one with its key is put in. -/
theorem mem_foldl_of_mem (ys : List α) {xs : List α} (h : Ascending key xs) {z : α}
    (hz : z ∈ xs) (hne : ∀ y ∈ ys, key y = key z → y = z) :
    z ∈ ys.foldl (fun acc x => insertAt key x acc) xs := by
  induction ys generalizing xs with
  | nil => exact hz
  | cons y ys ih =>
      refine ih (ascending_insertAt y h) ?_ fun w hw => hne w (List.mem_cons_of_mem _ hw)
      rw [mem_insertAt h]
      -- The element is put aside only by one with its key, and that one is the element itself.
      by_cases hk : key z = key y
      · exact Or.inl (hne y List.mem_cons_self hk.symm).symm
      · exact Or.inr ⟨hz, hk⟩

/-- A list put in order holds every element whose key no other element has. -/
theorem mem_ascending {xs : List α} {z : α} (hz : z ∈ xs)
    (hne : ∀ y ∈ xs, key y = key z → y = z) : z ∈ ascending key xs := by
  rcases List.append_of_mem hz with ⟨front, back, rfl⟩
  -- The list is cut at the element: it is put in behind the front, and nothing of the back replaces it.
  rw [ascending, List.foldl_append, List.foldl_cons]
  have hf : Ascending key (front.foldl (fun acc x => insertAt key x acc) []) :=
    ascending_foldl front Ascending.nil
  refine mem_foldl_of_mem back (ascending_insertAt z hf) ?_ fun y hy => ?_
  · exact (mem_insertAt hf z).mpr (Or.inl rfl)
  · exact hne y (List.mem_append_right _ (List.mem_cons_of_mem _ hy))

/-- Putting a new element in is putting it in, unless its key is taken. -/
theorem insertNew_eq {x : α} {xs : List α} (h : Ascending key xs) :
    insertNew key x xs = if ∃ y ∈ xs, key y = key x then xs else insertAt key x xs := by
  induction xs with
  | nil => simp only [insertNew, insertAt, List.not_mem_nil, false_and, exists_false, if_false]
  | cons z xs ih =>
      rw [insertNew, insertAt]
      by_cases hlt : key x < key z
      · -- All keys of the list are greater.
        have hfree : ¬ ∃ y ∈ z :: xs, key y = key x := by
          rintro ⟨y, hy, he⟩
          exact irrefl (key x) (he ▸ h.lt_of_lt_head hlt y hy)
        rw [if_pos hlt, if_pos hlt, if_neg hfree]
      · by_cases heq : key x = key z
        · rw [if_neg hlt, if_neg hlt, if_pos heq, if_pos heq,
            if_pos ⟨z, List.mem_cons_self, heq.symm⟩]
        -- The key of the head is another one, so the head does not count.
        · have hiff : (∃ y ∈ z :: xs, key y = key x) ↔ ∃ y ∈ xs, key y = key x := by
            rw [List.exists_mem_cons_iff]
            exact or_iff_right (Ne.symm heq)
          rw [if_neg hlt, if_neg hlt, if_neg heq, if_neg heq, ih h.tail]
          by_cases hx : ∃ y ∈ xs, key y = key x
          · rw [if_pos hx, if_pos (hiff.mpr hx)]
          · rw [if_neg hx, if_neg fun hy => hx (hiff.mp hy)]

/-- A new element is put in exactly if its key is not taken, and nothing gives way to it. -/
theorem mem_insertNew {x : α} {xs : List α} (h : Ascending key xs) (y : α) :
    y ∈ insertNew key x xs ↔ y ∈ xs ∨ y = x ∧ ∀ z ∈ xs, key z ≠ key x := by
  rw [insertNew_eq h]
  by_cases hx : ∃ z ∈ xs, key z = key x
  · rw [if_pos hx]
    rcases hx with ⟨z, hz, he⟩
    exact (or_iff_left fun hy => hy.2 z hz he).symm
  · rw [if_neg hx, mem_insertAt h]
    have hfree : ∀ z ∈ xs, key z ≠ key x := fun z hz he => hx ⟨z, hz, he⟩
    constructor
    · rintro (rfl | ⟨hy, _⟩)
      · exact Or.inr ⟨rfl, hfree⟩
      · exact Or.inl hy
    · rintro (hy | ⟨rfl, _⟩)
      · exact Or.inr ⟨hy, hfree y hy⟩
      · exact Or.inl rfl

theorem ascending_insertNew (x : α) {xs : List α} (h : Ascending key xs) :
    Ascending key (insertNew key x xs) := by
  rw [insertNew_eq h]
  split_ifs
  · exact h
  · exact ascending_insertAt x h

/-- A list put in order, the first element of each key, is in order. -/
theorem ascending_ascendingNew (xs : List α) : Ascending key (ascendingNew key xs) := by
  -- For any list that is in order so far.
  suffices go : ∀ acc, Ascending key acc → Ascending key (xs.foldl (fun acc x => insertNew key x acc) acc) from
    go [] Ascending.nil
  induction xs with
  | nil => exact fun _ hacc => hacc
  | cons x xs ih => exact fun acc hacc => ih _ (ascending_insertNew x hacc)

/-- It holds nothing else. -/
theorem mem_of_mem_ascendingNew {xs : List α} {z : α} (hz : z ∈ ascendingNew key xs) : z ∈ xs := by
  suffices go : ∀ acc, Ascending key acc → z ∈ xs.foldl (fun acc x => insertNew key x acc) acc →
      z ∈ acc ∨ z ∈ xs from
    (go [] Ascending.nil hz).resolve_left List.not_mem_nil
  clear hz
  induction xs with
  | nil => exact fun _ _ hz => Or.inl hz
  | cons x xs ih =>
      intro acc hacc hz
      rcases ih _ (ascending_insertNew x hacc) hz with hz | hz
      · rcases (mem_insertNew hacc z).mp hz with hz | ⟨rfl, _⟩
        · exact Or.inl hz
        · exact Or.inr List.mem_cons_self
      · exact Or.inr (List.mem_cons_of_mem _ hz)

/-- Where no two different elements have the same key, none gives way to another. -/
theorem mem_ascendingNew {xs : List α} (single : ∀ x ∈ xs, ∀ y ∈ xs, key x = key y → x = y) {z : α}
    (hz : z ∈ xs) : z ∈ ascendingNew key xs := by
  -- What is put in so far is part of the list, so a key that is taken is taken by the same element.
  suffices go : ∀ rest acc : List α, (∀ x ∈ rest, x ∈ xs) → (∀ w ∈ acc, w ∈ xs) → Ascending key acc →
      z ∈ acc ∨ z ∈ rest → z ∈ rest.foldl (fun acc x => insertNew key x acc) acc from
    go xs [] (fun _ h => h) (fun _ h => absurd h List.not_mem_nil) Ascending.nil (Or.inr hz)
  intro rest
  induction rest with
  | nil => exact fun acc _ _ _ h => h.resolve_right List.not_mem_nil
  | cons x rest ih =>
      intro acc hrest hacc sorted h
      have holds : ∀ w, w ∈ insertNew key x acc ↔ w ∈ acc ∨ w = x ∧ ∀ v ∈ acc, key v ≠ key x :=
        mem_insertNew sorted
      refine ih _ (fun y hy => hrest y (List.mem_cons_of_mem _ hy)) (fun w hw => ?_)
        (ascending_insertNew x sorted) ?_
      · rcases (holds w).mp hw with hw | ⟨rfl, _⟩
        · exact hacc w hw
        · exact hrest w List.mem_cons_self
      · rcases h with h | h
        · exact Or.inl ((holds z).mpr (Or.inl h))
        · rcases List.mem_cons.mp h with rfl | h
          · left
            by_cases taken : z ∈ acc
            · exact (holds z).mpr (Or.inl taken)
            · refine (holds z).mpr (Or.inr ⟨rfl, fun w hw he => taken ?_⟩)
              exact single w (hacc w hw) z hz he ▸ hw
          · exact Or.inr h

end ThreeWay
