import Mathlib.Data.List.Forall2
import Mathlib.Data.List.Nodup

/-!
# Facts About Lists

Two lists that are related element by element have the same members up to the relation. `mapM` in any
of the project's monads ends in such a pair of lists, so these are the steps from a list of results back
to the list it was made from.

A list of pairs serves as a table, and taking entries out by their keys is what a scan does to it.

A traversal of a list in a monad of failures has an answer exactly if every step has one. Most of the model lists
something with such a traversal: the members of a folder, the entries of an index, the commits of a history. So
the two directions are kept here, from the steps to the whole and from the whole to the steps.

## Theorems

* `exists_mem_of_mem_left`, `exists_mem_of_mem_right`: A member of one list has its partner in the other.
* `imp_of_mem`: A relation may be weakened member by member.
* `mapM_congr_mem`: A traversal depends on the steps that it takes.
* `mapM_eq_ok`, `exists_mapM_eq_ok`: A traversal answers where every step does.
* `forall₂_of_mapM_eq_ok`: What a traversal answers with are the answers of its steps.
* `exists_of_mapM_eq_error`: A traversal fails as one of its steps does.
* `filterMap_id_of_mapM_eq_ok`: What is kept of them, where a step may leave nothing.
* `lookup_filter_key`: Looking up a key among the entries whose keys pass a test.
* `List.mem_of_lookup`: What is found under a key is an entry.
* `List.eq_map_of_forall₂`: A list that follows another by a function is its image.
* `nodup_eraseDups`: What is kept of repetitions occurs once.
* `exists_bound`: The members of a list have a greatest size.
-/

namespace List.Forall₂

variable {α β : Type} {R : α → β → Prop}

theorem exists_mem_of_mem_left {xs : List α} {ys : List β} (h : List.Forall₂ R xs ys) {x : α}
    (hx : x ∈ xs) : ∃ y ∈ ys, R x y := by
  induction h with
  | nil => exact absurd hx List.not_mem_nil
  | cons hr _ ih =>
      rcases List.mem_cons.mp hx with rfl | hx
      · exact ⟨_, List.mem_cons_self, hr⟩
      · rcases ih hx with ⟨y, hy, hr⟩
        exact ⟨y, List.mem_cons_of_mem _ hy, hr⟩

theorem exists_mem_of_mem_right {xs : List α} {ys : List β} (h : List.Forall₂ R xs ys) {y : β}
    (hy : y ∈ ys) : ∃ x ∈ xs, R x y := by
  rcases h.flip.exists_mem_of_mem_left hy with ⟨x, hx, hr⟩
  exact ⟨x, hx, hr⟩

/-- A relation may be weakened with the knowledge of where the first element comes from. -/
theorem imp_of_mem {S : α → β → Prop} {xs : List α} {ys : List β} (h : List.Forall₂ R xs ys)
    (himp : ∀ x ∈ xs, ∀ y, R x y → S x y) : List.Forall₂ S xs ys := by
  induction h with
  | nil => exact List.Forall₂.nil
  | cons hr _ ih =>
      refine List.Forall₂.cons (himp _ List.mem_cons_self _ hr) (ih fun x hx => ?_)
      exact himp x (List.mem_cons_of_mem _ hx)

end List.Forall₂

/-- Looking up a key among the entries whose keys pass a test. -/
theorem List.lookup_filter_key {κ β : Type} [BEq κ] [LawfulBEq κ] (f : κ → Bool)
    (xs : List (κ × β)) (k : κ) :
    (xs.filter fun e => f e.1).lookup k = if f k then xs.lookup k else none := by
  induction xs with
  | nil => simp
  | cons e xs ih =>
      rw [List.filter_cons]
      -- The entry in front may have the key, and then the test on it is the test on the key.
      by_cases hk : k = e.1
      · subst hk
        by_cases hf : f e.1 = true
        · rw [if_pos hf, if_pos hf, List.lookup_cons, List.lookup_cons, beq_self_eq_true]
        · rw [if_neg hf, ih, if_neg hf, if_neg hf]
      · have hb : (k == e.1) = false := beq_eq_false_iff_ne.mpr hk
        by_cases hf : f e.1 = true
        · rw [if_pos hf, List.lookup_cons, hb, ih, List.lookup_cons, hb]
        · rw [if_neg hf, ih, List.lookup_cons, hb]

theorem List.mem_of_lookup {κ β : Type} [BEq κ] [LawfulBEq κ] {xs : List (κ × β)} {k : κ} {v : β}
    (h : xs.lookup k = some v) : (k, v) ∈ xs := by
  rcases List.lookup_eq_some_iff.mp h with ⟨front, back, hx, _⟩
  rw [hx]
  exact List.mem_append_right _ List.mem_cons_self

/-- A traversal depends on the steps that it takes. -/
theorem List.mapM_congr_mem {m : Type → Type} [Monad m] [LawfulMonad m] {α β : Type} {f g : α → m β}
    {xs : List α} (h : ∀ x ∈ xs, f x = g x) : xs.mapM f = xs.mapM g := by
  induction xs with
  | nil => rfl
  | cons x xs ih =>
      rw [List.mapM_cons, List.mapM_cons, h x List.mem_cons_self,
        ih fun y hy => h y (List.mem_cons_of_mem _ hy)]

/-- Where every step answers, a traversal answers with all of the answers. -/
theorem List.mapM_eq_ok {ε α β : Type} {f : α → Except ε β} {g : α → β} {xs : List α}
    (h : ∀ x ∈ xs, f x = .ok (g x)) : xs.mapM f = .ok (xs.map g) := by
  induction xs with
  | nil => rfl
  | cons x xs ih =>
      rw [List.mapM_cons, h x List.mem_cons_self, ih fun y hy => h y (List.mem_cons_of_mem _ hy)]
      rfl

/-- Where every step has an answer with a property, a traversal has one, answer by answer. -/
theorem List.exists_mapM_eq_ok {ε α β : Type} {f : α → Except ε β} {P : α → β → Prop} {xs : List α}
    (h : ∀ x ∈ xs, ∃ y, f x = .ok y ∧ P x y) : ∃ ys, xs.mapM f = .ok ys ∧ List.Forall₂ P xs ys := by
  induction xs with
  | nil => exact ⟨[], rfl, .nil⟩
  | cons x xs ih =>
      rcases h x List.mem_cons_self with ⟨y, hy, hp⟩
      rcases ih fun z hz => h z (List.mem_cons_of_mem _ hz) with ⟨ys, hys, hps⟩
      refine ⟨y :: ys, ?_, .cons hp hps⟩
      rw [List.mapM_cons, hy, hys]
      rfl

/-- What a traversal answers with are the answers of its steps. -/
theorem List.forall₂_of_mapM_eq_ok {ε α β : Type} {f : α → Except ε β} {xs : List α} {ys : List β}
    (h : xs.mapM f = .ok ys) : List.Forall₂ (fun x y => f x = .ok y) xs ys := by
  induction xs generalizing ys with
  | nil =>
      cases h
      exact .nil
  | cons x xs ih =>
      rw [List.mapM_cons] at h
      -- With an answer for the whole neither the first step nor the rest can have failed.
      cases hx : f x with
      | error e =>
          rw [hx] at h
          cases h
      | ok y =>
          cases hxs : xs.mapM f with
          | error e =>
              rw [hx, hxs] at h
              cases h
          | ok rest =>
              rw [hx, hxs] at h
              cases h
              exact .cons hx (ih hxs)

/-- A traversal fails as one of its steps does. -/
theorem List.exists_of_mapM_eq_error {ε α β : Type} {f : α → Except ε β} {xs : List α} {e : ε}
    (h : xs.mapM f = .error e) : ∃ x ∈ xs, f x = .error e := by
  induction xs with
  | nil => cases h
  | cons x xs ih =>
      rw [List.mapM_cons] at h
      -- The first step that fails is the one, and the steps in front of it had answers.
      cases hx : f x with
      | error e' =>
          rw [hx] at h
          cases h
          exact ⟨x, List.mem_cons_self, hx⟩
      | ok y =>
          cases hxs : xs.mapM f with
          | error e' =>
              rw [hx, hxs] at h
              cases h
              rcases ih hxs with ⟨z, hz, he⟩
              exact ⟨z, List.mem_cons_of_mem _ hz, he⟩
          | ok rest =>
              rw [hx, hxs] at h
              cases h

/-- What is kept of the answers of a traversal in which a step may leave nothing. -/
theorem List.filterMap_id_of_mapM_eq_ok {ε α β : Type} {f : α → Except ε (Option β)} {xs : List α}
    {ys : List (Option β)} (h : xs.mapM f = .ok ys) :
    ys.filterMap id = xs.filterMap fun x => (f x).toOption.join := by
  have answers := forall₂_of_mapM_eq_ok h
  clear h
  induction answers with
  | nil => rfl
  | cons hy _ ih =>
      rw [List.filterMap_cons, List.filterMap_cons, ih, hy]
      rfl

/-- A list that follows another by a function is its image. -/
theorem List.eq_map_of_forall₂ {α β : Type} {g : α → β} {xs : List α} {ys : List β}
    (h : List.Forall₂ (fun x y => y = g x) xs ys) : ys = xs.map g := by
  induction h with
  | nil => rfl
  | cons hy _ ih => rw [List.map_cons, hy, ih]

/-- What is kept of repetitions occurs once. -/
theorem List.nodup_eraseDups {α : Type} [BEq α] [LawfulBEq α] (xs : List α) : xs.eraseDups.Nodup := by
  -- The rest is searched with the repetitions of the first taken out, so the induction is on the length.
  induction h : xs.length using Nat.strongRecOn generalizing xs with
  | ind n ih =>
      cases xs with
      | nil => exact List.nodup_nil
      | cons x xs =>
          rw [List.eraseDups_cons, List.nodup_cons, List.mem_eraseDups, List.mem_filter]
          have hlt : (xs.filter fun y => !y == x).length < n := by
            rw [← h, List.length_cons]
            exact Nat.lt_succ_of_le (List.length_filter_le _ _)
          exact ⟨fun hx => by simp at hx, ih _ hlt _ rfl⟩

/-- The members of a list have a greatest size. -/
theorem List.exists_bound {α : Type} (size : α → Nat) (xs : List α) : ∃ bound, ∀ x ∈ xs, size x ≤ bound := by
  induction xs with
  | nil => exact ⟨0, fun x hx => absurd hx List.not_mem_nil⟩
  | cons x xs ih =>
      rcases ih with ⟨bound, hbound⟩
      refine ⟨max (size x) bound, fun y hy => ?_⟩
      rcases List.mem_cons.mp hy with rfl | hy
      · exact Nat.le_max_left _ _
      · exact Nat.le_trans (hbound y hy) (Nat.le_max_right _ _)
