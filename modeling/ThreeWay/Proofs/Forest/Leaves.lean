import ThreeWay.Proofs.Forest.Order

/-!
# The Tree of a List of Leaves

A commit records a flat list of paths as a tree: each leaf is put at the end of its chain of names, and the
folders on the way are made where they are missing. Read back by chains of names, the tree shows the list
again, a leaf for each entry and a folder wherever an entry continues the chain.

Putting leaves in one after the other could lose some, since a leaf replaces what stood at its place and a
leaf on the way to it. It loses none if no chain continues another one. `Apart` is that condition, and with
it a leaf that is put in changes nothing at any chain but those that lead to it.

Giving ids to the folders comes last and changes none of this. Ids are made from below, since the id of a folder
is made of those of its members, and a lookup passes them by.

## Main definitions

* `Apart`: Two chains of names of which neither continues the other.
* `Forest.Spans`: A forest shows exactly some leaves and the folders on the way to them.

## Theorems

* `cases_of_chains`: How two chains of names can lie.
* `find?_insert`: Looking up a name after one was put in.
* `lookup_put_self`, `lookup_put_above`, `lookup_put_of_apart`: Looking up a chain after an entry was put in.
* `Spans.put`: What a leaf that is put in adds.
* `Spans.foldl`: One leaf after the other is put in.
* `Tree.lookup_identify`: Ids of folders change nothing at any chain.
* `Tree.spans_ofLeaves`: The tree of some leaves spans them.
-/

namespace ThreeWay

/-- Two chains of names of which neither continues the other. -/
def Apart (as bs : List Bytes) : Prop :=
  ¬ as <+: bs ∧ ¬ bs <+: as

theorem Apart.symm {as bs : List Bytes} (h : Apart as bs) : Apart bs as :=
  ⟨h.2, h.1⟩

/-- A chain continues another one, or the other one continues it by at least one name, or they lie apart. -/
theorem cases_of_chains (names others : List Bytes) : (∃ more, others = names ++ more) ∨
    (∃ name more, names = others ++ name :: more) ∨ Apart names others := by
  -- Continuing is asked both ways, and chains that continue each other are the same.
  by_cases hbelow : names <+: others
  · rcases hbelow with ⟨more, hmore⟩
    exact Or.inl ⟨more, hmore.symm⟩
  · by_cases habove : others <+: names
    · rcases habove with ⟨_ | ⟨name, more⟩, hmore⟩
      · exact absurd ⟨[], by rw [List.append_nil, ← hmore, List.append_nil]⟩ hbelow
      · exact Or.inr (Or.inl ⟨name, more, hmore.symm⟩)
    · exact Or.inr (Or.inr ⟨hbelow, habove⟩)

namespace Forest

variable {α β : Type} {name other : Bytes} {entry : Entry α β} {f : Forest α β}

/-- A name that is put in stands for its entry, and the others for what they stood for. -/
theorem find?_insert (name other : Bytes) (entry : Entry α β) (f : Forest α β) :
    (f.insert name entry).find? other = if other = name then some entry else f.find? other := by
  induction f using cons_induction with
  | nil => rw [insert, find?_cons]
  | cons first e rest _ ih =>
      rw [insert_cons]
      split_ifs with hlt heq hother hother hother
      all_goals simp_all [find?_cons]

theorem lookup_insert_self (more : List Bytes) :
    (f.insert name entry).lookup (name :: more) = entry.lookup more := by
  rw [lookup, find?_insert, if_pos rfl, Option.bind_some]

theorem lookup_insert_of_ne (hne : other ≠ name) (more : List Bytes) :
    (f.insert name entry).lookup (other :: more) = f.lookup (other :: more) := by
  rw [lookup, find?_insert, if_neg hne, lookup]

/-- Behind the first name of a chain an entry is put into a folder that shows what stood below that name. -/
theorem exists_put_cons (fresh : β) (entry : Entry α β) (name next : Bytes) (more : List Bytes)
    (f : Forest α β) : ∃ value members, put fresh entry (name :: next :: more) f =
        f.insert name (.folder value (put fresh entry (next :: more) members)) ∧
      ∀ first rest, members.lookup (first :: rest) = f.lookup (name :: first :: rest) := by
  -- Where there is no folder under the name, an empty one takes its place, and that shows nothing below.
  cases hf : f.find? name with
  | none =>
      refine ⟨fresh, .nil, by rw [put, hf]; exact List.cons_ne_nil _ _, fun first rest => ?_⟩
      rw [lookup, lookup, hf]
      rfl
  | some found =>
      cases found with
      | leaf value =>
          refine ⟨fresh, .nil, by rw [put, hf]; exact List.cons_ne_nil _ _, fun first rest => ?_⟩
          rw [lookup, lookup, hf]
          rfl
      | folder value members =>
          refine ⟨value, members, by rw [put, hf]; exact List.cons_ne_nil _ _, fun first rest => ?_⟩
          rw [lookup, lookup, hf]
          rfl

variable (fresh : β) (entry) (f)

/-- At the end of its chain an entry shows what lies below it. -/
theorem lookup_put_self {names : List Bytes} (hne : names ≠ []) (more : List Bytes) :
    (put fresh entry names f).lookup (names ++ more) = entry.lookup more := by
  induction names generalizing f with
  | nil => exact absurd rfl hne
  | cons name names ih =>
      cases names with
      | nil => exact lookup_insert_self more
      | cons next names =>
          rcases exists_put_cons fresh entry name next names f with ⟨value, members, hput, _⟩
          rw [hput, List.cons_append, lookup_insert_self,
            Entry.lookup_folder _ _ (List.append_ne_nil_of_left_ne_nil (List.cons_ne_nil _ _) _)]
          exact ih members (List.cons_ne_nil _ _)

/-- On the way to an entry there are folders. -/
theorem lookup_put_above {front : List Bytes} (hne : front ≠ []) (name : Bytes) (more : List Bytes) :
    ∃ value members,
      (put fresh entry (front ++ name :: more) f).lookup front = some (.folder value members) := by
  induction front generalizing f with
  | nil => exact absurd rfl hne
  | cons first front ih =>
      cases front with
      | nil =>
          rcases exists_put_cons fresh entry first name more f with ⟨value, members, hput, _⟩
          refine ⟨value, put fresh entry (name :: more) members, ?_⟩
          rw [List.singleton_append, hput, lookup_insert_self]
          rfl
      | cons second front =>
          rcases exists_put_cons fresh entry first second (front ++ name :: more) f with
            ⟨value, members, hput, _⟩
          rcases ih members (List.cons_ne_nil _ _) with ⟨w, below, hbelow⟩
          refine ⟨w, below, ?_⟩
          rw [List.cons_append, List.cons_append, hput, lookup_insert_self,
            Entry.lookup_folder _ _ (List.cons_ne_nil _ _)]
          exact hbelow

/-- Nothing changes at a chain that an entry lies apart from. -/
theorem lookup_put_of_apart {names others : List Bytes} (apart : Apart names others) :
    (put fresh entry names f).lookup others = f.lookup others := by
  induction names generalizing f others with
  | nil => exact absurd List.nil_prefix apart.1
  | cons name names ih =>
      cases others with
      | nil => exact absurd List.nil_prefix apart.2
      | cons other others =>
          -- With one first name the rests lie apart. With two, the entry is put in under another name.
          by_cases hname : other = name
          · subst hname
            have hrest : Apart names others :=
              ⟨fun h => apart.1 (List.cons_prefix_cons.mpr ⟨rfl, h⟩),
                fun h => apart.2 (List.cons_prefix_cons.mpr ⟨rfl, h⟩)⟩
            -- A chain that has ended would be continued by the other one.
            cases names with
            | nil => exact absurd List.nil_prefix hrest.1
            | cons next names =>
                cases others with
                | nil => exact absurd List.nil_prefix hrest.2
                | cons second others =>
                    rcases exists_put_cons fresh entry other next names f with
                      ⟨value, members, hput, hmembers⟩
                    rw [hput, lookup_insert_self, Entry.lookup_folder _ _ (List.cons_ne_nil _ _),
                      ih members hrest, hmembers]
          · cases names with
            | nil => exact lookup_insert_of_ne hname others
            | cons next names =>
                rcases exists_put_cons fresh entry name next names f with ⟨_, _, hput, _⟩
                rw [hput, lookup_insert_of_ne hname]

variable {entry f}

/-- A forest shows exactly some leaves and the folders on the way to them. -/
structure Spans (f : Forest α β) (leaves : List (List Bytes × α)) : Prop where
  leaf_iff : ∀ names value, f.lookup names = some (.leaf value) ↔ (names, value) ∈ leaves
  folder_iff : ∀ names, (∃ value members, f.lookup names = some (.folder value members)) ↔
    names ≠ [] ∧ ∃ e ∈ leaves, ∃ name more, e.1 = names ++ name :: more

theorem spans_nil : (nil : Forest α β).Spans [] where
  leaf_iff _ _ := iff_of_false not_lookup_nil List.not_mem_nil
  folder_iff _ := iff_of_false (fun ⟨_, _, h⟩ => not_lookup_nil h) fun ⟨_, _, he, _⟩ => nomatch he

/-- A leaf that is put in is shown with the folders on the way to it, and hides nothing that it lies apart
    from. -/
theorem Spans.put {leaves : List (List Bytes × α)} (h : f.Spans leaves) (fresh : β) {names : List Bytes}
    (hne : names ≠ []) (value : α) (apart : ∀ e ∈ leaves, Apart names e.1) :
    (f.put fresh (.leaf value) names).Spans ((names, value) :: leaves) := by
  -- No leaf has a chain that continues the new one, and none has one that the new one continues.
  have notBelow : ∀ e ∈ leaves, ∀ more, e.1 ≠ names ++ more := fun e he more heq =>
    (apart e he).1 (heq ▸ List.prefix_append _ _)
  have notAbove : ∀ others, others <+: names → ∀ w, (others, w) ∉ leaves := fun others hp w hw =>
    (apart _ hw).2 hp
  constructor
  · intro others w
    rw [List.mem_cons, Prod.mk.injEq]
    -- A chain at or below the new leaf, above it, or apart from it.
    rcases cases_of_chains names others with ⟨more, rfl⟩ | ⟨name, more, hsplit⟩ | hother
    · rw [lookup_put_self _ _ _ hne, or_iff_left fun hw => notBelow _ hw more rfl]
      cases more with
      | nil => simp [Entry.lookup, eq_comm]
      | cons name more => simp [Entry.lookup]
    · have hw : (others, w) ∉ leaves := notAbove others (hsplit ▸ List.prefix_append _ _) w
      refine iff_of_false (fun hl => ?_) ?_
      · by_cases hroot : others = []
        · rw [hroot] at hl
          cases hl
        · rcases lookup_put_above (.leaf value) f fresh hroot name more with ⟨_, _, hfolder⟩
          rw [hsplit, hfolder] at hl
          cases hl
      · rintro (⟨heq, _⟩ | hmem)
        · rw [heq] at hsplit
          exact List.cons_ne_nil _ _ (List.self_eq_append_right.mp hsplit)
        · exact hw hmem
    · rw [lookup_put_of_apart _ _ _ hother, h.leaf_iff, or_iff_right]
      rintro ⟨rfl, _⟩
      exact hother.1 List.prefix_rfl
  · intro others
    rw [List.exists_mem_cons_iff]
    rcases cases_of_chains names others with ⟨more, rfl⟩ | ⟨name, more, hsplit⟩ | hother
    · rw [lookup_put_self _ _ _ hne]
      refine iff_of_false ?_ ?_
      · rintro ⟨_, _, hl⟩
        cases more with
        | nil => cases hl
        | cons => cases hl
      · rintro ⟨_, ⟨name, rest, heq⟩ | ⟨e, he, name, rest, heq⟩⟩
        · rw [List.append_assoc] at heq
          have hnil := List.self_eq_append_right.mp heq
          exact List.cons_ne_nil _ _ (List.append_eq_nil_iff.mp hnil).2
        · rw [List.append_assoc] at heq
          exact notBelow e he _ heq
    · by_cases hroot : others = []
      · refine iff_of_false ?_ fun hn => hn.1 hroot
        rintro ⟨_, _, hl⟩
        rw [hroot] at hl
        cases hl
      · have hfolder := lookup_put_above (.leaf value) f fresh hroot name more
        rw [← hsplit] at hfolder
        exact iff_of_true hfolder ⟨hroot, Or.inl ⟨name, more, hsplit⟩⟩
    · rw [lookup_put_of_apart _ _ _ hother, h.folder_iff]
      refine and_congr_right fun _ => (or_iff_right ?_).symm
      rintro ⟨name, more, heq⟩
      exact hother.2 ⟨name :: more, heq.symm⟩

/-- Only the leaves count, not their order. -/
theorem Spans.congr {leaves others : List (List Bytes × α)} (h : f.Spans leaves)
    (same : ∀ e, e ∈ leaves ↔ e ∈ others) : f.Spans others where
  leaf_iff names value := (h.leaf_iff names value).trans (same _)
  folder_iff names := by
    rw [h.folder_iff]
    exact and_congr_right fun _ => exists_congr fun e => and_congr_left fun _ => same e

/-- One leaf after the other is put in, and none hides another one. -/
theorem Spans.foldl {leaves : List (List Bytes × α)} (named : ∀ e ∈ leaves, e.1 ≠ [])
    (apart : leaves.Pairwise fun a b => Apart a.1 b.1) (fresh : β) {done : List (List Bytes × α)}
    (h : f.Spans done) (free : ∀ e ∈ leaves, ∀ d ∈ done, Apart e.1 d.1) :
    (leaves.foldl (fun forest e => forest.put fresh (.leaf e.2) e.1) f).Spans (leaves.reverse ++ done) := by
  induction leaves generalizing f done with
  | nil => exact h
  | cons e leaves ih =>
      rw [List.pairwise_cons] at apart
      have hput := h.put fresh (named e List.mem_cons_self) e.2 (free e List.mem_cons_self)
      -- What is done grows at its front, so the leaves are met in the opposite order.
      rw [List.reverse_cons, List.append_assoc]
      refine ih (fun d hd => named d (List.mem_cons_of_mem _ hd)) apart.2 hput ?_
      intro d hd x hx
      rcases List.mem_cons.mp hx with rfl | hx
      · exact (apart.1 d hd).symm
      · exact free d (List.mem_cons_of_mem _ hd) x hx

end Forest

namespace Tree

/-- An entry with the ids of the folders below it. -/
def identifyEntry : Forest.Entry Leaf Unit → TreeEntry
  | .leaf leaf => .leaf leaf
  | .folder _ members => .folder (idOf (identify members)) (identify members)

theorem identify_cons (name : Bytes) (entry : Forest.Entry Leaf Unit) (rest : Forest Leaf Unit) :
    identify (Forest.cons name entry rest) = Forest.cons name (identifyEntry entry) (identify rest) := by
  cases entry <;> rfl

theorem find?_identify (f : Forest Leaf Unit) (name : Bytes) :
    (identify f).find? name = (f.find? name).map identifyEntry := by
  induction f using Forest.cons_induction with
  | nil => rfl
  | cons other entry rest _ ih =>
      rw [identify_cons, Forest.find?_cons, Forest.find?_cons, ih]
      split_ifs <;> rfl

theorem lookup_identifyEntry (entry : Forest.Entry Leaf Unit) (names : List Bytes) :
    (identifyEntry entry).lookup names = (entry.lookup names).map identifyEntry := by
  induction names generalizing entry with
  | nil => rfl
  | cons name names ih =>
      cases entry with
      | leaf leaf => rfl
      | folder value members =>
          rw [identifyEntry, Forest.Entry.lookup, Forest.Entry.lookup, find?_identify]
          cases members.find? name with
          | none => rfl
          | some below => exact ih below

/-- Giving ids to the folders shows the same leaves and folders. -/
theorem lookup_identify (f : Forest Leaf Unit) (names : List Bytes) :
    (identify f).lookup names = (f.lookup names).map identifyEntry := by
  cases names with
  | nil => rfl
  | cons name names =>
      rw [Forest.lookup, Forest.lookup, find?_identify]
      cases f.find? name with
      | none => rfl
      | some below => exact lookup_identifyEntry below names

theorem spans_identify {f : Forest Leaf Unit} {leaves : List (List Bytes × Leaf)}
    (h : f.Spans leaves) : (identify f).Spans leaves := by
  constructor
  · intro names leaf
    rw [← h.leaf_iff, lookup_identify]
    rcases f.lookup names with _ | (_ | _) <;> simp [identifyEntry]
  · intro names
    rw [← h.folder_iff, lookup_identify]
    rcases f.lookup names with _ | (_ | _) <;> simp [identifyEntry]

/-- The tree of some leaves spans them, if none of their chains continues another one. -/
theorem spans_ofLeaves {leaves : List (List Bytes × Leaf)} (named : ∀ e ∈ leaves, e.1 ≠ [])
    (apart : leaves.Pairwise fun a b => Apart a.1 b.1) : (ofLeaves leaves).members.Spans leaves := by
  have hfold := Forest.spans_nil.foldl named apart () fun _ _ _ hd => absurd hd List.not_mem_nil
  rw [List.append_nil] at hfold
  exact spans_identify (hfold.congr fun _ => List.mem_reverse)

end Tree

end ThreeWay
