import ThreeWay.Proofs.Diff.Hierarchy
import ThreeWay.Proofs.Lists
import ThreeWay.Proofs.Run

/-!
# Listing Folder After Folder

What is reached from a variant by listing it, then the folders among its members, and so on. There are two
ways to say that. `Store.Reaches` is the relation, whatever the listings are, and `Store.allBelow` is the list
that a recursion down the folders comes to, as long as it is allowed to go down that far.

In a hierarchy the two have an answer by name: what is below a place is what longer chains of names lead to,
and a recursion that may go as deep as the hierarchy lists every such place once.

That a recursion comes to an end is part of what is shown: a hierarchy has a depth, and as many levels are enough.
The walk through a scanned tree and the difference of two roots are such recursions, and both are told apart from
a relation by nothing but their number of levels.

## Main definitions

* `Store.Reaches`: What is reached from a variant.
* `Store.allBelow`: The list of everything below a variant.

## Theorems

* `Store.exists_allBelow_of_reaches`: What is reached is listed where everything is.
* `Hierarchy.names_eq`: Of one place there is one chain of names.
* `Hierarchy.allBelow`: Everything below a place of a hierarchy is listed, each once.
* `Hierarchy.nodup_paths`, `Hierarchy.filter_path_eq`: Different places have different paths.
-/

namespace ThreeWay

open ThreeWay.Path Scanner

namespace Store

/-- What is reached from a variant by listing folders. -/
inductive Reaches (s : Store) (start : Variant) : Variant → Prop
  | start : Reaches s start start
  | member (f : Folder) (members : Option (List Variant)) (found : List Variant) (v : Variant)
      (folder : Reaches s start (.tree f members)) (listed : s.listed f members = .ok found)
      (mem : v ∈ found) : Reaches s start v

/-- Everything below a variant: its members, then everything below each of them. -/
def allBelow (s : Store) : Nat → Variant → Except Error (List Variant)
  | _, .blob _ => .ok []
  | 0, .tree f _ => .error (.tooDeep f.path.text)
  | levels + 1, .tree f members => do
    let found ← s.listed f members
    let deeper ← found.mapM (s.allBelow levels)
    return found ++ deeper.flatten

variable {s : Store} {start v : Variant} {f : Folder} {members : Option (List Variant)} {levels : Nat}
  {all : List Variant}

/-- A list of everything below a folder begins with its members and needs such a list of each of them. -/
theorem exists_listed_of_allBelow (h : s.allBelow levels (.tree f members) = .ok all) :
    ∃ found fewer, s.listed f members = .ok found ∧
      ∀ u ∈ found, ∃ below, s.allBelow fewer u = .ok below := by
  cases levels with
  | zero => cases h
  | succ fewer =>
      rw [allBelow] at h
      rcases Run.bind_eq_ok h with ⟨found, listed, h⟩
      rcases Run.bind_eq_ok h with ⟨deeper, hdeeper, _⟩
      refine ⟨found, fewer, listed, fun u hu => ?_⟩
      rcases (List.forall₂_of_mapM_eq_ok hdeeper).exists_mem_of_mem_left hu with ⟨below, _, hbelow⟩
      exact ⟨below, hbelow⟩

/-- Where everything below a variant is listed, so is everything below what is reached from it. -/
theorem exists_allBelow_of_reaches (h : s.allBelow levels start = .ok all) (reached : s.Reaches start v) :
    ∃ fewer below, s.allBelow fewer v = .ok below := by
  -- By the way from the start: each folder on it was listed with one level less than the one above.
  induction reached with
  | start => exact ⟨levels, all, h⟩
  | member f members found v _ listed mem ih =>
      rcases ih with ⟨_, _, hfolder⟩
      rcases exists_listed_of_allBelow hfolder with ⟨found', fewer, listed', each⟩
      rw [listed, Except.ok.injEq] at listed'
      rcases each v (listed' ▸ mem) with ⟨below, hbelow⟩
      exact ⟨fewer, below, hbelow⟩

end Store

namespace Hierarchy

variable {s : Store} {depth : Nat} {find : List Bytes → Option Variant} (h : Hierarchy s depth find)

include h

/-- Of one place there is one chain of names. -/
theorem names_eq {as bs : List Bytes} {v w : Variant} (ha : find as = some v) (hb : find bs = some w)
    (same : v.path = w.path) : as = bs := by
  refine pathOf_injective (h.named ha) (h.named hb) ?_
  rw [← h.place ha, ← h.place hb, same]

/-- The members of a folder and what is below each of them are apart, since their chains of names are. -/
theorem nodup_append_flatten {above : List Bytes} {found : List Variant}
    {below : Variant → List Variant} (distinct : found.Nodup)
    (place : ∀ u ∈ found, find (above ++ [Utf8.encode u.name]) = some u)
    (each : ∀ u ∈ found, (below u).Nodup)
    (deeper : ∀ u ∈ found, ∀ w ∈ below u, ∃ name more,
      find (above ++ [Utf8.encode u.name] ++ name :: more) = some w) :
    (found ++ (found.map below).flatten).Nodup := by
  -- Three things: each part is without repetitions, the parts below two members are apart, and no member is below
  -- another one.
  rw [List.nodup_append', List.nodup_flatten, List.pairwise_map]
  refine ⟨distinct, ⟨?_, ?_⟩, ?_⟩
  · intro all hall
    rcases List.mem_map.mp hall with ⟨u, hu, rfl⟩
    exact each u hu
  · refine distinct.imp_of_mem fun {u v} hu hv hne w hwu hwv => ?_
    rcases deeper u hu w hwu with ⟨_, _, hfu⟩
    rcases deeper v hv w hwv with ⟨_, _, hfv⟩
    -- Both chains lead to one variant, so they go through one member.
    have same := h.names_eq hfu hfv rfl
    rw [List.append_assoc, List.append_assoc, List.append_cancel_left_eq] at same
    have hfirst := List.cons.inj same
    have hu' := place u hu
    rw [hfirst.1, place v hv] at hu'
    exact hne (Option.some.inj hu').symm
  · intro w hw hflat
    rcases List.mem_flatten.mp hflat with ⟨all, hall, hwa⟩
    rcases List.mem_map.mp hall with ⟨u, hu, rfl⟩
    rcases deeper u hu w hwa with ⟨name, more, hfind⟩
    have same := h.names_eq (place w hw) hfind rfl
    -- A member has a chain that ends at its name, and what is below a member has a longer one.
    rw [List.append_assoc, List.append_cancel_left_eq] at same
    exact List.cons_ne_nil _ _ (List.cons.inj same).2.symm

/-- Everything below a place of a hierarchy is what longer chains of names lead to, and it is listed in
    full, each once. -/
theorem allBelow {levels : Nat} {above : List Bytes} {v : Variant} (hv : find above = some v)
    (deep : depth < above.length + levels) : ∃ all, s.allBelow levels v = .ok all ∧ all.Nodup ∧
      ∀ w, w ∈ all ↔ ∃ name more, find (above ++ name :: more) = some w := by
  induction levels generalizing above v with
  | zero =>
      cases v with
      | blob b =>
          refine ⟨[], rfl, List.nodup_nil, fun w => ?_⟩
          simp only [h.find_append_of_blob hv, reduceCtorEq, exists_false, List.not_mem_nil]
      | tree f members =>
          -- A folder is not as deep as the hierarchy, so a level is left for its members.
          have hd := h.deep hv
          omega
  | succ levels ih =>
      cases v with
      | blob b =>
          refine ⟨[], rfl, List.nodup_nil, fun w => ?_⟩
          simp only [h.find_append_of_blob hv, reduceCtorEq, exists_false, List.not_mem_nil]
      | tree f members =>
          rcases h.listing hv with ⟨found, listed, ordered, _⟩
          have place : ∀ u ∈ found, find (above ++ [Utf8.encode u.name]) = some u := fun u hu =>
            (h.mem_iff hv listed).mp hu
          have deeper : ∀ u ∈ found, ∃ all, s.allBelow levels u = .ok all ∧ all.Nodup ∧
              ∀ w, w ∈ all ↔ ∃ name more,
                find (above ++ [Utf8.encode u.name] ++ name :: more) = some w := by
            intro u hu
            refine ih (place u hu) ?_
            rw [List.length_append, List.length_singleton]
            omega
          -- Each member has a list of what is below it, and the lists are told as one function of the member.
          choose! below answers each reached using deeper
          refine ⟨found ++ (found.map below).flatten, ?_, ?_, fun w => ?_⟩
          · rw [Store.allBelow, listed, Run.ok_bind, List.mapM_eq_ok answers]
            rfl
          · exact h.nodup_append_flatten ordered.nodup place each fun u hu w hw =>
              (reached u hu w).mp hw
          · rw [List.mem_append, List.mem_flatten]
            simp only [List.mem_map, exists_exists_and_eq_and]
            -- A longer chain has one more name, which is the end of it or leads to a member with the rest below.
            constructor
            · rintro (hw | ⟨u, hu, hw⟩)
              · exact ⟨_, [], place w hw⟩
              · rcases (reached u hu w).mp hw with ⟨name, more, hfind⟩
                rw [List.append_assoc] at hfind
                exact ⟨_, name :: more, hfind⟩
            · rintro ⟨name, _ | ⟨next, more⟩, hfind⟩
              · exact Or.inl (h.mem_of_find hv listed hfind)
              · rw [List.append_cons] at hfind
                rcases h.exists_front hfind with ⟨u, hu⟩
                have hmem := h.mem_of_find hv listed hu
                rw [← h.name_eq hu] at hfind
                exact Or.inr ⟨u, hmem, (reached u hmem w).mpr ⟨next, more, hfind⟩⟩

/-- What stands somewhere in a hierarchy has a path of its own. -/
theorem nodup_paths {all : List Variant} (distinct : all.Nodup)
    (places : ∀ w ∈ all, ∃ names, find names = some w) : (all.map Variant.path).Nodup := by
  refine List.Nodup.map_on (fun v hv w hw same => ?_) distinct
  rcases places v hv with ⟨as, ha⟩
  rcases places w hw with ⟨bs, hb⟩
  rw [h.names_eq ha hb same, hb] at ha
  exact (Option.some.inj ha).symm

/-- So among such places it is the only one at its path. -/
theorem filter_path_eq {all : List Variant} (distinct : all.Nodup) {names : List Bytes} {v : Variant}
    (mem : v ∈ all) (found : find names = some v) (places : ∀ w ∈ all, ∃ names, find names = some w) :
    all.filter (·.path = pathOf names) = [v] := by
  refine List.perm_singleton.mp ((List.perm_ext_iff_of_nodup (distinct.filter _)
    (List.nodup_singleton v)).mpr fun w => ?_)
  rw [List.mem_filter, List.mem_singleton, decide_eq_true_iff]
  -- Two places with one path have one chain of names, and that leads to one variant.
  constructor
  · rintro ⟨hw, hpath⟩
    rcases places w hw with ⟨names', found'⟩
    have same := h.names_eq found' found (hpath.trans (h.place found).symm)
    rw [same, found] at found'
    exact (Option.some.inj found').symm
  · rintro rfl
    exact ⟨mem, h.place found⟩

end Hierarchy

end ThreeWay
