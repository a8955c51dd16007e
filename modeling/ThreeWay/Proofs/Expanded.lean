import Mathlib.Data.List.Infix
import ThreeWay.Proofs.Checkout.Staged
import ThreeWay.Proofs.Diff.Files
import ThreeWay.Proofs.Diff.Reached

/-!
# The Index as a Tree of Folders

An index is a flat list of entries, and its folders are made up while it is listed. Expanded from the root, it
becomes a tree: each folder is listed by itself, from the whole index over again, and none of these listings
knows of the others. Still nothing is lost between them and nothing comes twice. Below the root the tree has
every plain entry once, as a file, and once every folder on the way to a plain entry.

The tree and the list of everything below a folder are built from the same listings. A walk through the tree
goes down first, and the list has all members of a folder before what is below them; so they are the same up
to order (`sidesBelow_perm`), and what is known of the list of a hierarchy is known of its tree.

## Main definitions

* `DiffNode.sidesBelow`: What the nodes below a node stand for.

## Theorems

* `DiffNode.sidesBelow_eq`: What stands below a node are its children and what is below them.
* `sidesBelow_perm`: An expanded tree stands for what listing folder after folder lists.
* `exists_staged_blob_iff`, `exists_staged_tree_iff`: What is shown are the plain entries and the folders on the
  way to them.
* `expanded_index`: The tree of an index has its plain entries and the folders on the way to them.
-/

namespace ThreeWay

open ThreeWay.Path Scanner Run

/-- A variant, if it is a file. -/
def Variant.file? : Variant → Option Blob
  | .blob b => some b
  | .tree _ _ => none

theorem Variant.file?_eq_some_iff {v : Variant} {b : Blob} : v.file? = some b ↔ v = .blob b := by
  cases v with
  | blob c => rw [file?, Option.some.injEq, Variant.blob.injEq]
  | tree f members => exact iff_of_false (Option.some_ne_none b).symm Variant.noConfusion

namespace DiffNode

/-- What the nodes below a node stand for, in the order of a walk. -/
def sidesBelow (n : DiffNode) : List Variant :=
  n.walk.filterMap fun e => e.2.side?

/-- What stands below a node are its children, each followed by what stands below it. -/
theorem sidesBelow_eq (n : DiffNode) :
    n.sidesBelow = n.children.flatMap fun m => m.side?.toList ++ m.sidesBelow := by
  have below : ∀ m : DiffNode, m.sidesBelow = (m.walk.map Prod.snd).filterMap side? := by
    intro m
    rw [List.filterMap_map]
    rfl
  have each : ∀ m : DiffNode, m.nodes.filterMap side? = m.side?.toList ++ m.sidesBelow := by
    intro m
    rw [nodes, List.filterMap_cons, below]
    cases m.side? <;> rfl
  rw [below, walk, map_snd_walkFrom, List.filterMap_flatMap]
  simp only [each]

end DiffNode

/-! ### A Tree and a List -/

section

variable {s : Store} {kind : DiffKind} {levels : Nat} {v : Variant} {node : DiffNode}

/-- A node of one side stands for the variant that it was made for. -/
theorem side?_of_whole (h : Whole s kind v node) : node.side? = some v.detach := by
  cases h with
  | blob b => cases kind <;> rfl
  | tree f members found children listed below => cases kind <;> rfl

/-- The children of a folder stand for its members and what is below each of them. -/
theorem flatMap_sides_perm {found : List Variant} {children : List DiffNode}
    {deeper : List (List Variant)} (whole : List.Forall₂ (Whole s kind) found children)
    (below : List.Forall₂ (fun u all => s.allBelow levels u = .ok all) found deeper)
    (perm : ∀ u m all, Whole s kind u m → s.allBelow levels u = .ok all →
      m.sidesBelow.Perm (all.map Variant.detach)) :
    (children.flatMap fun m => m.side?.toList ++ m.sidesBelow).Perm
      ((found ++ deeper.flatten).map Variant.detach) := by
  induction whole generalizing deeper with
  | nil =>
      cases below
      exact List.Perm.nil
  | @cons u m found children hm whole ih =>
      rcases below with _ | ⟨hall, below⟩
      rename_i all deeper
      -- What is below the first member stands in front of the other members in the tree, and behind
      -- them in the list.
      have swapped : (all ++ (found ++ deeper.flatten)).Perm (found ++ (all ++ deeper.flatten)) :=
        List.perm_append_comm_assoc all found deeper.flatten
      rw [List.flatMap_cons, side?_of_whole hm, Option.toList_some, List.flatten_cons]
      simp only [List.cons_append, List.nil_append, List.map_cons]
      refine List.Perm.cons _ (((perm u m all hm hall).append (ih below)).trans ?_)
      rw [← List.map_append]
      exact swapped.map Variant.detach

/-- An expanded tree stands for what listing folder after folder lists. -/
theorem sidesBelow_perm {all : List Variant} (whole : Whole s kind v node)
    (hall : s.allBelow levels v = .ok all) : node.sidesBelow.Perm (all.map Variant.detach) := by
  have blob : ∀ b : Blob, (Differ.oneSided (.blob b) kind []).sidesBelow = [] := by
    intro b
    rw [DiffNode.sidesBelow_eq]
    cases kind <;> rfl
  -- On the levels of the list: the tree is known already, and it has as many.
  induction levels generalizing v node all with
  | zero =>
      cases whole with
      | blob b =>
          cases hall
          rw [blob]
          exact List.Perm.nil
      | tree f members found children listed below => cases hall
  | succ levels ih =>
      cases whole with
      | blob b =>
          cases hall
          rw [blob]
          exact List.Perm.nil
      | tree f members found children listed below =>
          rw [Store.allBelow] at hall
          rcases bind_eq_ok hall with ⟨found', listed', hall⟩
          rcases bind_eq_ok hall with ⟨deeper, hdeeper, hall⟩
          cases Except.ok.inj (listed.symm.trans listed')
          cases hall
          have hchildren : (Differ.oneSided (.tree f members) kind children).children = children := by
            cases kind <;> rfl
          rw [DiffNode.sidesBelow_eq, hchildren]
          exact flatMap_sides_perm below (List.forall₂_of_mapM_eq_ok hdeeper) fun u m all hm hall =>
            ih hm hall

end

/-! ### The Index -/

namespace Checkout

variable {index : Index} {names : List Bytes} {v : Variant}

/-- What is shown somewhere is listed without members. -/
theorem detach_of_staged (hv : staged index names = some v) : v.detach = v := by
  rcases cases_of_staged hv with ⟨e, _, _, rfl⟩ | ⟨rfl, _⟩
  · rfl
  · rfl

/-- A file is shown exactly where a plain entry is. -/
theorem exists_staged_blob_iff (h : index.WellFormed) {b : Blob} :
    (∃ name more, staged index (name :: more) = some (.blob b)) ↔ ∃ e ∈ index.plain, stagedFile e = b := by
  constructor
  · rintro ⟨name, more, hv⟩
    rcases cases_of_staged hv with ⟨e, he, _, hb⟩ | ⟨hb, _⟩
    · exact ⟨e, he, (Variant.blob.inj hb).symm⟩
    · cases hb
  · rintro ⟨e, he, rfl⟩
    rcases List.exists_cons_of_ne_nil e.names_ne_nil with ⟨name, more, hn⟩
    exact ⟨name, more, hn ▸ staged_of_plain h he⟩

/-- A folder is shown exactly on the way to a plain entry. -/
theorem exists_staged_tree_iff (h : index.WellFormed) {f : Folder} {ms : Option (List Variant)} :
    (∃ name more, staged index (name :: more) = some (.tree f ms)) ↔
      ms = none ∧ ∃ e ∈ index.plain, ∃ above, above ≠ [] ∧ above <+: e.names ∧ above ≠ e.names ∧
        f = .at (pathOf above) .index := by
  constructor
  · rintro ⟨name, more, hv⟩
    rcases cases_of_staged hv with ⟨_, _, _, hf⟩ | ⟨hf, hroot | ⟨e, he, next, rest, hn⟩⟩
    · cases hf
    · cases hroot
    · rw [Variant.ofFolder, Variant.tree.injEq] at hf
      have hne : name :: more ≠ e.names := by
        rw [hn]
        exact fun hs => List.cons_ne_nil next rest (List.self_eq_append_right.mp hs)
      exact ⟨hf.2, e, he, _, List.cons_ne_nil _ _, hn ▸ List.prefix_append _ _, hne, hf.1⟩
  · rintro ⟨rfl, e, he, above, ha, hpre, hne, rfl⟩
    rcases List.exists_cons_of_ne_nil ha with ⟨name, more, rfl⟩
    rcases IndexEntry.eq_or_below hpre with hn | ⟨next, rest, hn⟩
    · exact absurd hn.symm hne
    · exact ⟨name, more, staged_of_below h he hn⟩

/-- Different plain entries are shown as different files. -/
theorem nodup_stagedFiles (h : index.WellFormed) : (index.plain.map stagedFile).Nodup := by
  refine List.Nodup.map_on (fun e he f hf same => ?_) (h.ordered.sublist List.filter_sublist).nodup
  -- A file tells the place of its entry, and entries with one place are one entry.
  have hplace : e.place = f.place := congrArg Blob.path same
  rw [e.place_eq, f.place_eq] at hplace
  rw [Index.mem_plain] at he hf
  exact h.eq_of_names he.1 hf.1 (he.2.trans hf.2.symm)
    (pathOf_injective (h.isName he.1) (h.isName hf.1) hplace)

/-- Expanded from the root, an index has below it, at different paths, every plain entry once, as a file with
    its path and id, and every folder on the way to a plain entry; and it has nothing else. -/
theorem expanded_index (c : Checkout) (h : c.repository.index.WellFormed) (byteCompare : Bool)
    {signal : Option Signal} (quiet : Signal.IsQuiet signal) (kind : DiffKind) {levels : Nat}
    (deep : c.depthBound .index ≤ levels) :
    ∃ node, ((Differ.mk ⟨c.store, byteCompare⟩ signal).expandRoot levels kind
        (.ofFolder (.at .root .index))).outcome = .ok node ∧
      (node.sidesBelow.map Variant.path).Nodup ∧
      (node.sidesBelow.filterMap Variant.file?).Perm (c.repository.index.plain.map stagedFile) ∧
      ∀ f ms, .tree f ms ∈ node.sidesBelow ↔ ms = none ∧ ∃ e ∈ c.repository.index.plain,
        ∃ above, above ≠ [] ∧ above <+: e.names ∧ above ≠ e.names ∧ f = .at (pathOf above) .index := by
  have hierarchy := hierarchy_staged h c rfl
  have hroot := staged_root c.repository.index
  rw [depthBound] at deep
  -- As many levels as the deepest entry has names are enough for both.
  have bound : (c.repository.index.map (·.names.length)).foldl max 0 < ([] : List Bytes).length + levels := by
    rw [List.length_nil]
    omega
  -- The tree exists, and it stands for what the hierarchy lists.
  let d : Differ := ⟨⟨c.store, byteCompare⟩, signal⟩
  rcases d.expand_gives quiet kind (hierarchy.wellListed hroot bound) le_rfl with ⟨node, hnode⟩
  have hrun : Gives (d.expandRoot levels kind (.ofFolder (.at .root .index))) (.ok node) :=
    (Gives.ofExcept (.ok ())).bind hnode
  rcases hierarchy.allBelow hroot bound with ⟨all, hall, distinct, hmem⟩
  have same : node.sidesBelow.Perm all := by
    have perm := sidesBelow_perm (Differ.expand_whole hnode.returns) hall
    rwa [List.map_congr_left (g := id) fun v hv => ?_, List.map_id] at perm
    rcases (hmem v).mp hv with ⟨name, more, hfind⟩
    exact detach_of_staged hfind
  have hside : ∀ v, v ∈ node.sidesBelow ↔ ∃ name more, staged c.repository.index (name :: more) = some v :=
    fun v => same.mem_iff.trans (hmem v)
  -- Both lists are sets, so it is enough that they have the same members.
  have apart : (node.sidesBelow.map Variant.path).Nodup :=
    (same.map _).nodup_iff.mpr (hierarchy.nodup_paths distinct fun w hw => by
      rcases (hmem w).mp hw with ⟨name, more, hfind⟩
      exact ⟨_, hfind⟩)
  refine ⟨node, hrun.outcome, apart, ?_, fun f ms => (hside _).trans (exists_staged_tree_iff h)⟩
  refine (List.perm_ext_iff_of_nodup ?_ (nodup_stagedFiles h)).mpr fun b => ?_
  · refine (same.nodup_iff.mpr distinct).filterMap fun v w b hv hw => ?_
    rw [Variant.file?_eq_some_iff.mp hv, Variant.file?_eq_some_iff.mp hw]
  · simp only [List.mem_filterMap, Variant.file?_eq_some_iff, exists_eq_right, hside, List.mem_map]
    exact exists_staged_blob_iff h

/-! ### Names That Begin Alike -/

namespace Sample

/-- The entries of a folder and of two files whose paths begin like it, one in front of what is in the folder
    and one behind; and what an unfinished merge has left of a path in another folder. -/
def alike : Index :=
  [⟨Utf8.encode "a-b", 0, .regular, .ofBlob [1]⟩, ⟨Utf8.encode "a/b/c", 0, .regular, .ofBlob [2]⟩,
    ⟨Utf8.encode "a/d", 0, .executable, .ofBlob [3]⟩, ⟨Utf8.encode "a0", 0, .regular, .ofBlob [1]⟩,
    ⟨Utf8.encode "e/f", 2, .regular, .ofBlob [4]⟩, ⟨Utf8.encode "e/f", 3, .regular, .ofBlob [5]⟩]

/-- A checkout with that index. -/
def crowded : Checkout where
  disk := ⟨[Utf8.encode "w"], .nil⟩
  root := .ofString "/w"
  repository := {
    objects := []
    index := alike
    references := []
    head := .branch "refs/heads/main"
    log := [] }
  settings := Settings.default

theorem wellFormed_alike : crowded.repository.index.WellFormed :=
  ⟨by decide +kernel, by decide +kernel, by decide +kernel⟩

end Sample

open Checkout.Sample in
/-- Two folders are on the way to plain entries, and the folder of the unfinished merge is not one of them. -/
theorem expanded_index_of_alike : crowded.repository.index.WellFormed ∧
    Signal.IsQuiet none ∧ crowded.depthBound .index ≤ 5 ∧
    ∃ node, ((Differ.mk ⟨crowded.store, false⟩ none).expandRoot 5 .addition
        (.ofFolder (.at .root .index))).outcome = .ok node ∧
      (node.sidesBelow.filterMap Variant.file?).Perm ((alike.take 4).map stagedFile) ∧
      ∀ f ms, .tree f ms ∈ node.sidesBelow ↔ ms = none ∧
        (f = .at (pathOf [Utf8.encode "a"]) .index ∨
          f = .at (pathOf [Utf8.encode "a", Utf8.encode "b"]) .index) := by
  have quiet : Signal.IsQuiet none := nofun
  have deep : crowded.depthBound .index ≤ 5 := by decide +kernel
  have hplain : crowded.repository.index.plain = alike.take 4 := by decide +kernel
  rcases expanded_index crowded wellFormed_alike false quiet .addition deep with
    ⟨node, hnode, _, files, folders⟩
  rw [hplain] at files
  refine ⟨wellFormed_alike, quiet, deep, node, hnode, files, fun f ms => (folders f ms).trans ?_⟩
  rw [hplain]
  -- The fronts of the four paths can be counted.
  have only : ∀ e ∈ alike.take 4, ∀ above ∈ e.names.inits, above ≠ [] → above ≠ e.names →
      above = [Utf8.encode "a"] ∨ above = [Utf8.encode "a", Utf8.encode "b"] := by decide +kernel
  have first : ∃ e ∈ alike.take 4, [Utf8.encode "a"] <+: e.names ∧ [Utf8.encode "a"] ≠ e.names := by
    decide +kernel
  have second : ∃ e ∈ alike.take 4, [Utf8.encode "a", Utf8.encode "b"] <+: e.names ∧
      [Utf8.encode "a", Utf8.encode "b"] ≠ e.names := by decide +kernel
  refine and_congr_right fun _ => ⟨?_, ?_⟩
  · rintro ⟨e, he, above, ha, hpre, hne, rfl⟩
    rcases only e he above ((List.mem_inits above e.names).mpr hpre) ha hne with rfl | rfl
    · exact Or.inl rfl
    · exact Or.inr rfl
  · rintro (rfl | rfl)
    · rcases first with ⟨e, he, hpre, hne⟩
      exact ⟨e, he, _, List.cons_ne_nil _ _, hpre, hne, rfl⟩
    · rcases second with ⟨e, he, hpre, hne⟩
      exact ⟨e, he, _, List.cons_ne_nil _ _, hpre, hne, rfl⟩

end Checkout

end ThreeWay
