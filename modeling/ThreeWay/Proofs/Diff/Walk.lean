import Mathlib.Data.List.Forall2
import Mathlib.Data.List.TakeWhile
import ThreeWay.CommandLine.Execute

/-!
# The Walk Through a Difference

A difference is a tree and is told as a list: its nodes with their depths, each before what lies below it.

A node has an *address*, the positions of the children that lead to it. Addresses say what the list has to be. It
has one entry for each address but the empty one, the entries are in the order of words in a dictionary, and the
depth of an entry is one less than the length of its address. In that order an address comes before those that
continue it, and whatever continues it comes before the addresses of later siblings.

Nothing is lost by telling a tree so. What lies below a node is told right behind it, with greater depths, up to
the next entry that has no greater depth, so the list falls apart into the lists of the children in one way only.
Without the depths it would not: a folder with a file in it and an empty folder next to a file are told by the same
nodes.

What is printed is said of the text and not of the code that makes it. Each line of a report has a shape, which
names the node that it is for, and the text is these lines with a line break behind each. Colours are left open:
with them a text stands in some style, and without them it stands as it is.

## Main definitions

* `DiffNode.descend?`: The node at an address.
* `DiffNode.visits`: The nodes below a node with their addresses.
* `DiffNode.label`: What a node is, its children aside.
* `DiffNode.rows`: The nodes that a report has lines for, with their levels.
* `Ink.IsRow`: What the line of a node has to be.
* `Ink.Announces`: What the lines of a report have to be.

## Theorems

* `mem_visits_iff`, `pairwise_visits`: Every address is visited once, in order.
* `walk_eq_visits`: The walk meets the nodes at the addresses, at their depths.
* `walkFrom_eq_visits`, `length_walkFrom`: The same below any node, from its depth on.
* `length_walk`: It has as many entries as there are nodes.
* `takeWhile_walk`: What lies below a node ends where the depth says so.
* `eq_of_walk`: The tree is read back from it.
* `Ink.isRow_rows`: The lines of the nodes have the shape of lines.
* `announces_difference`: A report has a line for each of the differences that it counts.
* `Host.execute_diff`: What is printed are the lines of a report.
* `walk_faithful`: All of this, for every tree.
-/

namespace ThreeWay

namespace DiffNode

/-- The node at an address: the positions of the children to take, one after the other. -/
def descend? (n : DiffNode) : List Nat → Option DiffNode
  | [] => some n
  | i :: rest => n.children[i]?.bind (descend? · rest)

mutual

/-- The nodes below a node with their addresses, which continue the address of the node. -/
def visitsFrom (above : List Nat) : DiffNode → List (List Nat × DiffNode)
  | ⟨_, _, _, children⟩ => visitsList above 0 children

/-- The nodes at and below the nodes of a list, which stand from a position on. -/
def visitsList (above : List Nat) (i : Nat) : List DiffNode → List (List Nat × DiffNode)
  | [] => []
  | n :: rest => (above ++ [i], n) :: visitsFrom (above ++ [i]) n ++ visitsList above (i + 1) rest

end

/-- The nodes below a node with their addresses. -/
def visits (n : DiffNode) : List (List Nat × DiffNode) :=
  visitsFrom [] n

/-- What a node is, its children aside. -/
def label (n : DiffNode) : Option Variant × Option Variant × DiffKind :=
  (n.left, n.right, n.kind)

/-! ### Addresses -/

section

variable {a : List Nat} {m : DiffNode}

mutual

theorem mem_visitsFrom_iff (above : List Nat) (n : DiffNode) : (a, m) ∈ visitsFrom above n ↔
    ∃ rest, rest ≠ [] ∧ a = above ++ rest ∧ n.descend? rest = some m := by
  -- The two recursions go along each other, as the visits of a node and of a list do.
  rcases n with ⟨left, right, kind, children⟩
  rw [visitsFrom, mem_visitsList_iff]
  constructor
  · rintro ⟨j, rest, child, ha, hchild, hm⟩
    rw [Nat.zero_add] at ha
    refine ⟨j :: rest, List.cons_ne_nil _ _, ha, ?_⟩
    rw [descend?, hchild]
    exact hm
  · rintro ⟨rest, hne, ha, hm⟩
    cases rest with
    | nil => exact absurd rfl hne
    | cons j rest =>
        rw [descend?, Option.bind_eq_some_iff] at hm
        rcases hm with ⟨child, hchild, hm⟩
        exact ⟨j, rest, child, by rw [ha, Nat.zero_add], hchild, hm⟩

theorem mem_visitsList_iff (above : List Nat) (i : Nat) (ns : List DiffNode) : (a, m) ∈ visitsList above i ns ↔
    ∃ j rest child, a = above ++ (i + j) :: rest ∧ ns[j]? = some child ∧ child.descend? rest = some m := by
  rcases ns with _ | ⟨n, ns⟩
  · rw [visitsList]
    refine iff_of_false List.not_mem_nil ?_
    rintro ⟨j, rest, child, _, hchild, _⟩
    cases hchild
  · rw [visitsList, List.mem_append, List.mem_cons, mem_visitsFrom_iff, mem_visitsList_iff above (i + 1) ns,
      Prod.mk.injEq]
    constructor
    -- The first node itself, something below it, or something at or below a later sibling.
    · rintro ((⟨rfl, rfl⟩ | ⟨rest, hne, rfl, hm⟩) | ⟨j, rest, child, rfl, hchild, hm⟩)
      · exact ⟨0, [], m, rfl, rfl, rfl⟩
      · exact ⟨0, rest, n, by rw [List.append_assoc]; rfl, rfl, hm⟩
      · exact ⟨j + 1, rest, child, by rw [Nat.add_right_comm, Nat.add_assoc], hchild, hm⟩
    · rintro ⟨j, rest, child, rfl, hchild, hm⟩
      -- The position says which of the three it is: the first node has the position zero.
      cases j with
      | succ j => exact Or.inr ⟨j, rest, child, by rw [Nat.add_right_comm, Nat.add_assoc], hchild, hm⟩
      | zero =>
          cases hchild
          cases rest with
          | nil =>
              cases hm
              exact Or.inl (Or.inl ⟨rfl, rfl⟩)
          | cons k rest =>
              exact Or.inl (Or.inr ⟨k :: rest, List.cons_ne_nil _ _, by rw [List.append_assoc]; rfl, hm⟩)

end

/-- Every address below a node is visited, and nothing else. -/
theorem mem_visits_iff {n : DiffNode} : (a, m) ∈ n.visits ↔ a ≠ [] ∧ n.descend? a = some m := by
  rw [visits, mem_visitsFrom_iff]
  constructor
  · rintro ⟨rest, hne, rfl, hm⟩
    exact ⟨hne, hm⟩
  · rintro ⟨hne, hm⟩
    exact ⟨a, hne, rfl, hm⟩

end

mutual

theorem pairwise_visitsFrom (above : List Nat) (n : DiffNode) :
    (visitsFrom above n).Pairwise fun v w => v.1 < w.1 := by
  rcases n with ⟨left, right, kind, children⟩
  rw [visitsFrom]
  exact pairwise_visitsList above 0 children

theorem pairwise_visitsList (above : List Nat) (i : Nat) (ns : List DiffNode) :
    (visitsList above i ns).Pairwise fun v w => v.1 < w.1 := by
  rcases ns with _ | ⟨n, ns⟩
  · rw [visitsList]
    exact .nil
  · -- Everything at and below a node comes before its later siblings and what lies below them.
    have later : ∀ rest, ∀ w ∈ visitsList above (i + 1) ns, above ++ i :: rest < w.1 := by
      rintro rest ⟨a, m⟩ hw
      rcases (mem_visitsList_iff above (i + 1) ns).mp hw with ⟨j, other, _, rfl, _, _⟩
      exact List.append_left_lt (List.cons_lt_cons_iff.mpr (Or.inl (by omega)))
    have below : ∀ w ∈ visitsFrom (above ++ [i]) n, ∃ k rest, w.1 = above ++ i :: k :: rest := by
      rintro ⟨a, m⟩ hw
      rcases (mem_visitsFrom_iff (above ++ [i]) n).mp hw with ⟨_ | ⟨k, rest⟩, hne, rfl, _⟩
      · exact absurd rfl hne
      · exact ⟨k, rest, List.append_assoc above [i] (k :: rest)⟩
    rw [visitsList, List.pairwise_append, List.pairwise_cons]
    refine ⟨⟨fun w hw => ?_, pairwise_visitsFrom (above ++ [i]) n⟩, pairwise_visitsList above (i + 1) ns, ?_⟩
    · rcases below w hw with ⟨k, rest, heq⟩
      rw [heq]
      exact List.append_left_lt (List.cons_lt_cons_iff.mpr (Or.inr ⟨rfl, List.nil_lt_cons _ _⟩))
    · intro v hv w hw
      rcases List.mem_cons.mp hv with rfl | hv
      · exact later [] w hw
      · rcases below v hv with ⟨k, rest, heq⟩
        rw [heq]
        exact later (k :: rest) w hw

end

/-- The addresses come in the order of a dictionary, and none of them twice. -/
theorem pairwise_visits (n : DiffNode) : n.visits.Pairwise fun v w => v.1 < w.1 :=
  pairwise_visitsFrom [] n

mutual

theorem walkFrom_eq_visits (above : List Nat) (n : DiffNode) :
    walkFrom above.length n = (visitsFrom above n).map fun v => (v.1.length - 1, v.2) := by
  rcases n with ⟨left, right, kind, children⟩
  rw [walkFrom, visitsFrom, walkList_eq_visits above 0 children]

theorem walkList_eq_visits (above : List Nat) (i : Nat) (ns : List DiffNode) :
    walkList above.length ns = (visitsList above i ns).map fun v => (v.1.length - 1, v.2) := by
  rcases ns with _ | ⟨n, ns⟩
  · rw [walkList, visitsList, List.map_nil]
  -- A node is visited at its address, which is one longer than the one above, so the depth is the length of that one.
  · have longer : (above ++ [i]).length = above.length + 1 := List.length_append
    have hbelow := walkFrom_eq_visits (above ++ [i]) n
    rw [longer] at hbelow
    rw [walkList, visitsList, List.map_append, List.map_cons, ← hbelow, ← walkList_eq_visits above (i + 1) ns, longer,
      Nat.add_sub_cancel]

end

/-- The walk meets the nodes in the order of their addresses, each at its depth. -/
theorem walk_eq_visits (n : DiffNode) : n.walk = n.visits.map fun v => (v.1.length - 1, v.2) :=
  walkFrom_eq_visits [] n

mutual

theorem length_walkFrom (depth : Nat) (n : DiffNode) : (walkFrom depth n).length = n.size := by
  rcases n with ⟨left, right, kind, children⟩
  rw [walkFrom, size, length_walkList]

theorem length_walkList (depth : Nat) (ns : List DiffNode) : (walkList depth ns).length = sizeList ns := by
  rcases ns with _ | ⟨n, ns⟩
  · rw [walkList, sizeList, List.length_nil]
  -- One entry for the node, and as many as there are nodes below it and behind it.
  · rw [walkList, sizeList, List.length_append, List.length_cons, length_walkFrom, length_walkList]
    omega

end

/-- The walk has as many entries as there are nodes below the root. -/
theorem length_walk (n : DiffNode) : n.walk.length = n.size :=
  length_walkFrom 0 n

/-! ### Reading a Tree Back -/

/-- An entry of a walk, the children of its node aside. -/
def tag (entry : Nat × DiffNode) : Nat × Option Variant × Option Variant × DiffKind :=
  (entry.1, entry.2.label)

mutual

theorem depth_le_of_mem_walkFrom {e : Nat × DiffNode} (depth : Nat) (n : DiffNode) (h : e ∈ walkFrom depth n) :
    depth ≤ e.1 := by
  rcases n with ⟨left, right, kind, children⟩
  rw [walkFrom] at h
  exact depth_le_of_mem_walkList depth children h

theorem depth_le_of_mem_walkList {e : Nat × DiffNode} (depth : Nat) (ns : List DiffNode)
    (h : e ∈ walkList depth ns) : depth ≤ e.1 := by
  rcases ns with _ | ⟨n, ns⟩
  · rw [walkList] at h
    exact absurd h List.not_mem_nil
  · rw [walkList, List.mem_append, List.mem_cons] at h
    rcases h with (rfl | h) | h
    · exact le_refl depth
    · exact Nat.le_of_succ_le (depth_le_of_mem_walkFrom (depth + 1) n h)
    · exact depth_le_of_mem_walkList depth ns h

end

/-- What lies below a node ends before the first entry that is no deeper than the node. -/
theorem takeWhile_walk (depth : Nat) (n : DiffNode) (ns : List DiffNode) :
    ((walkFrom (depth + 1) n).map tag ++ (walkList depth ns).map tag).takeWhile (depth < ·.1) =
      (walkFrom (depth + 1) n).map tag := by
  have deeper : ∀ e ∈ (walkFrom (depth + 1) n).map tag, decide (depth < e.1) = true := by
    intro e he
    rcases List.mem_map.mp he with ⟨entry, hentry, rfl⟩
    exact decide_eq_true (depth_le_of_mem_walkFrom (depth + 1) n hentry)
  -- A sibling has the depth of the node itself, so nothing of it is taken.
  have sibling : ((walkList depth ns).map tag).takeWhile (depth < ·.1) = [] := by
    cases ns with
    | nil => rw [walkList, List.map_nil, List.takeWhile_nil]
    | cons other ns =>
        rw [walkList, List.cons_append, List.map_cons]
        exact List.takeWhile_cons_of_neg (by simp [tag])
  rw [List.takeWhile_append_of_pos deeper, sibling, List.append_nil]

mutual

theorem eq_of_walkFrom (depth : Nat) (m n : DiffNode) (root : m.label = n.label)
    (same : (walkFrom depth m).map tag = (walkFrom depth n).map tag) : m = n := by
  rcases m with ⟨left, right, kind, below⟩
  rcases n with ⟨left', right', kind', below'⟩
  rw [walkFrom, walkFrom] at same
  rw [label, label, Prod.mk.injEq, Prod.mk.injEq] at root
  rw [DiffNode.mk.injEq]
  exact ⟨root.1, root.2.1, root.2.2, eq_of_walkList depth below below' same⟩

theorem eq_of_walkList (depth : Nat) (ms ns : List DiffNode)
    (same : (walkList depth ms).map tag = (walkList depth ns).map tag) : ms = ns := by
  rcases ms with _ | ⟨m, ms⟩
  · rcases ns with _ | ⟨n, ns⟩
    · rfl
    · rw [walkList, walkList] at same
      cases same
  · rcases ns with _ | ⟨n, ns⟩
    · rw [walkList, walkList] at same
      cases same
    · rw [walkList, walkList, List.cons_append, List.cons_append, List.map_cons, List.map_cons, List.cons.injEq,
        List.map_append, List.map_append] at same
      -- The depths say where the nodes below the first one end and its siblings begin.
      have hbelow := congrArg (List.takeWhile (depth < ·.1)) same.2
      rw [takeWhile_walk, takeWhile_walk] at hbelow
      have hrest := same.2
      rw [hbelow, List.append_cancel_left_eq] at hrest
      rw [eq_of_walkFrom (depth + 1) m n (congrArg Prod.snd same.1) hbelow, eq_of_walkList depth ms ns hrest]

end

/-- A tree is read back from its root and its walk. -/
theorem eq_of_walk {m n : DiffNode} (root : m.label = n.label) (same : m.walk.map tag = n.walk.map tag) : m = n :=
  eq_of_walkFrom 0 m n root same

/-! ### Reports -/

/-- The nodes that a report has lines for, with their levels. If both sides are folders, the root is not one of
    them. -/
def rows (n : DiffNode) : List (Nat × DiffNode) :=
  if n.left.any Variant.isTree && n.right.any Variant.isTree then n.walk
  else (0, n) :: n.walk.map fun e => (e.1 + 1, e.2)

end DiffNode

/-- The sign of a difference. -/
def DiffKind.sign : DiffKind → String
  | .addition => "+"
  | .deletion => "-"
  | .change => "~"

namespace Ink

/-- What a text is shown as: the text in a style where styles are used, and else the text itself. -/
def Shows (ink : Ink) (text shown : String) : Prop :=
  ∃ style : Style, shown = if ink.coloured then style.apply text else text

/-- What the line of a node at a level is: blanks for the level, the sign of the difference and the name of the node,
    with a slash behind the name of a folder. -/
def IsRow (ink : Ink) (entry : Nat × DiffNode) (line : String) : Prop :=
  ∃ sign name, ink.Shows entry.2.kind.sign sign ∧
    ink.Shows (if entry.2.isTree then entry.2.name ++ "/" else entry.2.name) name ∧
    line = String.ofList (List.replicate (2 * (entry.1 + 1)) ' ') ++ (sign ++ " " ++ name)

/-- What the lines of a report on a difference have to be. Behind a title and an empty line there is the message that
    nothing differs, if both sides are folders without a difference below them, and else one line for each node
    that counts, an empty line and the number of these lines. -/
def Announces (ink : Ink) (n : DiffNode) (lines : List String) : Prop :=
  ∃ title body, lines = title :: "" :: body ∧
    if n.left.any Variant.isTree = true ∧ n.right.any Variant.isTree = true ∧ n.children = [] then
      ∃ good, ink.Shows "OK" good ∧ body = [good ++ " No differences."]
    else ∃ rows, List.Forall₂ ink.IsRow n.rows rows ∧ body = rows ++ ["", s!"{rows.length} difference(s)"]

theorem shows_paint (ink : Ink) (style : Style) (text : String) : ink.Shows text (ink.paint style text) :=
  ⟨style, rfl⟩

/-- The line of a node at a level. -/
def row (ink : Ink) (entry : Nat × DiffNode) : String :=
  String.ofList (List.replicate (2 * (entry.1 + 1)) ' ') ++ ink.node entry.2

theorem isRow_row (ink : Ink) (entry : Nat × DiffNode) : ink.IsRow entry (ink.row entry) := by
  rcases entry with ⟨level, ⟨left, right, kind, children⟩⟩
  cases kind with
  | addition => exact ⟨_, _, ink.shows_paint _ _, ink.shows_paint _ _, rfl⟩
  | deletion => exact ⟨_, _, ink.shows_paint _ _, ink.shows_paint _ _, rfl⟩
  | change => exact ⟨_, _, ink.shows_paint _ _, ink.shows_paint _ _, rfl⟩

/-- The lines of the nodes that count are a line for each of them. -/
theorem isRow_rows (ink : Ink) (entries : List (Nat × DiffNode)) :
    List.Forall₂ ink.IsRow entries (entries.map ink.row) :=
  List.forall₂_map_right_iff.mpr (List.forall₂_same.mpr fun entry _ => ink.isRow_row entry)

/-- A report on a difference announces as many differences as it has lines for. -/
theorem announces_difference (ink : Ink) (n : DiffNode) (path : Path) (left right : Revision) :
    ink.Announces n (ink.difference n path left right) := by
  have hempty : n.isEmpty = true ↔ n.children = [] := List.isEmpty_iff
  rw [difference]
  -- The root has a line of its own unless both sides are folders, and only then is there a message instead of lines.
  by_cases both : (n.left.any Variant.isTree && n.right.any Variant.isTree) = true
  · have hrows : n.rows = n.walk := if_pos both
    rw [if_pos both]
    rw [Bool.and_eq_true] at both
    by_cases same : n.children = []
    · rw [if_pos (hempty.mpr same)]
      refine ⟨_, _, rfl, ?_⟩
      rw [if_pos ⟨both.1, both.2, same⟩]
      exact ⟨_, ink.shows_paint _ "OK", rfl⟩
    · rw [if_neg (mt hempty.mp same), List.append_assoc]
      refine ⟨_, _, rfl, ?_⟩
      rw [if_neg fun h => same h.2.2]
      refine ⟨_, ink.isRow_rows n.rows, ?_⟩
      rw [hrows, List.length_map, DiffNode.length_walk]
      rfl
  · have hrows : n.rows = (0, n) :: n.walk.map fun e => (e.1 + 1, e.2) := if_neg both
    rw [if_neg both, List.append_assoc, List.append_assoc]
    rw [Bool.and_eq_true] at both
    refine ⟨_, _, rfl, ?_⟩
    rw [if_neg fun h => both ⟨h.1, h.2.1⟩]
    refine ⟨_, ink.isRow_rows n.rows, ?_⟩
    rw [hrows, List.length_map, List.length_cons, List.length_map, DiffNode.length_walk, List.map_cons, List.map_map]
    rfl

end Ink

namespace Host

/-- The text that answers a request for a difference, if it is not to be in JSON: the lines of the report, each with
    a line break behind it. -/
theorem execute_diff {ink : Ink} {s : Synchronizer} {path : Option String} {left : Revision}
    {right : Option Revision} {n : DiffNode}
    (found : (s.diff (.ofString (path.getD "")) left (right.getD s.settings.sourceRevision)).outcome = .ok n) :
    ∃ lines, execute ink s (.diff path left right false) = .ok (String.join (lines.map (· ++ "\n"))) ∧
      ink.Announces n lines := by
  refine ⟨_, ?_, ink.announces_difference n (.ofString (path.getD "")) left (right.getD s.settings.sourceRevision)⟩
  rw [execute, found]
  rfl

end Host

namespace DiffNode

/-- The walk through a difference tells the tree, and so does a report. Every address below the root is visited,
    each of them once, in the order of addresses and at its depth. There are as many visits as nodes. A tree is
    read back from its root and its walk. A report announces as many differences as it has lines for, and the
    text that is printed are the lines of such a report, each with a line break behind it. -/
theorem walk_faithful (n : DiffNode) :
    (∀ a m, (a, m) ∈ n.visits ↔ a ≠ [] ∧ n.descend? a = some m) ∧
    n.visits.Pairwise (fun v w => v.1 < w.1) ∧
    n.walk = n.visits.map (fun v => (v.1.length - 1, v.2)) ∧
    n.walk.length = n.size ∧
    (∀ m : DiffNode, m.label = n.label → m.walk.map tag = n.walk.map tag → m = n) ∧
    (∀ (ink : Ink) path left right, ink.Announces n (ink.difference n path left right)) ∧
    ∀ (ink : Ink) (s : Synchronizer) path left right,
      (s.diff (.ofString (path.getD "")) left (right.getD s.settings.sourceRevision)).outcome = .ok n →
      ∃ lines, Host.execute ink s (.diff path left right false) = .ok (String.join (lines.map (· ++ "\n"))) ∧
        ink.Announces n lines := by
  refine ⟨fun a m => mem_visits_iff, n.pairwise_visits, n.walk_eq_visits, n.length_walk, fun m => eq_of_walk,
    fun ink => ink.announces_difference n, ?_⟩
  intro ink s path left right found
  exact Host.execute_diff found

namespace Sample

/-- The index has a file in a folder, and nothing was committed yet. -/
def indexed : Synchronizer where
  checkout := {
    disk := ⟨[], .nil⟩
    root := .ofString "/"
    repository := { Repository.empty "main" with index := [⟨Utf8.encode "d/f", 0, .regular, ⟨"1"⟩⟩] }
    settings := Settings.default }
  signal := none

/-- The file as it was staged. -/
def stagedFile : Variant :=
  .blob { Blob.at (.ofString "d/f") .index with contentId := some ⟨"1"⟩ }

/-- What the index has and the last commit has not. -/
def addedFolder : DiffNode :=
  .make (some (.ofFolder (.at (.ofString "d") .index))) none .addition [.make (some stagedFile) none .addition []]

/-- The same, of a folder that has listed its members. -/
def listedFolder : DiffNode :=
  .make (some (.tree (.at (.ofString "d") .index) (some [stagedFile]))) none .addition
    [.make (some stagedFile) none .addition []]

end Sample

open DiffNode.Sample in
/-- A folder that only the index has is told with the file in it. -/
theorem walk_of_added_folder :
    ((listedFolder.label = addedFolder.label ∧ listedFolder.walk.map tag = addedFolder.walk.map tag) ∧
      (indexed.diff (.ofString "d") .index (.named "HEAD")).outcome = .ok addedFolder) ∧
    listedFolder = addedFolder ∧
    ∃ lines, Host.execute ⟨false⟩ indexed (.diff (some "d") .index (some (.named "HEAD")) false) =
        .ok (String.join (lines.map (· ++ "\n"))) ∧ Ink.Announces ⟨false⟩ addedFolder lines := by
  have told := walk_faithful addedFolder
  have found : (indexed.diff (.ofString "d") .index (.named "HEAD")).outcome = .ok addedFolder := rfl
  exact ⟨⟨⟨rfl, rfl⟩, found⟩, told.2.2.2.2.1 listedFolder rfl rfl,
    told.2.2.2.2.2.2 ⟨false⟩ indexed (some "d") .index (some (.named "HEAD")) found⟩

end DiffNode

end ThreeWay
