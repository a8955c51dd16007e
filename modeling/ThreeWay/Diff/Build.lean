import ThreeWay.Compare
import ThreeWay.Diff.Node
import ThreeWay.Diff.Pairing
import ThreeWay.Run

/-!
# Building a difference tree

Two folders are compared by joining their listings. A name on one side only becomes an addition (left)
or a deletion (right) with everything below it. A name on both sides becomes a change if the two
members differ. Two folders of one name, of which one has no tree id, are equal by their place only,
so they are always descended into and kept if something below them differs.

Members are checked before two listings are joined: a member exists and its name is not empty and
holds no slash. The signal is checked before each step of a join and before each member of a one-sided
folder.

A hierarchy whose listings a store makes up has no depth of its own, so the functions count down the
levels they may still list and fail with `tooDeep` below the last one.

## Main definitions

* `Differ`: A comparator and a signal.
* `Differ.listing`: The checked members of a folder.
* `Differ.expand`: Everything on one side.
* `Differ.compare`: The difference of two variants.
* `Differ.diff`: The same, for two roots that must exist.
-/

namespace ThreeWay

/-- How two hierarchies are compared, and when to stop. -/
structure Differ where
  comparator : Comparator
  signal : Option Signal

/-- Check that a variant exists. -/
def requirePresent (v : Variant) (reason : Malformation) : Except Error Unit :=
  if v.present then .ok () else .error (.malformed v.path.text reason)

/-- Check a listed member: it has a name without a slash, and it exists. -/
def checkMember (v : Variant) : Except Error Unit :=
  if v.name = "" then .error (.malformed v.path.text .emptyName)
  else if v.name.toList.contains '/' then .error (.malformed v.path.text .separatorInName)
  else requirePresent v .memberMissing

namespace Differ

/-- The bytes of a file, as a request to the store. -/
def content (d : Differ) (b : Blob) : Run Bytes :=
  Run.serve (.content b.path) (d.comparator.store.content b)

/-- The members of a folder: those listed up front, or else a request to the store. -/
def members (d : Differ) (f : Folder) : Option (List Variant) → Run (List Variant)
  | some members => pure members
  | none => Run.serve (.listing f.path) (d.comparator.store.listing f)

/-- The members of a folder, each of them checked. -/
def listing (d : Differ) (f : Folder) (members : Option (List Variant)) :
    Run (List Variant) := do
  let found ← d.members f members
  Run.ofExcept (found.forM checkMember)
  return found

/-- Whether two variants hold the same content, as requests to the store. -/
def equal (d : Differ) (a b : Variant) : Run Bool :=
  (Verdict.of d.comparator.byteCompare (some a) (some b)).settle d.content

/-- A node for one side: the left side of an addition, the right side of a deletion. -/
def oneSided (v : Variant) (kind : DiffKind) (children : List DiffNode) : DiffNode :=
  match kind with
  | .deletion => .make none (some v) kind children
  | _ => .make (some v) none kind children

/-- A variant and everything below it, all of one kind. -/
def expand (d : Differ) (levels : Nat) (kind : DiffKind) (v : Variant) : Run DiffNode :=
  match v, levels with
  | .blob _, _ => return oneSided v kind []
  -- A file at the last level is still a node: only a listing uses a level up.
  | .tree f _, 0 => throw (.tooDeep f.path.text)
  | .tree f members, levels + 1 => do
    let found ← d.listing f members
    let children ← found.mapM fun member => do
      Run.checkpoint d.signal
      d.expand levels kind member
    return oneSided v kind children

/-- Whether two variants of one name are folders that only their place makes equal. -/
def equalByPlace : Variant → Variant → Bool
  | .tree a _, .tree b _ => a.treeId.isNone || b.treeId.isNone
  | _, _ => false

/-- The difference of two variants, a change at its root. -/
def compare (d : Differ) (levels : Nat) (left right : Variant) : Run DiffNode :=
  match left, right, levels with
  | .tree f _, .tree _ _, 0 => throw (.tooDeep f.path.text)
  | .tree f fs, .tree g gs, levels + 1 => do
    let ls ← d.listing f fs
    let rs ← d.listing g gs
    let children ← (Pairing.join Variant.name ls rs).mapM fun pairing => do
      Run.checkpoint d.signal
      match pairing with
      | .left l => some <$> d.expand levels .addition l
      | .right r => some <$> d.expand levels .deletion r
      | .both l r =>
        -- Their contents cannot be told apart by ids, so a difference between them is one of their
        -- members, and a node without any is dropped.
        if equalByPlace l r then
          let child ← d.compare levels l r
          return if child.isEmpty then none else some child
        else if ← d.equal l r then return none
        else some <$> d.compare levels l r
    return .make (some left) (some right) .change (children.filterMap id)
  -- A file has no members to pair, so the node itself is the whole difference.
  | _, _, _ => return .make (some left) (some right) .change []

/-- The difference of two variants that exist. -/
def diff (d : Differ) (levels : Nat) (left right : Variant) : Run DiffNode := do
  Run.ofExcept (requirePresent left .rootMissing)
  Run.ofExcept (requirePresent right .rootMissing)
  d.compare levels left right

/-- One side of a difference, for a variant that exists. -/
def expandRoot (d : Differ) (levels : Nat) (kind : DiffKind) (v : Variant) : Run DiffNode := do
  Run.ofExcept (requirePresent v .expandedRootMissing)
  d.expand levels kind v

end Differ

end ThreeWay
