import ThreeWay.Store.Basic

/-!
# Equal content

Whether two variants hold the same content. A variant that does not exist compares like an absent
one. Two files compare by content id, or by their bytes when an id is missing or ids are not to be
trusted. Two folders compare by tree id, or by their place when an id is missing. A file never equals a
folder.

The decision is split from the reading: `Verdict.of` looks at the two variants only, and `settle`
reads bytes where the verdict leaves that open.

## Main definitions

* `Verdict`: A known answer, or two files whose bytes decide.
* `Comparator`: A store and whether bytes decide even where ids are known.
* `Comparator.equal`: Whether two optional variants hold the same content.
-/

namespace ThreeWay

/-- What two variants tell about their content without reading it. -/
inductive Verdict where
  | known (same : Bool)
  | byBytes (a b : Blob)

namespace Verdict

/-- Two files: by id unless one is missing or bytes are wanted. -/
def ofBlobs (byteCompare : Bool) (a b : Blob) : Verdict :=
  match byteCompare, a.contentId, b.contentId with
  | false, some x, some y => .known (x = y)
  -- An id that is missing on one side leaves nothing to compare the other one with.
  | _, _, _ => .byBytes a b

/-- Two folders: by tree id, or by place unless both have one. -/
def ofFolders (a b : Folder) : Bool :=
  match a.treeId, b.treeId with
  | some x, some y => x = y
  | _, _ => a.path = b.path

/-- Two optional variants. -/
def of (byteCompare : Bool) (a b : Option Variant) : Verdict :=
  match existing a, existing b with
  | none, none => .known true
  | some (.blob x), some (.blob y) => ofBlobs byteCompare x y
  | some (.tree x _), some (.tree y _) => .known (ofFolders x y)
  -- One side is missing, or a file stands where the other side has a folder.
  | _, _ => .known false

/-- The answer, after reading what the verdict leaves open, the left side first. -/
def settle [Monad m] (read : Blob → m Bytes) : Verdict → m Bool
  | .known same => pure same
  | .byBytes a b => do
    let x ← read a
    let y ← read b
    return x = y

end Verdict

/-- Decides whether variants hold the same content. -/
structure Comparator where
  store : Store
  byteCompare : Bool

namespace Comparator

/-- Whether two optional variants hold the same content. It fails only when bytes are needed and
    cannot be read. -/
def equal (c : Comparator) (a b : Option Variant) : Except Error Bool :=
  (Verdict.of c.byteCompare a b).settle c.store.content

end Comparator

end ThreeWay
