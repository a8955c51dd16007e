import ThreeWay.Path.Basic
import ThreeWay.Revision

/-!
# Variants

A file or a folder at one revision. A variant may be referenced without existing, which is different
from no variant at all: a folder deleted from the working tree is a handle that does not exist, a
deleted file is nothing.

A folder lists its members up front, or leaves the listing to a store.

## Main definitions

* `Blob`: A file at one revision, with its content id and its history.
* `Folder`: A folder at one revision, with its tree id.
* `Variant`: Either of them; a folder with the members that are already listed.
* `Variant.detach`: A variant without listed members.
* `Variant.depth`: How deep the listed members go.
-/

namespace ThreeWay

/-- A file at one revision. `ancestry` holds the commits that changed it, newest first; it is `none`
    when unknown, and `truncated` tells that older ones were left out. -/
structure Blob where
  present : Bool
  name : String
  path : Path
  revision : Revision
  contentId : Option ContentId
  ancestry : Option (List CommitId)
  truncated : Bool
deriving DecidableEq, Inhabited

/-- A folder at one revision, known by its position or by a tree id. -/
structure Folder where
  present : Bool
  name : String
  path : Path
  revision : Revision
  treeId : Option TreeId
deriving DecidableEq, Inhabited

/-- An existing file without a known identity, named like the last segment of its path. -/
def Blob.at (path : Path) (revision : Revision) : Blob :=
  ⟨true, path.fileName, path, revision, none, none, false⟩

/-- An existing folder without a known identity, named like the last segment of its path. -/
def Folder.at (path : Path) (revision : Revision) : Folder :=
  ⟨true, path.fileName, path, revision, none⟩

/-- A file or a folder at one revision. The members of a folder are listed, or left to a store. -/
inductive Variant where
  | blob (b : Blob)
  | tree (f : Folder) (members : Option (List Variant))
deriving Inhabited

namespace Variant

/-- A folder whose listing is left to a store. -/
def ofFolder (f : Folder) : Variant :=
  .tree f none

/-- Whether a variant exists. -/
def present : Variant → Bool
  | .blob b => b.present
  | .tree f _ => f.present

/-- The last segment of the place of a variant. -/
def name : Variant → String
  | .blob b => b.name
  | .tree f _ => f.name

/-- The place of a variant. -/
def path : Variant → Path
  | .blob b => b.path
  | .tree f _ => f.path

/-- The revision that a variant was read from. -/
def revision : Variant → Revision
  | .blob b => b.revision
  | .tree f _ => f.revision

/-- Whether a variant is a folder. -/
def isTree : Variant → Bool
  | .blob _ => false
  | .tree _ _ => true

/-- The known history, newest first. A folder has none. -/
def ancestry : Variant → List CommitId
  | .blob b => b.ancestry.getD []
  | .tree _ _ => []

/-- Whether the known history leaves older commits out. -/
def truncated : Variant → Bool
  | .blob b => b.truncated
  | .tree _ _ => false

/-- The members that are already listed. -/
def members? : Variant → Option (List Variant)
  | .blob _ => none
  | .tree _ members => members

/-- A variant without listed members. -/
def detach : Variant → Variant
  | .blob b => .blob b
  | .tree f _ => .tree f none

mutual

/-- The number of listings on the longest way down through listed members. -/
def depth : Variant → Nat
  | .blob _ => 0
  | .tree _ none => 1
  | .tree _ (some members) => 1 + depthList members

/-- The greatest depth in a list. -/
def depthList : List Variant → Nat
  | [] => 0
  | v :: rest => max v.depth (depthList rest)

end

end Variant

/-- Whether an optional variant is there and exists. -/
def isPresent (v : Option Variant) : Bool :=
  v.any Variant.present

/-- An optional variant, if it exists. -/
def existing (v : Option Variant) : Option Variant :=
  v.filter Variant.present

end ThreeWay
