import ThreeWay.Object.Tree
import ThreeWay.Path.Raw

/-!
# The index

The state that the next commit will record: paths in the form that the file system has, each with a mode
and an object id. An unfinished merge leaves several entries for one path, told apart by their stages;
stage zero is the plain entry.

No entry lies below another one of the same stage: putting a file where a folder was takes the entries
below it away, and putting a file into a folder takes away a file that stood in the folder's place.

## Main definitions

* `IndexEntry`: A path with a stage, a mode and an id.
* `Index`: Entries in ascending order of paths and stages.
* `Index.add`, `Index.stage`, `Index.remove`: Changing the entries of a path.
* `Index.find?`: The entry of a path at a stage.
* `Index.tree`: The tree that a commit of the index records.
-/

namespace ThreeWay

/-- A path of the index. -/
structure IndexEntry where
  path : Bytes
  stage : Nat
  mode : LeafMode
  id : ObjectId
deriving DecidableEq, Inhabited

namespace IndexEntry

/-- The key that orders entries: the path, then the stage. A path holds no zero byte. -/
def key (e : IndexEntry) : Bytes :=
  e.path ++ [0, UInt8.ofNat e.stage]

/-- The names that lead to an entry. -/
def names (e : IndexEntry) : List Bytes :=
  e.path.splitOn RawPath.slash

/-- The place of an entry. -/
def place (e : IndexEntry) : Path :=
  Path.ofBytes e.path

end IndexEntry

/-- Entries in ascending order of paths and stages. -/
abbrev Index := List IndexEntry

namespace Index

/-- Whether one raw path lies below another. -/
def isBelow (path folder : Bytes) : Bool :=
  (folder ++ [RawPath.slash]).isPrefixOf path

/-- Put an entry in its place. Entries of its stage that lie below it or above it give way. -/
def add (index : Index) (entry : IndexEntry) : Index :=
  let others := index.filter fun other =>
    -- A file takes the place of a folder, and a folder that of a file, never both at one stage.
    !(other.stage = entry.stage && (isBelow other.path entry.path || isBelow entry.path other.path))
  insertAt IndexEntry.key entry others

/-- Take all entries of a path away. -/
def remove (index : Index) (path : Bytes) : Index :=
  index.filter (·.path ≠ path)

/-- Put a plain entry in the place of all entries of its path. -/
def stage (index : Index) (path : Bytes) (mode : LeafMode) (id : ObjectId) : Index :=
  Index.add (index.remove path) ⟨path, 0, mode, id⟩

/-- The entry of a path at a stage. -/
def find? (index : Index) (path : Bytes) (stage : Nat) : Option IndexEntry :=
  List.find? (fun e => e.path = path && e.stage = stage) index

/-- The entries that are not part of an unfinished merge. -/
def plain (index : Index) : Index :=
  index.filter (·.stage = 0)

/-- The tree that a commit of the index records. -/
def tree (index : Index) : Tree :=
  .ofLeaves (index.plain.map fun e => (e.names, ⟨e.mode, e.id⟩))

/-- The index that records exactly a tree. -/
def ofTree (t : Tree) : Index :=
  ascending IndexEntry.key <| t.leaves.map fun (names, leaf) =>
    ⟨[RawPath.slash].intercalate names, 0, leaf.mode, leaf.id⟩

end Index

end ThreeWay
