import ThreeWay.Ascending
import ThreeWay.Forest
import ThreeWay.Object.Id

/-!
# Committed trees

A committed tree is a forest whose leaves carry a mode and an object id and whose folders carry the id
of their own tree. The id of a tree is the digest of its members, so equal ids stand for equal members.

Members are held in ascending order of their names. The bytes from which an id is made list them in
another order, in which the name of a folder is followed by a slash.

## Main definitions

* `LeafMode`: The kinds of members that are no folder.
* `Leaf`: A mode and an object id.
* `Tree`: An id and the members below it.
* `Tree.encode`: The bytes from which the id of a tree is made.
* `Tree.ofLeaves`: The tree of some leaves.
* `Tree.find?`: What stands at the end of a chain of names.
-/

namespace ThreeWay

/-- The kinds of members of a committed tree that are no folder. -/
inductive LeafMode where
  | regular
  | executable
  | link
  | submodule
deriving DecidableEq, Inhabited

namespace LeafMode

/-- The digits that stand for a mode in a tree. -/
def digits : LeafMode → String
  | .regular => "100644"
  | .executable => "100755"
  | .link => "120000"
  | .submodule => "160000"

/-- Whether the object of a leaf is a file's content. A submodule names a commit of another
    repository. -/
def isFile : LeafMode → Bool
  | .submodule => false
  | _ => true

/-- The mode that a number stands for: its upper bits tell links and submodules, and the owner's
    execution bit tells executable files from regular ones. -/
def ofNumber (n : Nat) : LeafMode :=
  let kind := n / 0o10000
  if kind = 0o12 then .link
  else if kind = 0o16 ∨ kind = 0o4 then .submodule
  else if n / 0o100 % 2 = 1 then .executable
  else .regular

end LeafMode

/-- A member of a committed tree that is no folder. -/
structure Leaf where
  mode : LeafMode
  id : ObjectId
deriving DecidableEq, Inhabited

/-- What a name of a committed tree stands for. -/
abbrev TreeEntry := Forest.Entry Leaf ObjectId

/-- The object id of an entry. -/
def TreeEntry.id : TreeEntry → ObjectId
  | .leaf leaf => leaf.id
  | .folder id _ => id

/-- A committed tree. -/
structure Tree where
  id : ObjectId
  members : Forest Leaf ObjectId
deriving Inhabited

namespace Tree

/-- The digits that stand for a folder in a tree. -/
def folderDigits : String := "40000"

/-- A member as it is written: mode, blank, name, zero byte, and the bytes of its id. -/
def encodeMember (name : Bytes) (entry : TreeEntry) : Bytes :=
  let digits := match entry with
    | .leaf leaf => leaf.mode.digits
    | .folder _ _ => folderDigits
  Utf8.encode digits ++ 0x20 :: name ++ 0 :: entry.id.toBytes

/-- The key that orders written members: the name, with a slash after the name of a folder. -/
def writtenKey : Bytes × TreeEntry → Bytes
  | (name, .leaf _) => name
  -- This order is not the one of the names: a file `a.b` is written before a folder `a`.
  | (name, .folder _ _) => name ++ [0x2F]

/-- The bytes from which the id of a tree is made. -/
def encode (members : Forest Leaf ObjectId) : Bytes :=
  (ascending writtenKey members.entries).flatMap fun (name, entry) => encodeMember name entry

/-- The id of the tree with the given members. -/
def idOf (members : Forest Leaf ObjectId) : ObjectId :=
  .ofObject "tree" (encode members)

/-- A forest of leaves with the id of every folder, from the deepest up. -/
def identify : Forest Leaf Unit → Forest Leaf ObjectId
  | .nil => .nil
  | .leaf name leaf rest => .leaf name leaf (identify rest)
  | .folder name _ members rest =>
    let below := identify members
    .folder name (idOf below) below (identify rest)

/-- The tree with the given members. -/
def ofMembers (members : Forest Leaf ObjectId) : Tree :=
  ⟨idOf members, members⟩

/-- The tree of leaves, each at the end of a chain of names. -/
def ofLeaves (leaves : List (List Bytes × Leaf)) : Tree :=
  ofMembers <| identify <|
    leaves.foldl (fun forest (names, leaf) => forest.put () (.leaf leaf) names) .nil

/-- A tree as an entry of its own. -/
def entry (t : Tree) : TreeEntry :=
  .folder t.id t.members

/-- What stands at the end of a chain of names; the tree itself at the end of the empty one. -/
def find? (t : Tree) (names : List Bytes) : Option TreeEntry :=
  t.entry.lookup names

/-- Every leaf with the chain of names that leads to it. -/
def leaves (t : Tree) : List (List Bytes × Leaf) :=
  t.members.leaves

/-- The trees of the folders of a forest, at any depth. -/
def folders : Forest Leaf ObjectId → List Tree
  | .nil => []
  | .leaf _ _ rest => folders rest
  | .folder _ id members rest => ⟨id, members⟩ :: folders members ++ folders rest

/-- A tree and the trees of all folders below it. -/
def subtrees (t : Tree) : List Tree :=
  t :: folders t.members

end Tree

end ThreeWay
