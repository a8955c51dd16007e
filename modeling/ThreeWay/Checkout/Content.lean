import ThreeWay.Checkout.Listing

/-!
# Content of a checkout

The bytes of a file in the working tree, in the index, or at a revision. A file of the working tree is read
from the disk. Any other file is read from the object database by its content id; without one, by the id
that the index or the tree of the revision records for it.

## Main definitions

* `Checkout.contentId`: The id by which a file is read.
* `Checkout.content`: The bytes of a file.
* `Checkout.store`: Contents and listings as a store.
* `Checkout.snapshot`: All files of a revision with their ids.
-/

namespace ThreeWay.Checkout

/-- The id by which the content of a file is read from the object database. -/
def contentId (c : Checkout) (b : Blob) : Except Error ObjectId :=
  match b.contentId, b.revision with
  | some id, _ =>
    match ObjectId.parse? id.text with
    | some id => .ok id
    | none => .error (.ofObject b.path (.invalidId id.text))
  | none, .named spec => do
    -- Without an id the file is looked up by its name in the folder that holds it.
    let tree ← c.namedTree spec (b.path.parent?.getD .root)
    match tree.members.find? (Utf8.encode b.path.fileName) with
    | some entry => return TreeEntry.id entry
    | none => .error (.contentRead b.path.text (.notIn spec))
  | none, _ => do
    match ← c.stagedEntry b.path with
    | some e => return e.id
    | none => .error (.contentRead b.path.text .notStaged)

/-- The bytes of a file. -/
def content (c : Checkout) (b : Blob) : Except Error Bytes :=
  if b.revision = .workingTree then
    match c.disk.readBytes (c.fileOf b.path) with
    | .ok bytes => .ok bytes
    | .error e => .error (.ofFile e)
  else do
    let id ← c.contentId b
    match c.repository.objects.blob? id with
    | some bytes => return bytes
    | none => .error (.ofObject b.path (.notFound id.hex))

/-- Contents and listings of a checkout. -/
def store (c : Checkout) : Store where
  content := c.content
  listing := c.members

/-- All files of a tree with their ids. A file whose name is no valid text is left out, and the names of
    folders must be valid. -/
def filesOf (t : Tree) : Except ObjectError Reference := do
  let found ← t.leaves.mapM fun (names, leaf) => do
    -- Folders are judged first: a file with a bad name below a bad folder is a failure too.
    match names.dropLast.mapM Utf8.decode?, (names.getLast?.bind Utf8.decode?) with
    | none, _ => .error (.invalidPath (Utf8.decodeLossy ([RawPath.slash].intercalate names)))
    | some _, none => return none
    | some folders, some name =>
      if leaf.mode.isFile then
        return some (Path.ofString ("/".intercalate (folders ++ [name])), ContentId.mk leaf.id.hex)
      else return none
  return ascending Prod.fst (found.filterMap id)

/-- All files of a revision with their ids. The head of a repository without commits has none. -/
def snapshot (c : Checkout) (spec : String) : Except Error Reference :=
  match c.repository.resolveTree spec with
  | .error e => .error (.contentRead spec (.repository e))
  | .ok none => .ok []
  | .ok (some tree) =>
    match filesOf tree with
    | .ok files => .ok files
    | .error e => .error (.contentRead spec (.object e))

/-- A bound on the depth of the folders below any folder of a revision. -/
def depthBound (c : Checkout) : Revision → Nat
  -- A link may lead above the folder of the disk, so the way down to it counts as well.
  | .workingTree => c.disk.place.length + c.disk.tree.depth + 2
  | .index => ((c.repository.index.map (·.names.length)).foldl max 0) + 2
  | .named spec =>
    match c.repository.resolveTree spec with
    | .ok (some tree) => tree.members.depth + 2
    | _ => 2

end ThreeWay.Checkout
