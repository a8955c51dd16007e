import Std.Data.HashMap
import ThreeWay.Disk.Basic
import ThreeWay.Storage.Pack

/-!
# Objects on a disk

An object has a file of its own, named by its id, or lies in a pack. Its bytes are a kind, a length and a
content: a tree lists its members, a commit and a tag are headers and a message.

A tree is read together with the trees below it, and each tree only once.

## Main definitions

* `Storage.rawObjects`: The objects of a folder.
* `Storage.headers`: The headers and the message of a commit or a tag.
* `Storage.database`: The objects, understood.
-/

namespace ThreeWay

/-- The kind that a word stands for. -/
def ObjectKind.ofWord? (word : String) : Option ObjectKind :=
  [ObjectKind.blob, .tree, .commit, .tag].find? (·.word = word)

namespace Storage

/-- The content of a file as an array. -/
def arrayOf (content : Bytes) : ByteArray :=
  ⟨content.toArray⟩

/-- The files of a folder, with their names. -/
def filesOf (f : Forest FileEntry Unit) : List (Bytes × Bytes) :=
  f.entries.filterMap fun (name, entry) =>
    match entry with
    | .leaf (.regular content _) => some (name, content)
    | _ => none

/-- The object of a file of its own: kind, blank, length, zero byte, content. -/
def looseObject? (content : Bytes) : Option RawObject := do
  let bytes := (← Deflate.inflate? (arrayOf content) 0).toList
  -- The length in the header is not needed: the object ends with the file.
  let header := bytes.takeWhile (· ≠ 0)
  let kind ← ObjectKind.ofWord? (Utf8.decodeLossy (header.takeWhile (· ≠ 0x20)))
  return ⟨kind, arrayOf (bytes.drop (header.length + 1))⟩

/-- The objects that have files of their own: the first two digits of an id name a folder, and the others
    the file. -/
def looseObjects (folder : Forest FileEntry Unit) : List (ObjectId × RawObject) :=
  folder.entries.flatMap fun (front, entry) =>
    if front.length ≠ 2 then []
    else
      (filesOf entry.members).filterMap fun (name, content) =>
        (looseObject? content).map fun object => (⟨Utf8.decodeLossy (front ++ name)⟩, object)

/-- The name of a file of a pack with another ending. -/
def partner (name : Bytes) : Bytes :=
  name.take (name.length - 3) ++ Utf8.encode "pack"

/-- The objects that lie in packs. -/
def packedObjects (folder : Forest FileEntry Unit) : List (ObjectId × RawObject) :=
  let files := filesOf ((folder.find? (Utf8.encode "pack")).map (·.members) |>.getD .nil)
  files.flatMap fun (name, content) =>
    if (Utf8.encode ".idx").isSuffixOf name then
      match files.lookup (partner name) with
      | some data => (Pack.ofFiles (arrayOf data) (arrayOf content)).objects
      | none => []
    else []

/-- The objects of a folder, by the digits of their ids. -/
abbrev RawObjects := Std.HashMap String RawObject

/-- The objects of a folder. -/
def rawObjects (folder : Forest FileEntry Unit) : RawObjects :=
  (packedObjects folder ++ looseObjects folder).foldl (fun found (id, object) =>
    found.insert id.hex object) ∅

/-- The number that octal digits write. -/
def octal (digits : Bytes) : Nat :=
  digits.foldl (fun n digit => 8 * n + (digit.toNat - 0x30)) 0

/-- The members of a tree: digits of a mode, blank, name, zero byte, id. -/
def membersOf : Nat → Bytes → List (Nat × Bytes × ObjectId)
  | 0, _ => []
  | _, [] => []
  | fuel + 1, bytes =>
    let digits := bytes.takeWhile (· ≠ 0x20)
    let rest := bytes.drop (digits.length + 1)
    let name := rest.takeWhile (· ≠ 0)
    let rest := rest.drop (name.length + 1)
    (octal digits, name, ⟨Hex.encode (rest.take idSize)⟩) :: membersOf fuel (rest.drop idSize)

/-- The mode of a folder. -/
def folderMode : Nat := octal (Utf8.encode Tree.folderDigits)

/-- The tree with an id, with all trees below it. Trees that were read are remembered. -/
def treeOf (raws : RawObjects) : Nat → ObjectId → StateM (Std.HashMap String Tree) (Option Tree)
  | 0, _ => return none
  | fuel + 1, id => do
    match (← get)[id.hex]?, raws[id.hex]? with
    -- Each tree is read once, however many commits record it.
    | some tree, _ => return some tree
    | none, some ⟨.tree, content⟩ =>
      let bytes := content.toList
      let members ← (membersOf bytes.length bytes).mapM fun (mode, name, id) => do
        if mode = folderMode then
          match ← treeOf raws fuel id with
          | some tree => return (name, Forest.Entry.folder id tree.members)
          | none => return (name, Forest.Entry.folder id .nil)
        else return (name, Forest.Entry.leaf ⟨LeafMode.ofNumber mode, id⟩)
      let tree : Tree := ⟨id, .ofEntries (ascending Prod.fst members)⟩
      modify (·.insert id.hex tree)
      return some tree
    | none, _ => return none

/-- The headers in front of a message, each a word and a rest, and the message. A line that starts with a
    blank goes on with the header above it. -/
def headers : Nat → Bytes → List (String × Bytes) × Bytes
  | 0, bytes => ([], bytes)
  | fuel + 1, bytes =>
    let line := bytes.takeWhile (· ≠ 0x0A)
    let rest := bytes.drop (line.length + 1)
    if line = [] then ([], rest)
    else
      let word := line.takeWhile (· ≠ 0x20)
      let (others, message) := headers fuel rest
      ((Utf8.decodeLossy word, line.drop (word.length + 1)) :: others, message)

/-- The number that decimal digits write. -/
def decimal (digits : Bytes) : Int :=
  digits.foldl (fun n digit => 10 * n + (digit.toNat - 0x30 : Nat)) 0

/-- The whole number that a sign and digits write. -/
def signed : Bytes → Int
  | 0x2D :: digits => -decimal digits
  | 0x2B :: digits => decimal digits
  | digits => decimal digits

/-- The minutes that an offset of hours and minutes stands for. -/
def minutes (offset : Int) : Int :=
  let n := offset.natAbs
  let size : Int := n / 100 * 60 + n % 100
  if offset < 0 then -size else size

/-- The signature that a header holds: a name, an e-mail address in angle brackets, a time and an offset. -/
def signatureOf (bytes : Bytes) : Signature :=
  let name := bytes.takeWhile (· ≠ 0x3C)
  let rest := bytes.drop (name.length + 1)
  let email := rest.takeWhile (· ≠ 0x3E)
  let numbers := ((rest.drop (email.length + 1)).splitOn 0x20).filter (· ≠ [])
  { name := Signature.trim name
    email := email
    time := ⟨(signed (numbers.head?.getD []) % (1 <<< 32)).toNat⟩
    offset := minutes (signed ((numbers.drop 1).head?.getD [])) }

/-- The value of a header, empty if there is none. -/
def header (found : List (String × Bytes)) (word : String) : Bytes :=
  (found.lookup word).getD []

/-- The id that a header holds. -/
def headerId (found : List (String × Bytes)) (word : String) : ObjectId :=
  ⟨Utf8.decodeLossy (header found word)⟩

/-- A commit that was read, if its tree is there. -/
def commitOf (raws : RawObjects) (id : ObjectId) (bytes : Bytes) :
    StateM (Std.HashMap String Tree) (Option Commit) := do
  let (found, message) := headers bytes.length bytes
  let parents := found.filterMap fun (word, rest) =>
    if word = "parent" then some (ObjectId.mk (Utf8.decodeLossy rest)) else none
  let tree ← treeOf raws (raws.size + 1) (headerId found "tree")
  return tree.map fun tree =>
    { id := id
      tree := tree
      parents := parents
      author := signatureOf (header found "author")
      committer := signatureOf (header found "committer")
      message := message }

/-- A tag that was read. -/
def tagOf (id : ObjectId) (bytes : Bytes) : Tag :=
  let (found, message) := headers bytes.length bytes
  { id := id
    target := headerId found "object"
    name := Utf8.decodeLossy (header found "tag")
    message := message }

/-- An object that was read. -/
def objectOf (raws : RawObjects) (id : ObjectId) (object : RawObject) :
    StateM (Std.HashMap String Tree) (Option StoredObject) := do
  let bytes := object.content.toList
  match object.kind with
  | .blob => return some (.blob id bytes)
  | .tree => return (← treeOf raws (raws.size + 1) id).map .tree
  | .commit => return (← commitOf raws id bytes).map .commit
  | .tag => return some (.tag (tagOf id bytes))

/-- The objects of a folder, understood. -/
def database (folder : Forest FileEntry Unit) : Database :=
  let raws := rawObjects folder
  let read := raws.toList.mapM fun (hex, object) => objectOf raws ⟨hex⟩ object
  (read.run ∅).1.filterMap id

end Storage

end ThreeWay
