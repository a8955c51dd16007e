import ThreeWay.Disk.Basic
import ThreeWay.Repository.Basic
import ThreeWay.Repository.Discovery

/-!
# References on a disk

A reference has a file of its own, named by it, or a line in a file with many of them; its own file counts
for more. The file holds an id, or the name of another reference. The moves of a reference are lines of a
log, the latest one last.

## Main definitions

* `Storage.headOf`: The head.
* `Storage.referencesOf`: All references with their objects.
* `Storage.logOf`: The moves of all references.
-/

namespace ThreeWay.Storage

/-- What a reference holds: an object, or another reference. -/
inductive Pointer where
  | object (id : ObjectId)
  | reference (name : String)
deriving DecidableEq, Inhabited

/-- What stands in front of the name of another reference. -/
def pointerMark : String := "ref:"

/-- What the content of a file says. -/
def pointerOf (content : Bytes) : Pointer :=
  let text := (Utf8.decodeLossy (Discovery.trim content)).toList
  let mark := pointerMark.toList
  if mark.isPrefixOf text then
    .reference (String.ofList ((text.drop mark.length).dropWhile (· = ' ')))
  else .object ⟨String.ofList text⟩

/-- The lines of a file. -/
def linesOf (content : Bytes) : List Bytes :=
  (content.splitOn 0x0A).filter (· ≠ [])

/-- The files at any depth below a member of a folder, with the chains of names that start there. -/
def filesBelow (f : Forest FileEntry Unit) (name : String) : List (List Bytes × Bytes) :=
  match f.find? (Utf8.encode name) with
  | some (.folder _ members) =>
    (members.leavesFrom [Utf8.encode name]).filterMap fun (names, file) =>
      match file with
      | .regular content _ => some (names, content)
      | .link _ => none
  | _ => []

/-- The text of a chain of names. -/
def nameOf (names : List Bytes) : String :=
  Utf8.decodeLossy ([RawPath.slash].intercalate names)

/-- The content of a file of a folder, empty if there is none. -/
def contentOf (f : Forest FileEntry Unit) (name : String) : Bytes :=
  match f.find? (Utf8.encode name) with
  | some (.leaf (.regular content _)) => content
  | _ => []

/-- The reference of a line: an id, a blank, and a name. Comments and the objects of tags are passed over. -/
def packedReference? (line : Bytes) : Option (String × Pointer) :=
  let text := (Utf8.decodeLossy line).toList
  if text.head? = some '#' || text.head? = some '^' then none
  else
    let digits := text.takeWhile (· ≠ ' ')
    some (String.ofList (text.drop (digits.length + 1)), .object ⟨String.ofList digits⟩)

/-- All references, with what they hold. -/
def pointersOf (f : Forest FileEntry Unit) : List (String × Pointer) :=
  let packed := (linesOf (contentOf f "packed-refs")).filterMap packedReference?
  let loose := (filesBelow f "refs").map fun (names, content) => (nameOf names, pointerOf content)
  -- A file of its own is newer than the line for the same reference.
  ascending Prod.fst (packed ++ loose)

/-- How often a reference may lead to another one. -/
def chainLimit : Nat := 5

/-- The object that a reference leads to. -/
def follow? (pointers : List (String × Pointer)) : Nat → Pointer → Option ObjectId
  | _, .object id => some id
  | 0, .reference _ => none
  | n + 1, .reference name => do follow? pointers n (← pointers.lookup name)

/-- All references with their objects. -/
def referencesOf (f : Forest FileEntry Unit) : List (String × ObjectId) :=
  let pointers := pointersOf f
  pointers.filterMap fun (name, pointer) => (follow? pointers chainLimit pointer).map fun id => (name, id)

/-- The head. -/
def headOf (f : Forest FileEntry Unit) : Head :=
  match pointerOf (contentOf f Repository.headName) with
  | .object id => .detached id
  | .reference name => .branch name

/-- The move that a line of a log tells: two ids, who moved the reference, a tab, and a message. -/
def moveOf (reference : String) (line : Bytes) : LogEntry :=
  let message := (line.dropWhile (· ≠ 0x09)).drop 1
  let id := (line.drop (ObjectId.length + 1)).take ObjectId.length
  ⟨reference, ⟨Utf8.decodeLossy id⟩, Utf8.decodeLossy message⟩

/-- The moves of all references, the latest one of each first. -/
def logOf (f : Forest FileEntry Unit) : List LogEntry :=
  (filesBelow f "logs").flatMap fun (names, content) =>
    (linesOf content).reverse.map (moveOf (nameOf (names.drop 1)))

end ThreeWay.Storage
