import ThreeWay.Index
import ThreeWay.Storage.Numbers

/-!
# The index on a disk

The file of the index holds its entries one after the other: data about the file, a mode, an id, flags and
a path. In the newest form of the file a path tells only how it goes on after the path before it.

## Main definitions

* `Storage.indexOf`: The index that a file holds.
-/

namespace ThreeWay.Storage

/-- The position of the path in an entry, behind its first flags. -/
def pathOffset : Nat := 62

/-- The bytes up to the next zero byte. -/
def untilZero (data : ByteArray) (position : Nat) : Bytes :=
  (data.extract position data.size).toList.takeWhile (· ≠ 0)

/-- The next `n` entries. `newest` tells the newest form of the file, and `last` is the path before. -/
def entriesFrom (data : ByteArray) (newest : Bool) : Nat → Nat → Bytes → List IndexEntry
  | 0, _, _ => []
  | n + 1, start, last =>
    let flags := numberAt data (start + 60) 2
    let extended := flags / 0x4000 % 2 = 1
    let front := if extended then pathOffset + 2 else pathOffset
    let entry (path : Bytes) : IndexEntry :=
      ⟨path, flags / 0x1000 % 4, LeafMode.ofNumber (numberAt data (start + 24) 4), idAt data (start + 40)⟩
    if newest then
      let (dropped, position) := offsetNumber data (start + front)
      let rest := untilZero data position
      -- The newest form writes only what differs at the end of the path before.
      let path := last.take (last.length - dropped) ++ rest
      entry path :: entriesFrom data newest n (position + rest.length + 1) path
    else
      let path := untilZero data (start + front)
      -- Entries are filled up with zeros, at least one, to a multiple of eight bytes.
      let size := (front + path.length + 8) / 8 * 8
      entry path :: entriesFrom data newest n (start + size) path

/-- What stands in front of the file. -/
def indexMark : Bytes :=
  Utf8.encode "DIRC"

/-- The index that a file holds. -/
def indexOf (data : ByteArray) : Index :=
  if slice data 0 4 = indexMark then
    entriesFrom data (numberAt data 4 4 = 4) (numberAt data 8 4) 12 []
  else []

end ThreeWay.Storage
