import ThreeWay.Deflate.Inflate
import ThreeWay.Object.Database
import ThreeWay.Storage.Numbers

/-!
# Packs

Many objects in one file. An object is kept as a whole, or as the changes that make it from another object
of the pack: pieces to copy and bytes to insert. A second file tells where each object starts.

## Main definitions

* `RawObject`: An object as it is kept, before its bytes are understood.
* `Pack`: The file, and where its objects start.
* `Pack.apply`: Making an object from another one.
* `Pack.objects`: The objects of a pack.
-/

namespace ThreeWay.Storage

/-- An object as it is kept: its kind and its bytes. -/
structure RawObject where
  kind : ObjectKind
  content : ByteArray

/-- A file with objects, and where they start in it. -/
structure Pack where
  data : ByteArray
  starts : List (ObjectId × Nat)

namespace Pack

/-- What stands in front of the second file. -/
def mark : Nat := 0xff744f63

/-- The position of the table of counts in the second file. -/
def countsAt : Nat := 8

/-- Where the objects of a pack start, read from the second file: a table of counts, the ids, a checksum for
    each object, and the positions. A great position stands in a table of its own. -/
def startsOf (file : ByteArray) : List (ObjectId × Nat) :=
  if numberAt file 0 4 ≠ mark then []
  else
    let total := numberAt file (countsAt + 4 * 255) 4
    let ids := countsAt + 4 * 256
    let positions := ids + (idSize + 4) * total
    (List.range total).map fun i =>
      let short := numberAt file (positions + 4 * i) 4
      let start :=
        if short < 1 <<< 31 then short
        -- The highest bit tells that the number is a position in the second table.
        else numberAt file (positions + 4 * total + 8 * (short - 1 <<< 31)) 8
      (idAt file (ids + idSize * i), start)

/-- The pack of two files. -/
def ofFiles (data file : ByteArray) : Pack :=
  ⟨data, startsOf file⟩

/-- A number of which only some bytes are written, as the bits of `flags` tell, and the position behind
    it. -/
def sparseNumber (data : ByteArray) (position flags : Nat) : Nat → Nat × Nat
  | 0 => (0, position)
  | n + 1 =>
    if flags % 2 = 1 then
      let (high, stop) := sparseNumber data (position + 1) (flags / 2) n
      (byteAt data position + 256 * high, stop)
    else
      let (high, stop) := sparseNumber data position (flags / 2) n
      (256 * high, stop)

/-- The output with the changes from a position on. -/
def applyFrom (base changes : ByteArray) : Nat → Nat → ByteArray → ByteArray
  | 0, _, out => out
  | fuel + 1, position, out =>
    if changes.size ≤ position then out
    else
      let order := byteAt changes position
      -- The highest bit tells a copy of a stretch of the other object from new bytes.
      if 128 ≤ order then
        let (start, position) := sparseNumber changes (position + 1) order 4
        let (size, position) := sparseNumber changes position (order / 16) 3
        -- No stretch is empty, so zero stands for the greatest size.
        let size := if size = 0 then 0x10000 else size
        applyFrom base changes fuel position (out ++ base.extract start (start + size))
      else
        let stop := position + 1 + order
        applyFrom base changes fuel stop (out ++ changes.extract (position + 1) stop)

/-- The bytes that changes make from others. -/
def apply (base changes : ByteArray) : ByteArray :=
  let (_, position) := littleNumber changes 0
  let (_, position) := littleNumber changes position
  applyFrom base changes (changes.size + 1) position .empty

/-- The object that changes make from another one. -/
def changed (base : Option RawObject) (changes : Option ByteArray) : Option RawObject := do
  let base ← base
  return ⟨base.kind, apply base.content (← changes)⟩

/-- The object that starts at a position. -/
def objectAt (p : Pack) : Nat → Nat → Option RawObject
  | 0, _ => none
  | fuel + 1, start =>
    let content := Deflate.inflate? p.data
    let whole (kind : ObjectKind) (position : Nat) := (content position).map (RawObject.mk kind ·)
    let (_, position) := littleNumber p.data start
    match byteAt p.data start / 16 % 8 with
    | 1 => whole .commit position
    | 2 => whole .tree position
    | 3 => whole .blob position
    | 4 => whole .tag position
    -- The other object stands some bytes in front, or is named by its id.
    | 6 =>
      let (distance, position) := offsetNumber p.data position
      changed (p.objectAt fuel (start - distance)) (content position)
    | 7 => do
      let base ← p.starts.lookup (idAt p.data position)
      changed (p.objectAt fuel base) (content (position + idSize))
    | _ => none

/-- The objects of a pack. -/
def objects (p : Pack) : List (ObjectId × RawObject) :=
  p.starts.filterMap fun (id, start) =>
    (p.objectAt (p.starts.length + 1) start).map fun object => (id, object)

end Pack

end ThreeWay.Storage
