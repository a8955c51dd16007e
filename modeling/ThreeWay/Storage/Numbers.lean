import ThreeWay.Object.Id

/-!
# Numbers in files

Numbers of several bytes, most significant byte first, and object ids of twenty bytes. What lies beyond the
end of a file reads as zeros.

## Main definitions

* `Storage.byteAt`, `Storage.numberAt`, `Storage.idAt`: Reading at a position.
* `Storage.groups`: A number in groups of seven bits.
-/

namespace ThreeWay.Storage

/-- The byte at a position. -/
def byteAt (data : ByteArray) (position : Nat) : Nat :=
  if h : position < data.size then data[position].toNat else 0

/-- A number of `n` bytes at a position. -/
def numberAt (data : ByteArray) (position : Nat) : Nat → Nat
  | 0 => 0
  | n + 1 => 256 * numberAt data position n + byteAt data (position + n)

/-- The bytes between two positions. -/
def slice (data : ByteArray) (start stop : Nat) : Bytes :=
  (data.extract start stop).toList

/-- The number of bytes of an object id. -/
def idSize : Nat := ObjectId.length / 2

/-- The object id at a position. -/
def idAt (data : ByteArray) (position : Nat) : ObjectId :=
  ⟨Hex.encode (slice data position (position + idSize))⟩

/-- The groups of seven bits at a position, and the position behind them. The highest bit of a byte tells
    that another one follows. -/
def groups (data : ByteArray) (position : Nat) : Nat → List Nat × Nat
  | 0 => ([], position)
  | fuel + 1 =>
    let byte := byteAt data position
    if byte < 128 then ([byte], position + 1)
    else
      let (rest, stop) := groups data (position + 1) fuel
      ((byte - 128) :: rest, stop)

/-- The most groups that a number has. -/
def maxGroups : Nat := 10

/-- A number in groups, the least significant one first. -/
def littleNumber (data : ByteArray) (position : Nat) : Nat × Nat :=
  let (found, stop) := groups data position maxGroups
  (found.foldr (fun group n => group + 128 * n) 0, stop)

/-- A number in groups, the most significant one first, in which a number of more groups is greater than all
    numbers of fewer groups. -/
def offsetNumber (data : ByteArray) (position : Nat) : Nat × Nat :=
  let (found, stop) := groups data position maxGroups
  match found with
  | [] => (0, stop)
  | first :: rest => (rest.foldl (fun n group => 128 * (n + 1) + group) first, stop)

end ThreeWay.Storage
