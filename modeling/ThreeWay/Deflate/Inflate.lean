import ThreeWay.Deflate.Code

/-!
# Decompression

Compressed data comes in blocks. A block is stored as it is, or written with a code for bytes and lengths and
a code for distances: a length and a distance repeat what stands that far back in the output. The codes are
fixed ones, or described at the front of the block.

A header of two bytes stands in front of the blocks.

## Main definitions

* `Deflate.block`: The output with one more block.
* `Deflate.inflate?`: The data that was compressed.
-/

namespace ThreeWay.Deflate

/-- The last block of the data, in front of each block. -/
def isLast : BitReader Bool := do
  return (← BitReader.bit) = 1

/-- The least length and the number of further bits, for each symbol that stands for a length. -/
def lengthTable : Array (Nat × Nat) :=
  #[(3, 0), (4, 0), (5, 0), (6, 0), (7, 0), (8, 0), (9, 0), (10, 0), (11, 1), (13, 1), (15, 1), (17, 1),
    (19, 2), (23, 2), (27, 2), (31, 2), (35, 3), (43, 3), (51, 3), (59, 3), (67, 4), (83, 4), (99, 4),
    (115, 4), (131, 5), (163, 5), (195, 5), (227, 5), (258, 0)]

/-- The least distance and the number of further bits, for each symbol of a distance. -/
def distanceTable : Array (Nat × Nat) :=
  #[(1, 0), (2, 0), (3, 0), (4, 0), (5, 1), (7, 1), (9, 2), (13, 2), (17, 3), (25, 3), (33, 4), (49, 4),
    (65, 5), (97, 5), (129, 6), (193, 6), (257, 7), (385, 7), (513, 8), (769, 8), (1025, 9), (1537, 9),
    (2049, 10), (3073, 10), (4097, 11), (6145, 11), (8193, 12), (12289, 12), (16385, 13), (24577, 13)]

/-- The number that a symbol of a table and further bits stand for. -/
def measure (table : Array (Nat × Nat)) (symbol : Nat) : BitReader Nat := do
  match table[symbol]? with
  | some (least, bits) => return least + (← BitReader.number bits)
  | none => failure

/-- Repeat what stands `distance` bytes back. -/
def repeatBack (distance : Nat) : Nat → ByteArray → BitReader ByteArray
  | 0, out => return out
  | n + 1, out => do
    -- Bytes that were just written may be repeated too, so they are taken one by one.
    if h : 0 < distance ∧ distance ≤ out.size then
      repeatBack distance n (out.push (out[out.size - distance]))
    else failure

/-- The output with what two codes write, up to the end of the block. -/
def coded (main distances : Code) : Nat → ByteArray → BitReader ByteArray
  | 0, _ => failure
  | fuel + 1, out => do
    let symbol ← main.symbol
    if symbol < 256 then coded main distances fuel (out.push (UInt8.ofNat symbol))
    else if symbol = 256 then return out
    else
      let length ← measure lengthTable (symbol - 257)
      let distance ← measure distanceTable (← distances.symbol)
      coded main distances fuel (← repeatBack distance length out)

/-- The output with bytes that are stored as they are. -/
def stored : Nat → ByteArray → BitReader ByteArray
  | 0, out => return out
  | n + 1, out => do stored n (out.push (← BitReader.byte))

/-- The fixed code for bytes and lengths. -/
def fixedMain : Code :=
  .ofLengths (List.replicate 144 8 ++ List.replicate 112 9 ++ List.replicate 24 7 ++ List.replicate 8 8)

/-- The fixed code for distances. -/
def fixedDistances : Code :=
  .ofLengths (List.replicate 30 5)

/-- The order in which the lengths of the code for lengths are given. -/
def lengthOrder : List Nat :=
  [16, 17, 18, 0, 8, 7, 9, 6, 10, 5, 11, 4, 12, 3, 13, 2, 14, 1, 15]

/-- Take `n` numbers of three bits. -/
def smallNumbers : Nat → BitReader (List Nat)
  | 0 => return []
  | n + 1 => do
    let first ← BitReader.number 3
    return first :: (← smallNumbers n)

/-- Take lengths of words until there are `n` of them, the latest first in `found`. -/
def wordLengths (code : Code) (n : Nat) : Nat → List Nat → BitReader (List Nat)
  | 0, _ => failure
  | fuel + 1, found => do
    if found.length = n then return found.reverse
    -- A repetition has run past the last length.
    else if n < found.length then failure
    else
      let symbol ← code.symbol
      if symbol < 16 then wordLengths code n fuel (symbol :: found)
      else
        let (value, count) ← match symbol, found.head? with
          -- Sixteen repeats the length before it, and the other two repeat zero.
          | 16, some last => do pure (last, 3 + (← BitReader.number 2))
          | 17, _ => do pure (0, 3 + (← BitReader.number 3))
          | 18, _ => do pure (0, 11 + (← BitReader.number 7))
          | _, _ => failure
        wordLengths code n fuel (List.replicate count value ++ found)

/-- Take the description of two codes. -/
def described : BitReader (Code × Code) := do
  let mains := 257 + (← BitReader.number 5)
  let distances := 1 + (← BitReader.number 5)
  let given := 4 + (← BitReader.number 4)
  let numbers := lengthOrder.zip (← smallNumbers given)
  let lengths := (List.range 19).map fun symbol => (numbers.lookup symbol).getD 0
  -- The lengths of both codes are one row: a repetition may start in one and end in the other.
  let all ← wordLengths (.ofLengths lengths) (mains + distances) (mains + distances + 1) []
  return (.ofLengths (all.take mains), .ofLengths (all.drop mains))

/-- The output with one more block. -/
def block (out : ByteArray) : BitReader ByteArray := do
  -- Every symbol takes a bit at least.
  let fuel := 8 * (← read).size + 1
  match ← BitReader.number 2 with
  | 0 =>
    BitReader.align
    let length ← BitReader.number 16
    -- The length is written a second time with all bits turned around.
    let _ ← BitReader.number 16
    stored length out
  | 1 => coded fixedMain fixedDistances fuel out
  | 2 => do
    let (main, distances) ← described
    coded main distances fuel out
  | _ => failure

/-- The output with all blocks. -/
def blocks : Nat → ByteArray → BitReader ByteArray
  | 0, _ => failure
  | fuel + 1, out => do
    let last ← isLast
    let out ← block out
    if last then return out else blocks fuel out

/-- The data that was compressed, read from a position of a byte array on. -/
def inflate? (data : ByteArray) (start : Nat) : Option ByteArray :=
  let run : BitReader ByteArray := do
    let _ ← BitReader.number 16
    blocks (8 * data.size + 1) .empty
  ((run.run data).run (8 * start)).map Prod.fst

end ThreeWay.Deflate
