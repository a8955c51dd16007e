import ThreeWay.Text.Utf8

/-!
# Message padding

SHA-1 and SHA-256 cut a message into blocks of sixteen 32-bit words in the same way: a single one bit
follows the message, then zero bits up to eight bytes before the end of a block, then the length of
the message in bits.

## Main definitions

* `padding`: What follows a message of a given length.
* `words`: Big-endian 32-bit words.
* `digestOf`: The state after every block, written as bytes.
-/

namespace ThreeWay.Digest

/-- The big-endian bytes of a number, `n` of them. -/
def bigEndian : Nat → Nat → Bytes
  | 0, _ => []
  | n + 1, value => bigEndian n (value / 256) ++ [UInt8.ofNat (value % 256)]

/-- What follows a message of `length` bytes: a one bit, zero bits, and the length in bits. -/
def padding (length : Nat) : Bytes :=
  -- One byte for the one bit and eight for the length stand in the last block with the zeros.
  let zeros := (119 - length % 64) % 64
  0x80 :: List.replicate zeros 0 ++ bigEndian 8 (length * 8)

/-- The big-endian words of a byte string whose length is a multiple of four. -/
def words : Bytes → List UInt32
  | a :: b :: c :: d :: rest =>
    (a.toUInt32 <<< 24 ||| b.toUInt32 <<< 16 ||| c.toUInt32 <<< 8 ||| d.toUInt32) :: words rest
  | _ => []

/-- A word with its bits moved up by `n`, the top ones coming back at the bottom. -/
def rotateLeft (x : UInt32) (n : UInt32) : UInt32 :=
  x <<< n ||| x >>> (32 - n)

/-- A word with its bits moved down by `n`, the bottom ones coming back at the top. -/
def rotateRight (x : UInt32) (n : UInt32) : UInt32 :=
  x >>> n ||| x <<< (32 - n)

/-- Fold over the blocks of sixteen words. -/
def foldBlocks (step : List UInt32 → List UInt32 → List UInt32) (state : List UInt32)
    (ws : List UInt32) : List UInt32 :=
  match ws with
  | [] => state
  | w :: rest => foldBlocks step (step state ((w :: rest).take 16)) ((w :: rest).drop 16)
termination_by ws.length

/-- The message schedule: each word leaves the front of the window as the next one, made from the
    whole window, enters at its end. -/
def schedule (next : List UInt32 → UInt32) : Nat → List UInt32 → List UInt32
  | 0, _ => []
  | _ + 1, [] => []
  | n + 1, w :: window => w :: schedule next n (window ++ [next (w :: window)])

/-- The digest of a message: the state after every block of the padded message. -/
def digestOf (step : List UInt32 → List UInt32 → List UInt32) (initial : List UInt32)
    (message : Bytes) : Bytes :=
  let state := foldBlocks step initial (words (message ++ padding message.length))
  state.flatMap fun w => bigEndian 4 w.toNat

end ThreeWay.Digest
