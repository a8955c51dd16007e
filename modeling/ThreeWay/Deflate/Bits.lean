import ThreeWay.Text.Utf8

/-!
# Bits of a byte array

Compressed data is a row of bits. The bits of a byte come least significant first, and a number of several
bits has its least significant bit in front.

## Main definitions

* `BitReader`: A computation that takes bits from the front of a byte array and may fail.
* `BitReader.bit`, `BitReader.number`: Taking one bit, and a number of several bits.
* `BitReader.align`, `BitReader.byte`: Going on at the next byte, and taking a whole byte there.
-/

namespace ThreeWay

/-- A computation that takes bits from the front of a byte array and may fail. Its state is the position of
    the next bit. -/
abbrev BitReader := ReaderT ByteArray (StateT Nat Option)

namespace BitReader

/-- Take one bit. -/
def bit : BitReader Nat := do
  let data ← read
  let position ← get
  if h : position / 8 < data.size then
    set (position + 1)
    return (data[position / 8].toNat >>> (position % 8)) % 2
  else failure

/-- Take a number of `n` bits. -/
def number : Nat → BitReader Nat
  | 0 => return 0
  | n + 1 => do
    let low ← bit
    let high ← number n
    return low + 2 * high

/-- Go on at the next byte. -/
def align : BitReader Unit :=
  modify fun position => (position + 7) / 8 * 8

/-- Take a whole byte. -/
def byte : BitReader UInt8 := do
  return UInt8.ofNat (← number 8)

end BitReader

end ThreeWay
