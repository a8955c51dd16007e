import ThreeWay.Text.Utf8

/-!
# Hexadecimal text

Bytes written as two lower-case digits each, and digits of either case read back.

## Main definitions

* `Hex.encode`: Two lower-case digits for each byte.
* `Hex.digit?`: The value of one digit.
* `Hex.decode?`: The bytes of an even number of digits.
-/

namespace ThreeWay.Hex

/-- The lower-case digit of a number below sixteen. -/
def digit (n : Nat) : Char :=
  if n < 10 then Char.ofNat (0x30 + n) else Char.ofNat (0x57 + n)

/-- The value of a digit of either case. -/
def digit? (c : Char) : Option Nat :=
  let n := c.toNat
  if 0x30 ≤ n ∧ n ≤ 0x39 then some (n - 0x30)
  else if 0x61 ≤ n ∧ n ≤ 0x66 then some (n - 0x57)
  else if 0x41 ≤ n ∧ n ≤ 0x46 then some (n - 0x37)
  else none

/-- Two lower-case digits for each byte. -/
def encodeChars (bs : Bytes) : List Char :=
  bs.flatMap fun b => [digit (b.toNat / 16), digit (b.toNat % 16)]

/-- Two lower-case digits for each byte. -/
def encode (bs : Bytes) : String :=
  String.ofList (encodeChars bs)

/-- The bytes of a list of digits, if it holds nothing else and an even number of them. -/
def decodeChars? : List Char → Option Bytes
  | [] => some []
  | [_] => none
  | a :: b :: rest => do
    let high ← digit? a
    let low ← digit? b
    let bytes ← decodeChars? rest
    return UInt8.ofNat (high * 16 + low) :: bytes

/-- The bytes of a text of digits. -/
def decode? (s : String) : Option Bytes :=
  decodeChars? s.toList

end ThreeWay.Hex
