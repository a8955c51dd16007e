/-!
# UTF-8

Reading bytes as text, both where the text must be valid and where it need not be.

`decodeUnits` reads a byte string in one pass. Each unit of the result is a character, or `none` for
a *maximal invalid part*: the longest run of bytes that starts a well-formed sequence and then breaks
off, or one byte that starts none. Both readings come from it: the strict one refuses a text with
an invalid part, the lossy one puts the replacement character in its place.

The state between two bytes is what the first byte of a sequence leaves open: how many continuation
bytes are owed, and the range of the next one. The narrow ranges after `E0`, `ED`, `F0` and `F4`
exclude overlong forms, surrogates and numbers above the last code point.

## Main definitions

* `Bytes`: A byte string.
* `decodeUnits`: Characters and maximal invalid parts, in order.
* `decode?`: The text of a valid byte string.
* `decodeLossy`: The text with U+FFFD for each invalid part.
* `encode`: The bytes of a text.
-/

namespace ThreeWay

/-- A byte string: the name of a file, the content of a file, the text of a path. -/
abbrev Bytes := List UInt8

namespace Utf8

/-- An unfinished sequence: the bytes owed after the next one, the range of the next one, and the
    bits read so far. -/
structure Pending where
  owed : Nat
  low : UInt8
  high : UInt8
  code : Nat

/-- What a byte at the start of a sequence says. -/
inductive Lead where
  | character (c : Char)
  | sequence (p : Pending)
  | invalid

/-- The meaning of the first byte of a sequence. -/
def Lead.ofByte (b : UInt8) : Lead :=
  let bits (mask : UInt8) : Nat := (b &&& mask).toNat
  if b < 0x80 then .character (Char.ofNat b.toNat)
  -- A following byte on its own, or the front of a sequence for what one byte can write.
  else if b < 0xC2 then .invalid
  else if b < 0xE0 then .sequence ⟨0, 0x80, 0xBF, bits 0x1F⟩
  -- The next byte has a smaller range where a shorter sequence would do, where halves of
  -- surrogate pairs would lie, and above the last code point.
  else if b = 0xE0 then .sequence ⟨1, 0xA0, 0xBF, bits 0x0F⟩
  else if b = 0xED then .sequence ⟨1, 0x80, 0x9F, bits 0x0F⟩
  else if b < 0xF0 then .sequence ⟨1, 0x80, 0xBF, bits 0x0F⟩
  else if b = 0xF0 then .sequence ⟨2, 0x90, 0xBF, bits 0x07⟩
  else if b < 0xF4 then .sequence ⟨2, 0x80, 0xBF, bits 0x07⟩
  else if b = 0xF4 then .sequence ⟨2, 0x80, 0x8F, bits 0x07⟩
  else .invalid

/-- The characters and maximal invalid parts of a byte string, after a possibly unfinished
    sequence. A byte outside the range that the sequence owes ends it and is read again as a first
    byte. -/
def decodeFrom : Option Pending → Bytes → List (Option Char)
  | none, [] => []
  | some _, [] => [none]
  | some p, b :: bs =>
    if p.low ≤ b ∧ b ≤ p.high then
      let code := p.code * 64 + (b &&& 0x3F).toNat
      match p.owed with
      | 0 => some (Char.ofNat code) :: decodeFrom none bs
      | owed + 1 => decodeFrom (some ⟨owed, 0x80, 0xBF, code⟩) bs
    else
      match Lead.ofByte b with
      | .character c => none :: some c :: decodeFrom none bs
      | .sequence q => none :: decodeFrom (some q) bs
      | .invalid => none :: none :: decodeFrom none bs
  | none, b :: bs =>
    match Lead.ofByte b with
    | .character c => some c :: decodeFrom none bs
    | .sequence q => decodeFrom (some q) bs
    | .invalid => none :: decodeFrom none bs

/-- The characters and maximal invalid parts of a byte string. -/
def decodeUnits (bs : Bytes) : List (Option Char) :=
  decodeFrom none bs

/-- The text of a byte string, if it is valid. -/
def decode? (bs : Bytes) : Option String :=
  ((decodeUnits bs).mapM id).map String.ofList

/-- Stands for an invalid part of a byte string. -/
def replacement : Char := '\ufffd'

/-- The text of a byte string, with the replacement character for each maximal invalid part. -/
def decodeLossy (bs : Bytes) : String :=
  String.ofList ((decodeUnits bs).map (·.getD replacement))

/-- The bytes of a text. -/
def encode (s : String) : Bytes :=
  s.toList.flatMap String.utf8EncodeChar

end Utf8

end ThreeWay
