import ThreeWay.Text.Utf8

/-!
# Sets of bytes

What stands between square brackets in a pattern: bytes, ranges of bytes and named classes, all of it
possibly negated. The named classes hold ASCII bytes only.

## Main definitions

* `ByteClass`: The named classes.
* `ByteSet`: Ranges and classes.
* `ByteSet.has`: Whether a byte belongs to a set.
-/

namespace ThreeWay

/-- The named classes of bytes. -/
inductive ByteClass where
  | alnum
  | alpha
  | blank
  | cntrl
  | digit
  | graph
  | lower
  | print
  | punct
  | space
  | upper
  | xdigit
deriving DecidableEq

namespace ByteClass

/-- The class that a name stands for. -/
def ofName? (name : Bytes) : Option ByteClass :=
  [("alnum", alnum), ("alpha", alpha), ("blank", blank), ("cntrl", cntrl), ("digit", digit),
    ("graph", graph), ("lower", lower), ("print", print), ("punct", punct), ("space", space),
    ("upper", upper), ("xdigit", xdigit)].lookup (Utf8.decodeLossy name)

/-- Whether a byte lies between two others. -/
def within (low high b : UInt8) : Bool :=
  low ≤ b && b ≤ high

/-- Whether a byte belongs to a class. -/
def has : ByteClass → UInt8 → Bool
  | .alnum, b => within 0x30 0x39 b || within 0x41 0x5A b || within 0x61 0x7A b
  | .alpha, b => within 0x41 0x5A b || within 0x61 0x7A b
  | .blank, b => b = 0x20 || b = 0x09
  | .cntrl, b => b < 0x20 || b = 0x7F
  | .digit, b => within 0x30 0x39 b
  | .graph, b => within 0x21 0x7E b
  | .lower, b => within 0x61 0x7A b
  | .print, b => within 0x20 0x7E b
  | .punct, b =>
    within 0x21 0x2F b || within 0x3A 0x40 b || within 0x5B 0x60 b || within 0x7B 0x7E b
  | .space, b => b = 0x20 || within 0x09 0x0D b
  | .upper, b => within 0x41 0x5A b
  | .xdigit, b => within 0x30 0x39 b || within 0x41 0x46 b || within 0x61 0x66 b

end ByteClass

/-- A part of a set. -/
inductive ByteSet.Item where
  | range (low high : UInt8)
  | named (name : ByteClass)
deriving DecidableEq

/-- A part that holds one byte. -/
def ByteSet.Item.byte (b : UInt8) : ByteSet.Item :=
  .range b b

/-- Whether a byte belongs to a part. -/
def ByteSet.Item.has : ByteSet.Item → UInt8 → Bool
  | .range low high, b => ByteClass.within low high b
  | .named name, b => name.has b

/-- The bytes of some parts, or all other bytes. -/
structure ByteSet where
  negated : Bool
  items : List ByteSet.Item
deriving DecidableEq

namespace ByteSet

/-- Whether a byte belongs to a set. -/
def has (s : ByteSet) (b : UInt8) : Bool :=
  s.items.any (·.has b) != s.negated

/-- The set of one byte. -/
def single (b : UInt8) : ByteSet :=
  ⟨false, [.byte b]⟩

/-- All bytes. -/
def all : ByteSet :=
  ⟨true, []⟩

end ByteSet

end ThreeWay
