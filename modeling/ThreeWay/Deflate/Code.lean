import ThreeWay.Deflate.Bits

/-!
# Canonical codes

A code in which frequent symbols are written with few bits. It is given by the number of bits of each symbol
alone: shorter code words come first, and words of one length follow the order of the symbols. So the word
of a symbol is found by counting.

## Main definitions

* `Code`: How many words have each length, and the symbols in the order of their words.
* `Code.ofLengths`: The code in which each symbol has a given length.
* `Code.symbol`: Taking the next word and telling its symbol.
-/

namespace ThreeWay

/-- How many words have one bit, two bits and so on, and the symbols in the order of their words. -/
structure Code where
  counts : List Nat
  symbols : Array Nat
deriving Inhabited

namespace Code

/-- The greatest number of bits of a word. -/
def maxLength : Nat := 15

/-- The lengths that a word may have. -/
def lengths : List Nat :=
  (List.range maxLength).map (· + 1)

/-- The code in which each symbol has a given length. A symbol of length zero has no word. -/
def ofLengths (given : List Nat) : Code where
  counts := lengths.map given.count
  symbols := (lengths.flatMap fun length =>
    given.zipIdx.filterMap fun (other, symbol) => if other = length then some symbol else none).toArray

/-- Take bits until they are a word. `word` is the word so far, `first` the first word of its length, and
    `passed` the number of shorter words. -/
def symbolFrom (code : Code) : List Nat → Nat → Nat → Nat → BitReader Nat
  | [], _, _, _ => failure
  | count :: rest, word, first, passed => do
    let word := 2 * word + (← BitReader.bit)
    let first := 2 * first
    -- The words of this length are those from `first` up to `first + count`, and a greater number
    -- is the front of a longer word: shorter words come first.
    if word < first + count then
      match code.symbols[passed + (word - first)]? with
      | some symbol => return symbol
      | none => failure
    else code.symbolFrom rest word (first + count) (passed + count)

/-- Take the next word and tell its symbol. -/
def symbol (code : Code) : BitReader Nat :=
  code.symbolFrom code.counts 0 0 0

end Code

end ThreeWay
