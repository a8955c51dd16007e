import ThreeWay.Text.ByteSet

/-!
# Regular expressions

An expression matches a stretch of a text. Whether an expression without bytes of its own matches
between two bytes may depend on these two bytes, as for the start and the end of the text and for the
edges of words.

A search takes the bytes of the text one after the other and keeps the expressions that the rest may
still match. Taking a byte off an expression leaves finitely many expressions, its *remainders*, and a
search that may start anywhere adds the expression itself at every position.

## Main definitions

* `Regex`: An expression.
* `Regex.matchesEmpty`: Whether an expression matches between two bytes.
* `Regex.remainders`: What is left of an expression after one byte.
* `Regex.isFoundIn`: Whether some stretch of a text matches.
-/

namespace ThreeWay

/-- Places between two bytes. -/
inductive Anchor where
  | textStart
  | textEnd
  | wordStart
  | wordEnd
  | wordEdge
  | notWordEdge
deriving DecidableEq

/-- A regular expression. -/
inductive Regex where
  | empty
  | anchor (a : Anchor)
  | byte (s : ByteSet)
  | seq (r s : Regex)
  | alt (r s : Regex)
  | star (r : Regex)
deriving DecidableEq

/-- The bytes before and after a position, where there are any. -/
structure Surroundings where
  before : Option UInt8
  after : Option UInt8

namespace Surroundings

/-- Whether a byte belongs to words: a letter, a digit or an underscore. -/
def isWordByte (b : UInt8) : Bool :=
  ByteClass.alnum.has b || b = 0x5F

/-- Whether a word goes on at the byte before. -/
def wordBefore (s : Surroundings) : Bool :=
  s.before.any isWordByte

/-- Whether a word goes on at the byte after. -/
def wordAfter (s : Surroundings) : Bool :=
  s.after.any isWordByte

end Surroundings

/-- Whether a position is of the kind that an anchor asks for. -/
def Anchor.holds (s : Surroundings) : Anchor → Bool
  | .textStart => s.before.isNone
  | .textEnd => s.after.isNone
  | .wordStart => !s.wordBefore && s.wordAfter
  | .wordEnd => s.wordBefore && !s.wordAfter
  | .wordEdge => s.wordBefore != s.wordAfter
  | .notWordEdge => s.wordBefore == s.wordAfter

namespace Regex

/-- Whether an expression matches no bytes at a position. -/
def matchesEmpty (s : Surroundings) : Regex → Bool
  | .empty => true
  | .anchor a => a.holds s
  | .byte _ => false
  | .seq r t => r.matchesEmpty s && t.matchesEmpty s
  | .alt r t => r.matchesEmpty s || t.matchesEmpty s
  | .star _ => true

/-- What is left of an expression after it took the byte behind a position. -/
def remainders (s : Surroundings) (b : UInt8) : Regex → List Regex
  | .empty => []
  | .anchor _ => []
  | .byte set => if set.has b then [.empty] else []
  | .seq r t =>
    let first := (r.remainders s b).map fun left => .seq left t
    if r.matchesEmpty s then first ++ t.remainders s b else first
  | .alt r t => r.remainders s b ++ t.remainders s b
  -- Only a round that takes the byte is followed, so a round over nothing never loops.
  | .star r => (r.remainders s b).map fun left => .seq left (.star r)

/-- Whether one of the expressions, or `r` from some later position on, matches. -/
def search (r : Regex) (active : List Regex) (before : Option UInt8) : List UInt8 → Bool
  | [] => active.any (·.matchesEmpty ⟨before, none⟩)
  | b :: rest =>
    let here : Surroundings := ⟨before, some b⟩
    active.any (·.matchesEmpty here) ||
      -- A match may also start behind this byte.
      search r ((active.flatMap (·.remainders here b)).eraseDups ++ [r]) (some b) rest

/-- Whether some stretch of a text matches. -/
def isFoundIn (r : Regex) (text : List UInt8) : Bool :=
  search r [r] none text

/-- Between `low` and `high` repetitions of an expression, or any number from `low` on. -/
def repeated (r : Regex) (low : Nat) (high : Option Nat) : Regex :=
  let rest := match high with
    | none => .star r
    | some high => (List.replicate (high - low) r).foldr (fun r t => .alt .empty (.seq r t)) .empty
  (List.replicate low r).foldr .seq rest

end Regex

end ThreeWay
