import ThreeWay.Digest.Padding

/-!
# SHA-1

The 160-bit digest of a message, by which a repository names its objects.

## Main definitions

* `sha1`: The 20 bytes of the digest.
-/

namespace ThreeWay.Digest

namespace Sha1

/-- The state before the first block. -/
def initialState : List UInt32 :=
  [0x67452301, 0xefcdab89, 0x98badcfe, 0x10325476, 0xc3d2e1f0]

/-- The word that enters a window of sixteen. -/
def nextWord (window : List UInt32) : UInt32 :=
  let word (i : Nat) : UInt32 := window.getD i 0
  rotateLeft (word 13 ^^^ word 8 ^^^ word 2 ^^^ word 0) 1

/-- The five working words. -/
structure Working where
  a : UInt32
  b : UInt32
  c : UInt32
  d : UInt32
  e : UInt32

/-- The mixing function and the constant of round `i`, one pair for each twenty rounds. -/
def mixing (i : Nat) (b c d : UInt32) : UInt32 × UInt32 :=
  if i < 20 then ((b &&& c) ||| (~~~ b &&& d), 0x5a827999)
  else if i < 40 then (b ^^^ c ^^^ d, 0x6ed9eba1)
  else if i < 60 then ((b &&& c) ||| (b &&& d) ||| (c &&& d), 0x8f1bbcdc)
  else (b ^^^ c ^^^ d, 0xca62c1d6)

/-- Round `i`, with a word of the schedule. -/
def Working.next (s : Working) (i : Nat) (w : UInt32) : Working :=
  let (mixed, k) := mixing i s.b s.c s.d
  ⟨rotateLeft s.a 5 + mixed + s.e + k + w, s.a, rotateLeft s.b 30, s.c, s.d⟩

/-- The working words of a state. -/
def Working.ofState : List UInt32 → Working
  | [a, b, c, d, e] => ⟨a, b, c, d, e⟩
  | _ => ⟨0, 0, 0, 0, 0⟩

/-- The working words as a list. -/
def Working.toList (s : Working) : List UInt32 :=
  [s.a, s.b, s.c, s.d, s.e]

/-- The state after one block. -/
def step (state block : List UInt32) : List UInt32 :=
  let rounds := (schedule nextWord 80 block).zipIdx
  let final := rounds.foldl (fun s (w, i) => s.next i w) (Working.ofState state)
  List.zipWith (· + ·) state final.toList

end Sha1

/-- The SHA-1 digest of a message. -/
def sha1 (message : Bytes) : Bytes :=
  digestOf Sha1.step Sha1.initialState message

end ThreeWay.Digest
