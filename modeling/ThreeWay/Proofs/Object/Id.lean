import Mathlib.Data.List.Basic
import ThreeWay.Object.Id

/-!
# Object Ids Read Back

An id is shown as forty hexadecimal digits, and reading them gives the id back. Contents are asked for by
the text of an id, so this is what lets a comparison by bytes find the object that an entry names.

The number of digits is the only fact about the digest that is needed: its state always has five words.

Both digests are folds over blocks, and a fold that keeps the length of a state by one step keeps it by all of
them.

## Main definitions

* `ObjectId.IsDigest`: An id that is written in the digits of twenty bytes.

## Theorems

* `Digest.length_foldBlocks`: A step that keeps the length of a state keeps it through all blocks.
* `length_sha1`: A digest has twenty bytes.
* `digits_of_digits`: Lower-case digits are read as themselves.
* `parse?_ofObject`: The id of an object is read back from its digits.
-/

namespace ThreeWay

namespace Digest

theorem length_bigEndian (n value : Nat) : (bigEndian n value).length = n := by
  induction n generalizing value with
  | zero => rfl
  | succ n ih => rw [bigEndian, List.length_append, ih, List.length_singleton]

/-- A step on states of one length keeps their length through all blocks. -/
theorem length_foldBlocks {step : List UInt32 → List UInt32 → List UInt32} {n : Nat}
    (hstep : ∀ state block, state.length = n → (step state block).length = n)
    (state ws : List UInt32) (h : state.length = n) : (foldBlocks step state ws).length = n := by
  -- On the blocks that are left, whatever the step does with one of them.
  induction state, ws using foldBlocks.induct step with
  | case1 state =>
      rw [foldBlocks]
      exact h
  | case2 state w rest ih =>
      rw [foldBlocks]
      exact ih (hstep _ _ h)

theorem length_sha1_step (state block : List UInt32) (h : state.length = 5) :
    (Sha1.step state block).length = 5 := by
  simp only [Sha1.step, Sha1.Working.toList, List.length_zipWith, h, List.length_cons,
    List.length_nil, Nat.min_self]

/-- A digest has twenty bytes. -/
theorem length_sha1 (message : Bytes) : (sha1 message).length = 20 := by
  rw [sha1, digestOf, List.length_flatMap]
  simp only [length_bigEndian, List.map_const', List.sum_replicate_nat]
  rw [length_foldBlocks length_sha1_step _ _ rfl]

end Digest

namespace Hex

theorem digit?_digit {n : Nat} (h : n < 16) : digit? (digit n) = some n := by
  revert n
  decide

theorem length_encodeChars (bs : Bytes) : (encodeChars bs).length = 2 * bs.length := by
  rw [encodeChars, List.length_flatMap]
  simp only [List.length_cons, List.length_nil, List.map_const', List.sum_replicate_nat]
  omega

/-- What is written is made of digits. -/
theorem exists_of_mem_encodeChars {bs : Bytes} {c : Char} (h : c ∈ encodeChars bs) :
    ∃ n < 16, c = digit n := by
  rcases List.mem_flatMap.mp h with ⟨b, _, hc⟩
  simp only [List.mem_cons, List.not_mem_nil, or_false] at hc
  rcases hc with rfl | rfl
  · exact ⟨b.toNat / 16, by have := b.toNat_lt; omega, rfl⟩
  · exact ⟨b.toNat % 16, Nat.mod_lt _ (by omega), rfl⟩

end Hex

namespace ObjectId

/-- Lower-case digits are read as themselves. -/
theorem digits_of_digits {cs : List Char} (h : ∀ c ∈ cs, ∃ n < 16, c = Hex.digit n) :
    (cs.mapM Hex.digit?).map (·.map Hex.digit) = some cs := by
  induction cs with
  | nil => rfl
  | cons c cs ih =>
      -- The text is made of digits, each of which is read and written again.
      rcases h c List.mem_cons_self with ⟨n, hn, rfl⟩
      have hi := ih fun d hd => h d (List.mem_cons_of_mem _ hd)
      rcases Option.map_eq_some_iff.mp hi with ⟨values, hv, hm⟩
      rw [List.mapM_cons, Hex.digit?_digit hn, hv]
      change some (Hex.digit n :: values.map Hex.digit) = _
      rw [hm]

theorem parse?_encode {bs : Bytes} (h : bs.length = 20) :
    parse? (Hex.encode bs) = some ⟨Hex.encode bs⟩ := by
  have hd : digits? (Hex.encode bs) = some (Hex.encodeChars bs) := by
    rw [digits?, Hex.encode, String.toList_ofList]
    exact digits_of_digits fun c hc => Hex.exists_of_mem_encodeChars hc
  have hlen : (Hex.encodeChars bs).length = length := by
    rw [Hex.length_encodeChars, h]
    rfl
  have hne : Hex.encodeChars bs ≠ [] := by
    intro he
    rw [he] at hlen
    cases hlen
  -- Forty digits are a whole id, so no zeros are put behind them.
  rw [parse?, hd]
  change (if Hex.encodeChars bs = [] ∨ length < (Hex.encodeChars bs).length then none
    else some (ObjectId.mk (String.ofList (Hex.encodeChars bs ++
      List.replicate (length - (Hex.encodeChars bs).length) '0')))) = _
  rw [if_neg (not_or.mpr ⟨hne, by omega⟩), hlen, Nat.sub_self, List.replicate_zero,
    List.append_nil, Hex.encode]

/-- An id that is written in the digits of twenty bytes. -/
def IsDigest (id : ObjectId) : Prop :=
  ∃ bytes : Bytes, bytes.length = 20 ∧ id.hex = Hex.encode bytes

theorem IsDigest.parse? {id : ObjectId} (h : id.IsDigest) : ObjectId.parse? id.hex = some id := by
  rcases h with ⟨bytes, length, digits⟩
  rw [digits, parse?_encode length, ← digits]

theorem isDigest_ofBlob (content : Bytes) : (ofBlob content).IsDigest :=
  ⟨_, Digest.length_sha1 _, rfl⟩

/-- The id of an object is read back from its digits. -/
theorem parse?_ofObject (kind : String) (content : Bytes) :
    parse? (ofObject kind content).hex = some (ofObject kind content) :=
  parse?_encode (Digest.length_sha1 _)

end ObjectId

end ThreeWay
