import ThreeWay.Path.Raw
import ThreeWay.Proofs.Text.Utf8

/-!
# Reading Bytes That Are No Text

A path of a file system need not be a text, and it is read all the same, with a replacement character for each
invalid part. What matters for paths is that their separators come through: reading whole and cutting afterwards is
the same as cutting first and reading the pieces.

Both directions hang on the bytes of the ASCII range. Such a byte continues nothing, so it ends whatever stands
before it, finished or not, and what stands behind it is read from the start. And it is the only way to write its
character. Bits could be put together to make a slash out of longer sequences, but these are the overlong forms,
and the range of the second byte leaves them out: `Pending.Late` says so of every state of the reader.

The reader is a function of its state and of the bytes, and so is everything here: a statement about reading from
the start is proved for any state that may come about on the way. A byte is read from the start where nothing is
pending or where it is out of the range that the pending sequence allows, and these two cases are one
(`decodeFrom_out`).

## Main definitions

* `Pending.Late`: An unfinished sequence that can only end beyond the ASCII range.

## Theorems

* `late_of_ofByte`, `Pending.Late.next`, `Pending.Late.last`: A sequence is late, stays late and ends so.
* `decodeFrom_append`: What stands before a byte of the ASCII range and what stands behind it are read apart.
* `origin_of_mem_decodeFrom`: What a character is read from.
* `decodeLossy_append`: A byte of the ASCII range is read as its character, whatever stands around it.
* `mem_decodeLossy`: Such a byte occurs exactly where its character is read.
* `decodeLossy_ne_nil`: Bytes are not read as nothing.
* `head?_decodeLossy`: A byte of the ASCII range at the front is read at the front.
* `decodeLossy_intercalate`: Pieces are read one by one.
-/

namespace ThreeWay

namespace Utf8

/-- An unfinished sequence whose next byte is beyond the ASCII range, and whose character is too, however it
    goes on. -/
structure Pending.Late (p : Pending) : Prop where
  low : 0x80 ≤ p.low.toNat
  high : p.high.toNat ≤ 0xBF
  code : 0x80 ≤ (p.code * 64 + p.low.toNat % 64) * 64 ^ p.owed

/-- Every sequence is late, since the range of its second byte leaves out what a shorter one can write. -/
theorem late_of_ofByte {b : UInt8} {p : Pending} (h : Lead.ofByte b = .sequence p) : p.Late := by
  -- By the range of the lead byte, in the order in which the reader asks.
  by_cases ascii : b.toNat < 0x80
  · rw [ofByte_ascii ascii] at h
    cases h
  by_cases invalid : b.toNat < 0xC2 ∨ 0xF4 < b.toNat
  · rw [ofByte_invalid (by omega)] at h
    cases h
  by_cases two : b.toNat < 0xE0
  · rw [ofByte_two (by omega) two] at h
    cases h
    constructor <;> simp
    omega
  by_cases three : b.toNat < 0xF0
  · rw [ofByte_three (by omega) three] at h
    cases h
    unfold secondOfThree
    split_ifs <;> constructor <;> simp <;> omega
  · rw [ofByte_four (by omega) (by omega)] at h
    cases h
    unfold secondOfFour
    split_ifs <;> constructor <;> simp <;> omega

section

variable {p : Pending} {b : UInt8} {bs : Bytes}

/-- A byte of the range leaves a late sequence late. -/
theorem Pending.Late.next (h : p.Late) (range : p.low ≤ b ∧ b ≤ p.high) {owed : Nat} (more : p.owed = owed + 1) :
    Pending.Late ⟨owed, 0x80, 0xBF, p.code * 64 + b.toNat % 64⟩ := by
  rw [UInt8.le_iff_toNat_le, UInt8.le_iff_toNat_le] at range
  have hl := h.low
  have hh := h.high
  have hc := h.code
  rw [more, pow_succ, Nat.mul_comm (64 ^ owed) 64, ← Nat.mul_assoc] at hc
  have zero : (0x80 : UInt8).toNat % 64 = 0 := by decide
  refine ⟨le_refl _, le_refl _, hc.trans (Nat.mul_le_mul_right _ ?_)⟩
  simp only [zero]
  omega

/-- The last byte of a late sequence ends it beyond the ASCII range. -/
theorem Pending.Late.last (h : p.Late) (range : p.low ≤ b ∧ b ≤ p.high) (last : p.owed = 0) :
    0x80 ≤ p.code * 64 + b.toNat % 64 := by
  rw [UInt8.le_iff_toNat_le, UInt8.le_iff_toNat_le] at range
  have hl := h.low
  have hh := h.high
  have hc := h.code
  rw [last, pow_zero, Nat.mul_one] at hc
  omega

/-- A byte out of the range ends a sequence as an invalid part and is read from the start. -/
theorem decodeFrom_out (range : ¬ (p.low ≤ b ∧ b ≤ p.high)) :
    decodeFrom (some p) (b :: bs) = none :: decodeFrom none (b :: bs) := by
  rw [decodeFrom, if_neg range, decodeFrom]
  cases Lead.ofByte b <;> rfl

theorem decodeFrom_in (range : p.low ≤ b ∧ b ≤ p.high) :
    decodeFrom (some p) (b :: bs) = match p.owed with
      | 0 => some (Char.ofNat (p.code * 64 + b.toNat % 64)) :: decodeFrom none bs
      | owed + 1 => decodeFrom (some ⟨owed, 0x80, 0xBF, p.code * 64 + b.toNat % 64⟩) bs := by
  have hm : (b &&& 0x3F).toNat = b.toNat % 64 := toNat_low b (k := 6) rfl
  rw [decodeFrom, if_pos range]
  cases p.owed with
  | zero => exact congrArg (fun low => some (Char.ofNat (p.code * 64 + low)) :: decodeFrom none bs) hm
  | succ owed => exact congrArg (fun low => decodeFrom (some ⟨owed, 0x80, 0xBF, p.code * 64 + low⟩) bs) hm

theorem late_none : ∀ p ∈ (none : Option Pending), p.Late :=
  fun _ hp => nomatch hp

theorem late_some (h : p.Late) : ∀ q ∈ some p, q.Late :=
  fun _ hq => Option.some.inj hq ▸ h

end

/-- What stands before a byte of the ASCII range and what stands behind it are read apart. -/
theorem decodeFrom_append {state : Option Pending} (late : ∀ p ∈ state, p.Late) (xs ys : Bytes) {b : UInt8}
    (ascii : b.toNat < 0x80) :
    decodeFrom state (xs ++ b :: ys) =
      decodeFrom state xs ++ some (Char.ofNat b.toNat) :: decodeFrom none ys := by
  -- On the bytes in front. The state is any that is late, as each byte may start a sequence or end one.
  induction xs generalizing state with
  | nil =>
      have start : decodeFrom none (b :: ys) = some (Char.ofNat b.toNat) :: decodeFrom none ys := by
        rw [decodeFrom, ofByte_ascii ascii]
      cases state with
      | none => exact start
      | some p =>
          have hlow := (late p rfl).low
          rw [List.nil_append, decodeFrom_out (by rw [UInt8.le_iff_toNat_le]; omega), start]
          rfl
  | cons x xs ih =>
      -- What a byte does that is read from the start, be it because nothing is pending or because it is out of range.
      have start : decodeFrom none (x :: (xs ++ b :: ys)) =
          decodeFrom none (x :: xs) ++ some (Char.ofNat b.toNat) :: decodeFrom none ys := by
        rw [decodeFrom, decodeFrom]
        cases hx : Lead.ofByte x with
        | character c => exact congrArg (some c :: ·) (ih late_none)
        | sequence p => exact ih (late_some (late_of_ofByte hx))
        | invalid => exact congrArg (none :: ·) (ih late_none)
      cases state with
      | none => exact start
      | some p =>
          rw [List.cons_append]
          by_cases range : p.low ≤ x ∧ x ≤ p.high
          · rw [decodeFrom_in range, decodeFrom_in range]
            cases howed : p.owed with
            | zero => exact congrArg (some _ :: ·) (ih late_none)
            | succ owed => exact ih (late_some ((late p rfl).next range howed))
          · rw [decodeFrom_out range, decodeFrom_out range, start]
            rfl

/-- A character is read from a byte of the ASCII range, or from a sequence beyond it. -/
theorem origin_of_mem_decodeFrom {state : Option Pending} (late : ∀ p ∈ state, p.Late) {bs : Bytes} {c : Char}
    (h : some c ∈ decodeFrom state bs) :
    (∃ b ∈ bs, b.toNat < 0x80 ∧ c = Char.ofNat b.toNat) ∨ ∃ n, 0x80 ≤ n ∧ c = Char.ofNat n := by
  -- On the bytes, again in any late state: a character is read from the first one, at the end of a pending sequence,
  -- or from the rest.
  induction bs generalizing state with
  | nil =>
      cases state with
      | none => exact absurd h List.not_mem_nil
      | some p =>
          rw [decodeFrom, List.mem_singleton] at h
          cases h
  | cons x xs ih =>
      -- What is read from the rest comes from a byte of the rest.
      have rest : ∀ {state : Option Pending}, (∀ p ∈ state, p.Late) → some c ∈ decodeFrom state xs →
          (∃ b ∈ x :: xs, b.toNat < 0x80 ∧ c = Char.ofNat b.toNat) ∨ ∃ n, 0x80 ≤ n ∧ c = Char.ofNat n := by
        intro state hlate hm
        rcases ih hlate hm with ⟨b, hb, origin⟩ | wide
        · exact Or.inl ⟨b, List.mem_cons_of_mem _ hb, origin⟩
        · exact Or.inr wide
      have start : some c ∈ decodeFrom none (x :: xs) →
          (∃ b ∈ x :: xs, b.toNat < 0x80 ∧ c = Char.ofNat b.toNat) ∨ ∃ n, 0x80 ≤ n ∧ c = Char.ofNat n := by
        intro hm
        rw [decodeFrom] at hm
        by_cases ascii : x.toNat < 0x80
        · rw [ofByte_ascii ascii, List.mem_cons, Option.some.injEq] at hm
          rcases hm with rfl | hm
          · exact Or.inl ⟨x, List.mem_cons_self, ascii, rfl⟩
          · exact rest late_none hm
        · cases hx : Lead.ofByte x with
          | character d =>
              -- Only a byte of the ASCII range is a character of its own.
              rw [Lead.ofByte] at hx
              simp only [UInt8.lt_iff_toNat_lt] at hx
              split_ifs at hx with small
              exact absurd small ascii
          | sequence p =>
              rw [hx] at hm
              exact rest (late_some (late_of_ofByte hx)) hm
          | invalid =>
              rw [hx, List.mem_cons] at hm
              rcases hm with hm | hm
              · cases hm
              · exact rest late_none hm
      cases state with
      | none => exact start h
      | some p =>
          by_cases range : p.low ≤ x ∧ x ≤ p.high
          · rw [decodeFrom_in range] at h
            cases howed : p.owed with
            | zero =>
                rw [howed, List.mem_cons, Option.some.injEq] at h
                rcases h with rfl | h
                · exact Or.inr ⟨_, (late p rfl).last range howed, rfl⟩
                · exact rest late_none h
            | succ owed =>
                rw [howed] at h
                exact rest (late_some ((late p rfl).next range howed)) h
          · rw [decodeFrom_out range, List.mem_cons] at h
            rcases h with h | h
            · cases h
            · exact start h

theorem toList_decodeLossy (bs : Bytes) :
    (decodeLossy bs).toList = (decodeFrom none bs).map (·.getD replacement) :=
  String.toList_ofList

/-- Whatever stands around it, a byte of the ASCII range is read as its character. -/
theorem decodeLossy_append (xs ys : Bytes) {b : UInt8} (ascii : b.toNat < 0x80) :
    (decodeLossy (xs ++ b :: ys)).toList =
      (decodeLossy xs).toList ++ Char.ofNat b.toNat :: (decodeLossy ys).toList := by
  rw [toList_decodeLossy, toList_decodeLossy, toList_decodeLossy, decodeFrom_append late_none xs ys ascii,
    List.map_append]
  rfl

/-- A byte of the ASCII range occurs exactly where its character is read. The zero byte is left out, since a number
    that is no code point would count as it. -/
theorem mem_decodeLossy {b : UInt8} (ascii : b.toNat < 0x80) (positive : 0 < b.toNat) {bs : Bytes} :
    Char.ofNat b.toNat ∈ (decodeLossy bs).toList ↔ b ∈ bs := by
  have value : ∀ n, n < 0x80 → (Char.ofNat n).val.toNat = n := fun n hn => val_ofNat (Or.inl (by omega))
  constructor
  · intro h
    rw [toList_decodeLossy, List.mem_map] at h
    rcases h with ⟨unit, hunit, hc⟩
    cases unit with
    | none =>
        -- The replacement character is beyond the ASCII range.
        have hv := congrArg (fun c : Char => c.val.toNat) hc
        rw [value _ ascii] at hv
        change 0xFFFD = b.toNat at hv
        omega
    | some c =>
        rw [Option.getD_some] at hc
        subst hc
        rcases origin_of_mem_decodeFrom late_none hunit with ⟨other, hm, small, same⟩ | ⟨n, wide, same⟩
        · have hv := congrArg (fun c : Char => c.val.toNat) same
          rw [value _ ascii, value _ small] at hv
          rwa [UInt8.toNat_inj.mp hv]
        · have hv := congrArg (fun c : Char => c.val.toNat) same
          rw [value _ ascii] at hv
          by_cases point : n < 0xD800 ∨ 0xDFFF < n ∧ n < 0x110000
          · rw [val_ofNat point] at hv
            omega
          · have zero : (Char.ofNat n).val.toNat = 0 := by
              rw [Char.ofNat, dif_neg point]
              rfl
            omega
  · intro h
    rcases List.append_of_mem h with ⟨xs, ys, rfl⟩
    rw [decodeLossy_append xs ys ascii]
    exact List.mem_append_right _ List.mem_cons_self

theorem decodeFrom_some_ne_nil (p : Pending) (bs : Bytes) : decodeFrom (some p) bs ≠ [] := by
  -- A sequence ends with a character, with an invalid part, or is continued by the next byte.
  induction bs generalizing p with
  | nil => exact List.cons_ne_nil _ _
  | cons b bs ih =>
      by_cases range : p.low ≤ b ∧ b ≤ p.high
      · rw [decodeFrom_in range]
        cases p.owed with
        | zero => exact List.cons_ne_nil _ _
        | succ owed => exact ih _
      · rw [decodeFrom_out range]
        exact List.cons_ne_nil _ _

/-- Bytes are not read as nothing. -/
theorem decodeLossy_ne_nil {bs : Bytes} (h : bs ≠ []) : (decodeLossy bs).toList ≠ [] := by
  rw [toList_decodeLossy, ne_eq, List.map_eq_nil_iff]
  cases bs with
  | nil => exact absurd rfl h
  | cons b bs =>
      rw [decodeFrom]
      cases Lead.ofByte b with
      | character c => exact List.cons_ne_nil _ _
      | sequence p => exact decodeFrom_some_ne_nil p bs
      | invalid => exact List.cons_ne_nil _ _

/-- A byte of the ASCII range stands at the front exactly where its character is read at the front. -/
theorem head?_decodeLossy {b : UInt8} (ascii : b.toNat < 0x80) (positive : 0 < b.toNat) {bs : Bytes} :
    (decodeLossy bs).toList.head? = some (Char.ofNat b.toNat) ↔ bs.head? = some b := by
  constructor
  · intro h
    -- What stands before the first such byte is read without its character.
    rcases List.eq_append_cons_of_mem ((mem_decodeLossy ascii positive).mp (List.mem_of_head? h)) with
      ⟨front, rest, rfl, free⟩
    cases front with
    | nil => rfl
    | cons x front =>
        have hne := decodeLossy_ne_nil (List.cons_ne_nil x front)
        rw [decodeLossy_append _ _ ascii, List.head?_append_of_ne_nil _ hne] at h
        exact absurd ((mem_decodeLossy ascii positive).mp (List.mem_of_head? h)) free
  · intro h
    rcases List.head?_eq_some_iff.mp h with ⟨rest, rfl⟩
    rw [← List.nil_append (b :: rest), decodeLossy_append _ _ ascii]
    rfl

/-- The pieces between slashes are read one by one. -/
theorem decodeLossy_intercalate (pieces : List Bytes) :
    (decodeLossy ([RawPath.slash].intercalate pieces)).toList =
      ['/'].intercalate (pieces.map fun piece => (decodeLossy piece).toList) := by
  -- Piece by piece; the slash behind a piece is a byte of the ASCII range.
  induction pieces with
  | nil => rfl
  | cons piece rest ih =>
      by_cases hne : rest = []
      · rw [hne, List.map_singleton, List.intercalate_singleton, List.intercalate_singleton]
      · rw [List.intercalate_cons_of_ne_nil hne, List.append_assoc, List.singleton_append,
          decodeLossy_append _ _ (by decide), ih, List.map_cons,
          List.intercalate_cons_of_ne_nil (mt List.map_eq_nil_iff.mp hne), List.append_assoc]
        rfl

end Utf8

end ThreeWay
