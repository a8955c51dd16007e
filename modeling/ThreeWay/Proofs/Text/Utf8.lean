import Mathlib.Data.String.Basic
import Mathlib.Data.Nat.Bitwise
import ThreeWay.Text.Utf8

/-!
# Reading Text Back from Its Bytes

What a text and its bytes have to do with each other: reading the bytes of a text gives the text, and
the order of texts is the order of their bytes.

The first fact is about one character. `decodeFrom_encodeChar` walks the bytes of a character through
the reader: the lead byte says how many bytes follow and which range the next one has, and a byte that
the encoder writes always falls into that range. A text is then read character by character.

The second fact is what makes one order of names serve everywhere. Listings of a store are ordered by
texts and the names on a disk by bytes, and `encode_lt_encode` says that the two orders are the same.

The other way round, bytes that are read without an invalid part are the bytes of what is read. There is one
way to write a character, so the reader takes no other.

The lead byte tells how long a sequence is and where the range of its second byte begins and ends. The four forms
have a lemma each for the reader and one for the writer, so that both directions are a matter of arithmetic.

Reading is a walk through the bytes with a state: nothing is pending, or a sequence of which some bytes are owed.
A lemma about a whole text has to speak of the reader in any state, or of what follows a character, and that is
why most lemmas here have a list of further bytes behind what they are about.

The order of texts is decided by the first character that differs, and the order of bytes by the first byte. The
encoding keeps the order of characters, a longer sequence having the greater lead byte, and no sequence is the
beginning of another one. So the first byte that differs is in the first character that does.

## Theorems

* `ofByte_ascii`, `ofByte_two`, `ofByte_three`, `ofByte_four`, `ofByte_invalid`: What a lead byte says.
* `decodeFrom_more`, `decodeFrom_last`: A byte that a sequence owes.
* `decodeFrom_encodeChar`: One character is read back, whatever follows it.
* `decodeFrom_flatMap`, `decodeUnits_flatMap`: A list of characters is read back.
* `decode?_encode`, `decodeLossy_encode`: A text is read back by both readings.
* `encodeChar_one`, `encodeChar_two`, `encodeChar_three`, `encodeChar_four`: A valid sequence is what its
  character is written as.
* `encode_of_decode?`: Valid bytes are those of the text that is read.
* `encode_injective`: Two texts with the same bytes are equal.
* `encode_isPrefix_encode`: A text continues another one where its bytes do.
* `mem_encode`: A byte of the ASCII range occurs where its character does.
* `encodeChar_lt`, `encodeChars_lt`: The encoding keeps the order.
* `encode_lt_encode`: The order of texts is the order of their bytes.
-/

namespace ThreeWay

namespace Utf8

/-- The low bits of a byte. -/
theorem toNat_low (b : UInt8) {mask : UInt8} {k : Nat} (h : mask.toNat = 2 ^ k - 1) :
    (b &&& mask).toNat = b.toNat % 2 ^ k := by
  rw [UInt8.toNat_and, h]
  exact Nat.and_two_pow_sub_one_eq_mod _ k

theorem ofByte_ascii {b : UInt8} (h : b.toNat < 0x80) :
    Lead.ofByte b = .character (Char.ofNat b.toNat) := by
  simp only [Lead.ofByte, UInt8.lt_iff_toNat_lt]
  rw [if_pos (by simpa using h)]

theorem ofByte_two {b : UInt8} (hl : 0xC2 ≤ b.toNat) (hu : b.toNat < 0xE0) :
    Lead.ofByte b = .sequence ⟨0, 0x80, 0xBF, b.toNat % 32⟩ := by
  have hm : (b &&& 0x1F).toNat = b.toNat % 32 := toNat_low b (k := 5) rfl
  simp only [Lead.ofByte, UInt8.lt_iff_toNat_lt, hm]
  rw [if_neg (by simp; omega), if_neg (by simp; omega), if_pos (by simpa using hu)]

/-- The range of the byte behind a three-byte lead, which leaves out overlong forms and surrogates. -/
def secondOfThree (lead : Nat) : UInt8 × UInt8 :=
  if lead = 0xE0 then (0xA0, 0xBF) else if lead = 0xED then (0x80, 0x9F) else (0x80, 0xBF)

/-- The range of the byte behind a four-byte lead, which leaves out overlong forms and numbers above the
    last code point. -/
def secondOfFour (lead : Nat) : UInt8 × UInt8 :=
  if lead = 0xF0 then (0x90, 0xBF) else if lead = 0xF4 then (0x80, 0x8F) else (0x80, 0xBF)

theorem ofByte_three {b : UInt8} (hl : 0xE0 ≤ b.toNat) (hu : b.toNat < 0xF0) :
    Lead.ofByte b =
      .sequence ⟨1, (secondOfThree b.toNat).1, (secondOfThree b.toNat).2, b.toNat % 16⟩ := by
  have hm : (b &&& 0x0F).toNat = b.toNat % 16 := toNat_low b (k := 4) rfl
  simp only [Lead.ofByte, UInt8.lt_iff_toNat_lt, ← UInt8.toNat_inj, hm, secondOfThree]
  rw [if_neg (by simp; omega), if_neg (by simp; omega), if_neg (by simp; omega)]
  -- Two lead bytes have a narrower range behind them, and the reader asks for these first.
  by_cases h0 : b.toNat = 0xE0
  · rw [if_pos (by simpa using h0), if_pos h0]
  · rw [if_neg (by simpa using h0), if_neg h0]
    by_cases hd : b.toNat = 0xED
    · rw [if_pos (by simpa using hd), if_pos hd]
    · rw [if_neg (by simpa using hd), if_neg hd, if_pos (by simpa using hu)]

theorem ofByte_four {b : UInt8} (hl : 0xF0 ≤ b.toNat) (hu : b.toNat ≤ 0xF4) :
    Lead.ofByte b =
      .sequence ⟨2, (secondOfFour b.toNat).1, (secondOfFour b.toNat).2, b.toNat % 8⟩ := by
  have hm : (b &&& 0x07).toNat = b.toNat % 8 := toNat_low b (k := 3) rfl
  simp only [Lead.ofByte, UInt8.lt_iff_toNat_lt, ← UInt8.toNat_inj, hm, secondOfFour]
  rw [if_neg (by simp; omega), if_neg (by simp; omega), if_neg (by simp; omega),
    if_neg (by simp; omega), if_neg (by simp; omega), if_neg (by simp; omega)]
  by_cases h0 : b.toNat = 0xF0
  · rw [if_pos (by simpa using h0), if_pos h0]
  · rw [if_neg (by simpa using h0), if_neg h0]
    by_cases h4 : b.toNat = 0xF4
    · rw [if_neg (by simp; omega), if_pos (by simpa using h4), if_pos h4]
    · rw [if_pos (by simp; omega), if_neg h4]

/-- A byte in the range that a sequence owes adds six bits; the last one ends the sequence. -/
theorem decodeFrom_last {low high b : UInt8} {code : Nat} (bs : Bytes)
    (h : low ≤ b ∧ b ≤ high) :
    decodeFrom (some ⟨0, low, high, code⟩) (b :: bs) =
      some (Char.ofNat (code * 64 + b.toNat % 64)) :: decodeFrom none bs := by
  have hm : (b &&& 0x3F).toNat = b.toNat % 64 := toNat_low b (k := 6) rfl
  rw [decodeFrom, if_pos h, hm]

theorem decodeFrom_more {low high b : UInt8} {owed code : Nat} (bs : Bytes)
    (h : low ≤ b ∧ b ≤ high) :
    decodeFrom (some ⟨owed + 1, low, high, code⟩) (b :: bs) =
      decodeFrom (some ⟨owed, 0x80, 0xBF, code * 64 + b.toNat % 64⟩) bs := by
  have hm : (b &&& 0x3F).toNat = b.toNat % 64 := toNat_low b (k := 6) rfl
  rw [decodeFrom, if_pos h, hm]

/-- A number that is a code point below the surrogates, or above them, is read back as its character. -/
theorem ofNat_of_val_toNat {c : Char} {n : Nat} (h : n = c.val.toNat) : Char.ofNat n = c := by
  rw [h]
  exact Char.ofNat_toNat c

/-- One character is read back, whatever follows it. -/
theorem decodeFrom_encodeChar (c : Char) (bs : Bytes) :
    decodeFrom none (String.utf8EncodeChar c ++ bs) = some c :: decodeFrom none bs := by
  -- The number of the character alone decides how many bytes there are, and each byte is named after its
  -- place, so that its value can be stated without rounding.
  have hv : c.val.toNat < 0xD800 ∨ 0xDFFF < c.val.toNat ∧ c.val.toNat < 0x110000 := c.valid
  unfold String.utf8EncodeChar
  simp only
  generalize hn : c.val.toNat = n at hv ⊢
  by_cases h1 : n ≤ 0x7F
  · rw [if_pos h1, List.cons_append, List.nil_append, decodeFrom]
    have hb : (UInt8.ofNat n).toNat = n := by rw [UInt8.toNat_ofNat']; omega
    rw [ofByte_ascii (by omega), hb]
    simp only
    rw [ofNat_of_val_toNat hn.symm]
  rw [if_neg h1]
  by_cases h2 : n ≤ 0x7FF
  · rw [if_pos h2]
    simp only [List.cons_append, List.nil_append]
    generalize hb0 : UInt8.ofNat (n / 64 % 32 + 0xC0) = b0
    generalize hb1 : UInt8.ofNat (n % 64 + 0x80) = b1
    have e0 : b0.toNat = n / 64 + 0xC0 := by rw [← hb0, UInt8.toNat_ofNat']; omega
    have e1 : b1.toNat = n % 64 + 0x80 := by rw [← hb1, UInt8.toNat_ofNat']; omega
    rw [decodeFrom, ofByte_two (by omega) (by omega)]
    simp only
    rw [decodeFrom_last bs (by simp only [UInt8.le_iff_toNat_le]; simp; omega),
      ofNat_of_val_toNat (c := c) (by omega)]
  rw [if_neg h2]
  by_cases h3 : n ≤ 0xFFFF
  · rw [if_pos h3]
    simp only [List.cons_append, List.nil_append]
    generalize hb0 : UInt8.ofNat (n / 4096 % 16 + 0xE0) = b0
    generalize hb1 : UInt8.ofNat (n / 64 % 64 + 0x80) = b1
    generalize hb2 : UInt8.ofNat (n % 64 + 0x80) = b2
    have e0 : b0.toNat = n / 4096 + 0xE0 := by rw [← hb0, UInt8.toNat_ofNat']; omega
    have e1 : b1.toNat = n / 64 % 64 + 0x80 := by rw [← hb1, UInt8.toNat_ofNat']; omega
    have e2 : b2.toNat = n % 64 + 0x80 := by rw [← hb2, UInt8.toNat_ofNat']; omega
    -- The encoder writes no overlong form and no surrogate, so the narrow ranges let it pass.
    have hr : (secondOfThree b0.toNat).1 ≤ b1 ∧ b1 ≤ (secondOfThree b0.toNat).2 := by
      simp only [UInt8.le_iff_toNat_le, secondOfThree, e0]
      split_ifs <;> simp <;> omega
    rw [decodeFrom, ofByte_three (by omega) (by omega)]
    simp only
    rw [decodeFrom_more _ hr,
      decodeFrom_last bs (by simp only [UInt8.le_iff_toNat_le]; simp; omega),
      ofNat_of_val_toNat (c := c) (by omega)]
  · rw [if_neg h3]
    simp only [List.cons_append, List.nil_append]
    generalize hb0 : UInt8.ofNat (n / 262144 % 8 + 0xF0) = b0
    generalize hb1 : UInt8.ofNat (n / 4096 % 64 + 0x80) = b1
    generalize hb2 : UInt8.ofNat (n / 64 % 64 + 0x80) = b2
    generalize hb3 : UInt8.ofNat (n % 64 + 0x80) = b3
    have e0 : b0.toNat = n / 262144 + 0xF0 := by rw [← hb0, UInt8.toNat_ofNat']; omega
    have e1 : b1.toNat = n / 4096 % 64 + 0x80 := by rw [← hb1, UInt8.toNat_ofNat']; omega
    have e2 : b2.toNat = n / 64 % 64 + 0x80 := by rw [← hb2, UInt8.toNat_ofNat']; omega
    have e3 : b3.toNat = n % 64 + 0x80 := by rw [← hb3, UInt8.toNat_ofNat']; omega
    -- The same for four bytes, where the last code point bounds the range from above.
    have hr : (secondOfFour b0.toNat).1 ≤ b1 ∧ b1 ≤ (secondOfFour b0.toNat).2 := by
      simp only [UInt8.le_iff_toNat_le, secondOfFour, e0]
      split_ifs <;> simp <;> omega
    rw [decodeFrom, ofByte_four (by omega) (by omega)]
    simp only
    rw [decodeFrom_more _ hr,
      decodeFrom_more _ (by simp only [UInt8.le_iff_toNat_le]; simp; omega),
      decodeFrom_last bs (by simp only [UInt8.le_iff_toNat_le]; simp; omega),
      ofNat_of_val_toNat (c := c) (by omega)]

/-- The bytes of a list of characters are read back character by character, whatever follows them. -/
theorem decodeFrom_flatMap (cs : List Char) (bs : Bytes) :
    decodeFrom none (cs.flatMap String.utf8EncodeChar ++ bs) = cs.map some ++ decodeFrom none bs := by
  induction cs with
  | nil => rfl
  | cons c cs ih =>
      rw [List.flatMap_cons, List.append_assoc, decodeFrom_encodeChar, ih, List.map_cons, List.cons_append]

/-- The bytes of a list of characters alone. -/
theorem decodeUnits_flatMap (cs : List Char) :
    decodeUnits (cs.flatMap String.utf8EncodeChar) = cs.map some := by
  have h := decodeFrom_flatMap cs []
  rwa [List.append_nil, decodeFrom, List.append_nil] at h

/-- Strict reading gives a text back from its bytes. -/
theorem decode?_encode (s : String) : decode? (encode s) = some s := by
  rw [decode?, encode, decodeUnits_flatMap, List.mapM_map]
  have hid : s.toList.mapM (id ∘ some) = some s.toList := by
    induction s.toList with
    | nil => rfl
    | cons c cs ih => rw [List.mapM_cons, ih]; rfl
  rw [hid, Option.map_some, String.ofList_toList]

/-- Lossy reading of the bytes of a text loses nothing. -/
theorem decodeLossy_encode (s : String) : decodeLossy (encode s) = s := by
  rw [decodeLossy, encode, decodeUnits_flatMap, List.map_map]
  have hid : ((fun c : Option Char => c.getD replacement) ∘ some) = id := rfl
  rw [hid, List.map_id, String.ofList_toList]

/-- Two texts with the same bytes are equal. -/
theorem encode_injective : Function.Injective encode := by
  intro s t h
  have hs := decode?_encode s
  rw [h, decode?_encode t] at hs
  exact (Option.some.inj hs).symm

/-- A text continues another one where its bytes do. -/
theorem encode_isPrefix_encode {s t : String} : encode s <+: encode t ↔ s.toList <+: t.toList := by
  constructor
  · rintro ⟨rest, hrest⟩
    rw [encode, encode] at hrest
    have units := decodeFrom_flatMap s.toList rest
    rw [hrest] at units
    have whole : t.toList.map some = s.toList.map some ++ decodeFrom none rest :=
      (decodeUnits_flatMap t.toList).symm.trans units
    rcases List.prefix_map_iff.mp ⟨_, whole.symm⟩ with ⟨front, hfront, same⟩
    rwa [List.map_injective_iff.mpr (Option.some_injective Char) same]
  · rintro ⟨rest, hrest⟩
    rw [encode, encode, ← hrest, List.flatMap_append]
    exact List.prefix_append _ _

/-- A byte of the ASCII range stands for itself alone and occurs in no other character. -/
theorem mem_encodeChar {b : UInt8} (hb : b.toNat < 0x80) (c : Char) :
    b ∈ String.utf8EncodeChar c ↔ c = Char.ofNat b.toNat := by
  -- Every byte of a longer sequence has its highest bit set.
  have hc : c = Char.ofNat b.toNat ↔ c.val.toNat = b.toNat := by
    constructor
    · intro h
      rw [h]
      rw [Char.ofNat, dif_pos (Or.inl (by omega))]
      rfl
    · intro h
      exact (ofNat_of_val_toNat h.symm).symm
  rw [hc]
  have hv : c.val.toNat < 0xD800 ∨ 0xDFFF < c.val.toNat ∧ c.val.toNat < 0x110000 := c.valid
  unfold String.utf8EncodeChar
  simp only
  generalize c.val.toNat = n at hv ⊢
  split_ifs <;>
    simp only [List.mem_cons, List.not_mem_nil, or_false, ← UInt8.toNat_inj,
      UInt8.toNat_ofNat'] <;>
    omega

/-- A byte of the ASCII range occurs in the bytes of a text exactly when its character does. -/
theorem mem_encode {b : UInt8} (hb : b.toNat < 0x80) (s : String) :
    b ∈ encode s ↔ Char.ofNat b.toNat ∈ s.toList := by
  rw [encode, List.mem_flatMap]
  simp only [mem_encodeChar hb, exists_eq_right]

/-- The bytes of a smaller character come first, whatever follows on either side. -/
theorem encodeChar_lt {c d : Char} (h : c < d) (xs ys : Bytes) :
    String.utf8EncodeChar c ++ xs < String.utf8EncodeChar d ++ ys := by
  -- A longer sequence has a greater lead byte, and sequences of one length are compared place by place.
  have hd : d.val.toNat < 0xD800 ∨ 0xDFFF < d.val.toNat ∧ d.val.toNat < 0x110000 := d.valid
  have hlt : c.val.toNat < d.val.toNat := h
  unfold String.utf8EncodeChar
  simp only
  generalize c.val.toNat = m at hlt ⊢
  generalize d.val.toNat = n at hd hlt ⊢
  split_ifs <;>
    simp only [List.cons_append, List.nil_append, List.cons_lt_cons_iff, UInt8.lt_iff_toNat_lt,
      ← UInt8.toNat_inj, UInt8.toNat_ofNat'] <;>
    simp (disch := omega) only [Nat.mod_eq_of_lt] <;>
    omega

theorem encodeChars_lt {cs ds : List Char} (h : cs < ds) :
    cs.flatMap String.utf8EncodeChar < ds.flatMap String.utf8EncodeChar := by
  -- The first place where the characters are different decides, in the bytes as well.
  induction cs generalizing ds with
  | nil =>
      cases ds with
      | nil => exact absurd h (List.lt_irrefl _)
      | cons d ds =>
          rw [List.flatMap_cons, List.flatMap_nil]
          cases hd : String.utf8EncodeChar d with
          | nil => exact absurd hd String.utf8EncodeChar_ne_nil
          | cons b bs => exact List.nil_lt_cons _ _
  | cons c cs ih =>
      cases ds with
      | nil => exact absurd h (List.not_lt_nil _)
      | cons d ds =>
          rw [List.flatMap_cons, List.flatMap_cons]
          rcases List.cons_lt_cons_iff.mp h with hlt | ⟨rfl, hlt⟩
          · exact encodeChar_lt hlt _ _
          · exact List.append_left_lt (ih hlt)

/-- The order of texts is the order of their bytes. -/
theorem encode_lt_encode {s t : String} : encode s < encode t ↔ s < t := by
  rw [String.lt_iff_toList_lt]
  constructor
  · intro h
    -- One direction is enough, since both orders are total.
    by_contra hn
    rcases lt_trichotomy s.toList t.toList with hlt | heq | hgt
    · exact hn hlt
    · rw [encode, encode, heq] at h
      exact List.lt_irrefl _ h
    · exact List.lt_asymm h (encodeChars_lt hgt)
  · exact encodeChars_lt

/-! ### Valid Bytes -/

theorem ofByte_invalid {b : UInt8} (h : 0x80 ≤ b.toNat ∧ b.toNat < 0xC2 ∨ 0xF4 < b.toNat) :
    Lead.ofByte b = .invalid := by
  simp only [Lead.ofByte, UInt8.lt_iff_toNat_lt, ← UInt8.toNat_inj]
  rcases h with h | h
  · rw [if_neg (by simp; omega), if_pos (by simp; omega)]
  · rw [if_neg (by simp; omega), if_neg (by simp; omega), if_neg (by simp; omega), if_neg (by simp; omega),
      if_neg (by simp; omega), if_neg (by simp; omega), if_neg (by simp; omega), if_neg (by simp; omega),
      if_neg (by simp; omega)]

/-- The number of a character that is made of a code point. -/
theorem val_ofNat {n : Nat} (h : n < 0xD800 ∨ 0xDFFF < n ∧ n < 0x110000) :
    (Char.ofNat n).val.toNat = n := by
  rw [Char.ofNat, dif_pos h]
  rfl

theorem encodeChar_ofNat {n : Nat} (h : n < 0xD800 ∨ 0xDFFF < n ∧ n < 0x110000) :
    String.utf8EncodeChar (Char.ofNat n) =
      if n ≤ 0x7F then [UInt8.ofNat n]
      else if n ≤ 0x7FF then [UInt8.ofNat (n / 64 % 32 + 0xC0), UInt8.ofNat (n % 64 + 0x80)]
      else if n ≤ 0xFFFF then
        [UInt8.ofNat (n / 4096 % 16 + 0xE0), UInt8.ofNat (n / 64 % 64 + 0x80), UInt8.ofNat (n % 64 + 0x80)]
      else
        [UInt8.ofNat (n / 262144 % 8 + 0xF0), UInt8.ofNat (n / 4096 % 64 + 0x80),
          UInt8.ofNat (n / 64 % 64 + 0x80), UInt8.ofNat (n % 64 + 0x80)] := by
  unfold String.utf8EncodeChar
  simp only [val_ofNat h]

/-- An unfinished sequence is continued where all that is read is valid. -/
theorem of_decodeFrom_pending {p : Pending} {bs : Bytes} {cs : List Char}
    (h : decodeFrom (some p) bs = cs.map some) : ∃ b rest, bs = b :: rest ∧ p.low ≤ b ∧ b ≤ p.high ∧
      match p.owed with
      | 0 => ∃ more, cs = Char.ofNat (p.code * 64 + b.toNat % 64) :: more ∧
        decodeFrom none rest = more.map some
      | owed + 1 => decodeFrom (some ⟨owed, 0x80, 0xBF, p.code * 64 + b.toNat % 64⟩) rest = cs.map some := by
  -- A sequence that ends with the bytes is an invalid part, so there is a byte, and it is in range.
  cases bs with
  | nil => cases cs <;> cases h
  | cons b rest =>
      have hm : (b &&& 0x3F).toNat = b.toNat % 64 := toNat_low b (k := 6) rfl
      rw [decodeFrom] at h
      split_ifs at h with hr
      · refine ⟨b, rest, rfl, hr.1, hr.2, ?_⟩
        rw [hm] at h
        cases howed : p.owed with
        | zero =>
            rw [howed] at h
            cases cs with
            | nil => cases h
            | cons c more =>
                rw [List.map_cons, List.cons.injEq, Option.some.injEq] at h
                exact ⟨more, congrArg (· :: more) h.1.symm, h.2⟩
        | succ owed =>
            rw [howed] at h
            exact h
      -- A byte out of range ends the sequence as an invalid part.
      · split at h <;> cases cs <;> cases h

/-- The bytes of a sequence are those of the character that it is read as. -/
theorem encodeChar_one {b : UInt8} (h : b.toNat < 0x80) :
    String.utf8EncodeChar (Char.ofNat b.toNat) = [b] := by
  rw [encodeChar_ofNat (by omega), if_pos (by omega)]
  simp only [List.cons.injEq, ← UInt8.toNat_inj, UInt8.toNat_ofNat', and_true]
  omega

theorem encodeChar_two {b0 b1 : UInt8} (h0 : 0xC2 ≤ b0.toNat) (h0' : b0.toNat < 0xE0)
    (h1 : 0x80 ≤ b1.toNat) (h1' : b1.toNat ≤ 0xBF) :
    String.utf8EncodeChar (Char.ofNat (b0.toNat % 32 * 64 + b1.toNat % 64)) = [b0, b1] := by
  rw [encodeChar_ofNat (by omega), if_neg (by omega), if_pos (by omega)]
  simp only [List.cons.injEq, ← UInt8.toNat_inj, UInt8.toNat_ofNat', and_true]
  omega

theorem encodeChar_three {b0 b1 b2 : UInt8} (h0 : 0xE0 ≤ b0.toNat) (h0' : b0.toNat < 0xF0)
    (h1 : (secondOfThree b0.toNat).1 ≤ b1) (h1' : b1 ≤ (secondOfThree b0.toNat).2)
    (h2 : 0x80 ≤ b2.toNat) (h2' : b2.toNat ≤ 0xBF) :
    String.utf8EncodeChar
      (Char.ofNat ((b0.toNat % 16 * 64 + b1.toNat % 64) * 64 + b2.toNat % 64)) = [b0, b1, b2] := by
  have hr : 0x80 ≤ b1.toNat ∧ b1.toNat ≤ 0xBF ∧ (b0.toNat = 0xE0 → 0xA0 ≤ b1.toNat) ∧
      (b0.toNat = 0xED → b1.toNat ≤ 0x9F) := by
    simp only [UInt8.le_iff_toNat_le, secondOfThree] at h1 h1'
    split_ifs at h1 h1' <;> simp at h1 h1' <;> omega
  rw [encodeChar_ofNat (by omega), if_neg (by omega), if_neg (by omega), if_pos (by omega)]
  simp only [List.cons.injEq, ← UInt8.toNat_inj, UInt8.toNat_ofNat', and_true]
  omega

theorem encodeChar_four {b0 b1 b2 b3 : UInt8} (h0 : 0xF0 ≤ b0.toNat) (h0' : b0.toNat ≤ 0xF4)
    (h1 : (secondOfFour b0.toNat).1 ≤ b1) (h1' : b1 ≤ (secondOfFour b0.toNat).2)
    (h2 : 0x80 ≤ b2.toNat) (h2' : b2.toNat ≤ 0xBF) (h3 : 0x80 ≤ b3.toNat) (h3' : b3.toNat ≤ 0xBF) :
    String.utf8EncodeChar (Char.ofNat
      (((b0.toNat % 8 * 64 + b1.toNat % 64) * 64 + b2.toNat % 64) * 64 + b3.toNat % 64)) =
        [b0, b1, b2, b3] := by
  have hr : 0x80 ≤ b1.toNat ∧ b1.toNat ≤ 0xBF ∧ (b0.toNat = 0xF0 → 0x90 ≤ b1.toNat) ∧
      (b0.toNat = 0xF4 → b1.toNat ≤ 0x8F) := by
    simp only [UInt8.le_iff_toNat_le, secondOfFour] at h1 h1'
    split_ifs at h1 h1' <;> simp at h1 h1' <;> omega
  rw [encodeChar_ofNat (by omega), if_neg (by omega), if_neg (by omega), if_neg (by omega)]
  simp only [List.cons.injEq, ← UInt8.toNat_inj, UInt8.toNat_ofNat', and_true]
  omega

/-- Bytes that are read without an invalid part are those of the characters that are read. -/
theorem flatMap_of_decodeFrom {bs : Bytes} {cs : List Char} (h : decodeFrom none bs = cs.map some) :
    bs = cs.flatMap String.utf8EncodeChar := by
  -- On the number of bytes, since a character may take up to four of them at once.
  induction hn : bs.length using Nat.strongRecOn generalizing bs cs with
  | ind n ih =>
      subst hn
      cases bs with
      | nil =>
          cases cs with
          | nil => rfl
          | cons c cs => cases h
      | cons b0 rest =>
          rw [decodeFrom] at h
          by_cases ascii : b0.toNat < 0x80
          · rw [ofByte_ascii ascii] at h
            cases cs with
            | nil => cases h
            | cons c more =>
                rw [List.map_cons, List.cons.injEq, Option.some.injEq] at h
                rw [List.flatMap_cons, ← h.1, encodeChar_one ascii,
                  ← ih rest.length (by simp) h.2 rfl]
                rfl
          by_cases invalid : b0.toNat < 0xC2 ∨ 0xF4 < b0.toNat
          · rw [ofByte_invalid (by omega)] at h
            cases cs <;> cases h
          -- The lead byte says how many bytes follow, and each of them is there and in its range.
          by_cases two : b0.toNat < 0xE0
          · rw [ofByte_two (by omega) two] at h
            rcases of_decodeFrom_pending h with ⟨b1, left, rfl, l1, u1, more, rfl, h1⟩
            rw [List.flatMap_cons, encodeChar_two (by omega) two l1 u1,
              ← ih left.length (by simp only [List.length_cons]; omega) h1 rfl]
            rfl
          by_cases three : b0.toNat < 0xF0
          · rw [ofByte_three (by omega) three] at h
            rcases of_decodeFrom_pending h with ⟨b1, _, rfl, l1, u1, h1⟩
            rcases of_decodeFrom_pending h1 with ⟨b2, left, rfl, l2, u2, more, rfl, h2⟩
            rw [List.flatMap_cons, encodeChar_three (by omega) three l1 u1 l2 u2,
              ← ih left.length (by simp only [List.length_cons]; omega) h2 rfl]
            rfl
          · rw [ofByte_four (by omega) (by omega)] at h
            rcases of_decodeFrom_pending h with ⟨b1, _, rfl, l1, u1, h1⟩
            rcases of_decodeFrom_pending h1 with ⟨b2, _, rfl, l2, u2, h2⟩
            rcases of_decodeFrom_pending h2 with ⟨b3, left, rfl, l3, u3, more, rfl, h3⟩
            rw [List.flatMap_cons, encodeChar_four (by omega) (by omega) l1 u1 l2 u2 l3 u3,
              ← ih left.length (by simp only [List.length_cons]; omega) h3 rfl]
            rfl

/-- Bytes that are read strictly are those of the text that is read. -/
theorem encode_of_decode? {bs : Bytes} {s : String} (h : decode? bs = some s) : encode s = bs := by
  rcases Option.map_eq_some_iff.mp h with ⟨cs, hcs, rfl⟩
  -- All units are characters, so the strict reading has left nothing out.
  have units : ∀ {us : List (Option Char)} {cs : List Char}, us.mapM id = some cs → us = cs.map some := by
    intro us
    induction us with
    | nil =>
        intro cs h
        cases h
        rfl
    | cons u us ih =>
        intro cs h
        rw [List.mapM_cons] at h
        rcases Option.bind_eq_some_iff.mp h with ⟨c, hc, h⟩
        rcases Option.bind_eq_some_iff.mp h with ⟨more, hmore, h⟩
        cases h
        rw [List.map_cons, ← ih hmore]
        exact congrArg (· :: us) hc
  rw [encode, String.toList_ofList]
  exact (flatMap_of_decodeFrom (units hcs)).symm

end Utf8

end ThreeWay
