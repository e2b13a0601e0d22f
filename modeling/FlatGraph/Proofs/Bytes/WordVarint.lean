import Mathlib.Data.Nat.Bitwise
import FlatGraph.Proofs.Bytes.Placement
import FlatGraph.Proofs.Bytes.Varint

/-! # Variable-length numbers on words

A 64-bit word is taken apart and put together by shifts: its lowest seven bits are a group, and a
group that is read is shifted to its place. No shift loses a bit, so the loops over words write and
read what unbounded arithmetic does.

* `wordLength`, `pushWord`, `decodeWord`: the loops that count the bytes of a word, append them and
  read them.
* `pushWord_eq`, `decodeWord_eq`: they write and read words as `encode` and `decode` do numbers.
* `Spells.encodedLength_le`: no fewer bytes spell a number than it is written with. -/

namespace FlatGraph.Varint

open Bytes

theorem toNat_shiftRight_seven (value : UInt64) : (value >>> 7).toNat = value.toNat / 128 := by
  rw [UInt64.toNat_shiftRight]
  exact Nat.shiftRight_eq_div_pow value.toNat 7

theorem shiftRight_seven_lt {value : UInt64} (h : ¬ value < 0x80) :
    (value >>> 7).toNat < value.toNat := by
  have hle : 128 ≤ value.toNat := UInt64.le_iff_toNat_le.mp (UInt64.not_lt.mp h)
  rw [toNat_shiftRight_seven]
  omega

/-! ### Loops over words -/

/-- Counts the bytes of a word behind those already counted. -/
def countFrom (count : Nat) (value : UInt64) : Nat :=
  if value < 0x80 then count else countFrom (count + 1) (value >>> 7)
termination_by value.toNat
decreasing_by exact shiftRight_seven_lt ‹_›

/-- The number of bytes that a word takes. -/
def wordLength (value : UInt64) : Nat := countFrom 1 value

/-- Appends the bytes of a word. -/
def pushWord (b : ByteArray) (value : UInt64) : ByteArray :=
  if value < 0x80 then b.push value.toUInt8
  else pushWord (b.push (value.toUInt8 &&& 0x7f ||| 0x80)) (value >>> 7)
termination_by value.toNat
decreasing_by exact shiftRight_seven_lt ‹_›

/-- The seven bits that a byte holds, shifted to where the byte `i` puts them. -/
def group (byte : UInt8) (i : Nat) : UInt64 :=
  (byte &&& 0x7f).toUInt64 <<< UInt64.ofNat (7 * i)

/-- Reads a word on behind its first `i` bytes, which have given `value`. -/
def decodeFrom (i : Nat) (value : UInt64) : List UInt8 → Option (UInt64 × Nat)
  | [] => none
  | byte :: rest =>
    if i = maxLength - 1 ∧ 1 < (byte &&& 0x7f).toUInt64 then none
    else
      let value := value ||| group byte i
      if byte &&& 0x80 = 0 then some (value, i + 1) else decodeFrom (i + 1) value rest

/-- Reads a word from the front of `bytes`. -/
def decodeWord (bytes : List UInt8) : Option (UInt64 × Nat) :=
  decodeFrom 0 0 (bytes.take maxLength)

/-! ### Writing -/

theorem lt_iff_toNat_lt (value : UInt64) : value < 0x80 ↔ value.toNat < 128 :=
  UInt64.lt_iff_toNat_lt

theorem countFrom_eq (count : Nat) (value : UInt64) :
    countFrom count value + 1 = count + encodedLength value.toNat := by
  fun_induction countFrom count value with
  | case1 count value h =>
    rw [encodedLength, if_pos ((lt_iff_toNat_lt value).mp h)]
  | case2 count value h ih =>
    rw [ih, toNat_shiftRight_seven]
    conv_rhs => rw [encodedLength, if_neg (mt (lt_iff_toNat_lt value).mpr h)]
    omega

theorem wordLength_eq (value : UInt64) : wordLength value = encodedLength value.toNat := by
  have := countFrom_eq 1 value
  unfold wordLength
  omega

theorem toUInt8_eq (value : UInt64) : value.toUInt8 = UInt8.ofNat value.toNat := by
  rw [← UInt8.toNat_inj, UInt64.toNat_toUInt8, UInt8.toNat_ofNat']

theorem more_eq (value : UInt64) :
    value.toUInt8 &&& 0x7f ||| 0x80 = UInt8.ofNat (value.toNat % 128 + 128) := by
  have hlow : value.toNat % 256 &&& 2 ^ 7 - 1 = value.toNat % 128 := by
    rw [Nat.and_two_pow_sub_one_eq_mod]
    omega
  have hor : value.toNat % 128 ||| 128 = value.toNat % 128 + 128 := by
    rw [Nat.or_comm, Nat.add_comm]
    exact (Nat.two_pow_add_eq_or_of_lt (i := 7) (Nat.mod_lt value.toNat (by decide)) 1).symm
  rw [← UInt8.toNat_inj, UInt8.toNat_or, UInt8.toNat_and, UInt64.toNat_toUInt8,
    UInt8.toNat_ofNat']
  show (value.toNat % 256 &&& 2 ^ 7 - 1) ||| 128 = _
  rw [hlow, hor]
  omega

/-- **A word is written** as its number is. -/
theorem pushWord_eq (b : ByteArray) (value : UInt64) :
    pushWord b value = append b (encode value.toNat) := by
  fun_induction pushWord b value with
  | case1 b value h =>
    rw [encode, if_pos ((lt_iff_toNat_lt value).mp h), toUInt8_eq]
    rfl
  | case2 b value h ih =>
    rw [ih, toNat_shiftRight_seven, more_eq]
    conv_rhs => rw [encode, if_neg (mt (lt_iff_toNat_lt value).mpr h)]
    rfl

/-! ### Reading -/

theorem toNat_low (byte : UInt8) : (byte &&& 0x7f).toUInt64.toNat = byte.toNat % 128 := by
  rw [UInt8.toNat_toUInt64, UInt8.toNat_and]
  exact Nat.and_two_pow_sub_one_eq_mod byte.toNat 7

theorem last_iff (byte : UInt8) : byte &&& 0x80 = 0 ↔ byte.toNat < 128 := by
  have hbyte := byte.toNat_lt
  have hand : byte.toNat &&& 2 ^ 7 = (byte.toNat.testBit 7).toNat * 2 ^ 7 := Nat.and_two_pow _ _
  rw [← UInt8.toNat_inj, UInt8.toNat_and]
  show byte.toNat &&& 2 ^ 7 = 0 ↔ _
  rw [hand, Nat.testBit_eq_decide_div_mod_eq]
  by_cases hlt : byte.toNat < 128
  · simp [hlt, Nat.div_eq_of_lt hlt]
  · have hone : byte.toNat / 128 % 2 = 1 := by omega
    simp [hlt, hone]

/-- **No bit is lost to the shift** of a group, if the tenth byte holds one bit at most. -/
theorem toNat_group {byte : UInt8} {i : Nat} (hi : i < maxLength)
    (hlast : i = maxLength - 1 → byte.toNat % 128 ≤ 1) :
    (group byte i).toNat = byte.toNat % 128 * 128 ^ i := by
  have hmax : maxLength = 10 := rfl
  have hchunk : byte.toNat % 128 < 2 ^ 7 := Nat.mod_lt _ (by decide)
  have hpow : 128 ^ i = 2 ^ (7 * i) := by rw [Nat.pow_mul]
  have hfits : byte.toNat % 128 * 2 ^ (7 * i) < 2 ^ 64 := by
    by_cases h : i = maxLength - 1
    · have hone := hlast h
      subst h
      calc byte.toNat % 128 * 2 ^ (7 * 9) ≤ 1 * 2 ^ (7 * 9) := Nat.mul_le_mul_right _ hone
        _ < 2 ^ 64 := by decide
    · calc byte.toNat % 128 * 2 ^ (7 * i) < 2 ^ 7 * 2 ^ (7 * i) :=
            Nat.mul_lt_mul_of_pos_right hchunk (Nat.two_pow_pos _)
        _ = 2 ^ (7 + 7 * i) := (Nat.pow_add ..).symm
        _ ≤ 2 ^ 64 := Nat.pow_le_pow_right (by decide) (by omega)
  have hshift : (UInt64.ofNat (7 * i)).toNat % 64 = 7 * i := by
    rw [UInt64.toNat_ofNat']
    omega
  rw [group, UInt64.toNat_shiftLeft, toNat_low, hshift, Nat.shiftLeft_eq, hpow,
    Nat.mod_eq_of_lt hfits]

theorem toNat_or_group {value : UInt64} {byte : UInt8} {i : Nat} (hv : value.toNat < 128 ^ i)
    (hg : (group byte i).toNat = byte.toNat % 128 * 128 ^ i) :
    (value ||| group byte i).toNat = value.toNat + byte.toNat % 128 * 128 ^ i := by
  have hpow : 128 ^ i = 2 ^ (7 * i) := by rw [Nat.pow_mul]
  rw [UInt64.toNat_or, hg, hpow, Nat.or_comm, Nat.mul_comm,
    ← Nat.two_pow_add_eq_or_of_lt (hpow ▸ hv), Nat.add_comm]

theorem add_group_lt {value i : Nat} (hv : value < 128 ^ i) (byte : UInt8) :
    value + byte.toNat % 128 * 128 ^ i < 128 ^ (i + 1) := by
  have hchunk : byte.toNat % 128 + 1 ≤ 128 := Nat.mod_lt _ (by decide)
  calc value + byte.toNat % 128 * 128 ^ i < 128 ^ i + byte.toNat % 128 * 128 ^ i :=
        Nat.add_lt_add_right hv _
    _ = (byte.toNat % 128 + 1) * 128 ^ i := by rw [Nat.add_mul, Nat.one_mul, Nat.add_comm]
    _ ≤ 128 * 128 ^ i := Nat.mul_le_mul_right _ hchunk
    _ = 128 ^ (i + 1) := Nat.pow_succ'.symm

theorem decodeFrom_eq {i room : Nat} {value : UInt64} {bytes : List UInt8}
    (hi : i + room = maxLength) (hv : value.toNat < 128 ^ i) :
    (decodeFrom i value (bytes.take room)).map (Prod.map UInt64.toNat id) =
      (decodeWithin room bytes).map fun read =>
        (value.toNat + 128 ^ i * read.1, i + read.2) := by
  -- on the bytes that there is room for; the value is below the place of the next group
  induction room generalizing i value bytes with
  | zero => rfl
  | succ room ih =>
    cases bytes with
    | nil => rfl
    | cons byte rest =>
      have hlast : i = maxLength - 1 ↔ room = 0 := by omega
      have hmany : 1 < (byte &&& 0x7f).toUInt64 ↔ 1 < byte.toNat % 128 := by
        rw [UInt64.lt_iff_toNat_lt, toNat_low]
        rfl
      simp only [List.take_succ_cons, decodeFrom, decodeWithin, hlast, hmany, last_iff]
      by_cases hover : room = 0 ∧ 1 < byte.toNat % 128
      · rw [if_pos hover, if_pos hover]
        rfl
      · have hg : (group byte i).toNat = byte.toNat % 128 * 128 ^ i :=
          toNat_group (by omega) fun h => by omega
        have hvalue := toNat_or_group hv hg
        rw [if_neg hover, if_neg hover]
        split_ifs with hbyte
        · rw [Option.map_some, Option.map_some, Prod.map_apply, hvalue, Nat.mul_comm]
          rfl
        · have hnext : (value ||| group byte i).toNat < 128 ^ (i + 1) := by
            rw [hvalue]
            exact add_group_lt hv byte
          rw [ih (by omega) hnext, Option.map_map]
          refine congrArg (Option.map · _) (funext fun read => ?_)
          simp only [Function.comp, hvalue, Prod.mk.injEq]
          refine ⟨?_, by omega⟩
          rw [Nat.pow_succ, Nat.mul_add, Nat.add_assoc, Nat.mul_assoc,
            Nat.mul_comm (128 ^ i) (byte.toNat % 128)]

/-- **A word is read** as its number is. -/
theorem decodeWord_eq (bytes : List UInt8) :
    (decodeWord bytes).map (Prod.map UInt64.toNat id) = decode bytes := by
  rw [decodeWord, decodeFrom_eq (Nat.zero_add _) (by decide)]
  have hid : (fun read : Nat × Nat => ((0 : UInt64).toNat + 128 ^ 0 * read.1, 0 + read.2)) =
      id := by
    funext read
    simp
  rw [hid, Option.map_id, id_eq]
  rfl

theorem decodeWord_eq_some_iff {bytes : List UInt8} {value : UInt64} {used : Nat} :
    decodeWord bytes = some (value, used) ↔ decode bytes = some (value.toNat, used) := by
  rw [← decodeWord_eq, Option.map_eq_some_iff]
  constructor
  · intro h
    exact ⟨_, h, rfl⟩
  · rintro ⟨⟨word, length⟩, hword, heq⟩
    obtain ⟨hvalue, rfl⟩ := Prod.mk.inj heq
    rwa [← UInt64.toNat_inj.mp hvalue]

/-! ### Shortest bytes -/

theorem sum_lt_pow (byte : Nat → UInt8) (used : Nat) :
    ∑ k ∈ Finset.range used, (byte k).toNat % 128 * 128 ^ k < 128 ^ used := by
  induction used with
  | zero => exact Nat.one_pos
  | succ used ih =>
    rw [Finset.sum_range_succ]
    exact add_group_lt ih (byte used)

/-- **No fewer bytes spell a number** than it is written with. -/
theorem Spells.encodedLength_le {byte : Nat → UInt8} {value used : Nat}
    (h : Spells byte value used) : encodedLength value ≤ used := by
  obtain ⟨k, rfl⟩ : ∃ k, used = k + 1 := ⟨used - 1, by have := h.positive; omega⟩
  refine Varint.encodedLength_le ?_
  rw [h.sum, Nat.pow_mul]
  exact sum_lt_pow byte (k + 1)

theorem toNat_group_of_decode {bytes : List UInt8} {value used i : Nat}
    (h : decode bytes = some (value, used)) (hi : i < used) :
    (group (bytes.getD i 0) i).toNat = (bytes.getD i 0).toNat % 128 * 128 ^ i := by
  obtain ⟨hs, hmax, -, hvalue⟩ := decode_eq_some_iff.mp h
  refine toNat_group (hi.trans_le hmax) fun hlast => ?_
  subst hlast
  obtain rfl : used = maxLength - 1 + 1 := by omega
  have hsum := hs.sum
  have hpow : (128 : Nat) ^ (maxLength - 1) = 2 ^ 63 := by decide
  rw [Finset.sum_range_succ, hpow] at hsum
  omega

/-! ### Exactness -/

/-- **Numbers of 64 bits are written and read exactly**, by the loops over words as in unbounded
arithmetic. A word takes at most ten bytes, and is read back from them whatever follows. What is
read are the numbers that at most ten bytes of the row spell, if they are below the bound; no group
of theirs loses a bit to its shift, and they are written with no more bytes than were read. -/
theorem codec_exact :
    (∀ (b : ByteArray) (value : UInt64),
      toBytes (pushWord b value) = toBytes b ++ encode value.toNat ∧
        (encode value.toNat).length = wordLength value ∧
        wordLength value = encodedLength value.toNat ∧ wordLength value ≤ 10) ∧
    (∀ (value : UInt64) (rest : List UInt8),
      decodeWord (encode value.toNat ++ rest) = some (value, wordLength value)) ∧
    (∀ bytes, decode bytes = (decodeWord bytes).map (Prod.map UInt64.toNat id)) ∧
    (∀ bytes value used, decode bytes = some (value, used) ↔
      Spells (fun k => bytes.getD k 0) value used ∧ used ≤ 10 ∧ used ≤ bytes.length ∧
        value < 2 ^ 64) ∧
    (∀ bytes value used, decode bytes = some (value, used) →
      encodedLength value ≤ used ∧ ∀ k < used,
        (group (bytes.getD k 0) k).toNat = (bytes.getD k 0).toNat % 128 * 128 ^ k) := by
  refine ⟨fun b value => ⟨?_, ?_, wordLength_eq value, ?_⟩, fun value rest => ?_,
    fun bytes => (decodeWord_eq bytes).symm, fun _ _ _ => decode_eq_some_iff,
    fun bytes value used h => ⟨?_, fun k hk => toNat_group_of_decode h hk⟩⟩
  · rw [pushWord_eq, toBytes_append]
  · rw [length_encode, wordLength_eq]
  · rw [wordLength_eq]
    exact encodedLength_le_maxLength value.toNat_lt
  · rw [decodeWord_eq_some_iff, wordLength_eq]
    exact decode_encode value.toNat_lt rest
  · exact (decode_eq_some_iff.mp h).1.encodedLength_le

/-- Zero may be spelled with a second byte, and the greatest word takes all ten. -/
theorem codec_exact_sample :
    decode [0x80, 0x00, 0x07] = some (0, 2) ∧ encodedLength 0 ≤ 2 ∧
      decode (encode (2 ^ 64 - 1)) = some (2 ^ 64 - 1, 10) ∧
      (group 0x01 9).toNat = 1 * 128 ^ 9 := by
  obtain ⟨-, -, -, -, hread⟩ := codec_exact
  have hzero : decode [0x80, 0x00, 0x07] = some (0, 2) := by decide
  have hlast : decode (encode (2 ^ 64 - 1)) = some (2 ^ 64 - 1, 10) := by cbv
  have hbytes : (encode (2 ^ 64 - 1)).getD 9 0 = 0x01 := by cbv
  have hgroup := (hread _ _ _ hlast).2 9 (by decide)
  rw [hbytes] at hgroup
  exact ⟨hzero, (hread _ _ _ hzero).1, hlast, hgroup⟩

end FlatGraph.Varint
