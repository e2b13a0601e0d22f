import Mathlib.Algebra.BigOperators.Ring.Finset
import Mathlib.Algebra.Order.Ring.Nat
import FlatGraph.Bytes.Varint

/-! # Variable-length numbers

A number is read exactly if its bytes spell it: every byte but the last says that another follows,
and the groups of seven bits add up to it, in unbounded arithmetic.

* `Varint.decode_encode`: a 64-bit number is read back from its bytes, whatever follows them.
* `Varint.Spells`: the first so many bytes of a row spell a number.
* `Varint.decode_eq_some_iff`: what is read are the numbers of 64 bits that at most ten bytes of the
  row spell. -/

namespace FlatGraph.Varint

theorem encodedLength_pos (n : Nat) : 0 < encodedLength n := by
  unfold encodedLength
  split <;> omega

theorem encodedLength_le {n k : Nat} (h : n < 2 ^ (7 * (k + 1))) : encodedLength n ≤ k + 1 := by
  induction k generalizing n with
  | zero =>
    have hn : n < 128 := h
    have hone : encodedLength n = 1 := by rw [encodedLength, if_pos hn]
    exact Nat.le_of_eq hone
  | succ k ih =>
    rw [encodedLength]
    split
    · omega
    · have hpow : 2 ^ (7 * (k + 1 + 1)) = 128 * 2 ^ (7 * (k + 1)) := by
        rw [Nat.mul_succ 7 (k + 1), Nat.pow_add, Nat.mul_comm]
      have := ih (Nat.div_lt_of_lt_mul (hpow ▸ h))
      omega

theorem encodedLength_le_maxLength {n : Nat} (h : n < 2 ^ 64) : encodedLength n ≤ maxLength :=
  encodedLength_le (Nat.lt_trans h (Nat.pow_lt_pow_right (by decide) (by decide)))

/-- In `room + 1` bytes there is room for the numbers of `7 * room + 1` bits. -/
theorem decodeWithin_encode {room n : Nat} (h : n < 2 ^ (7 * room + 1)) (rest : List UInt8) :
    decodeWithin (room + 1) (encode n ++ rest) = some (n, encodedLength n) := by
  induction room generalizing n with
  | zero =>
    have hn : n < 2 := h
    have hbyte : (UInt8.ofNat n).toNat = n := by
      rw [UInt8.toNat_ofNat']
      omega
    rw [encode, if_pos (by omega), encodedLength, if_pos (by omega), List.cons_append]
    simp only [decodeWithin, hbyte]
    rw [if_neg (by omega), if_pos (by omega), Nat.mod_eq_of_lt (by omega)]
  | succ room ih =>
    rw [encode, encodedLength]
    by_cases hn : n < 128
    · have hbyte : (UInt8.ofNat n).toNat = n := by
        rw [UInt8.toNat_ofNat']
        omega
      rw [if_pos hn, if_pos hn, List.cons_append]
      simp only [decodeWithin, hbyte]
      rw [if_neg (by omega), if_pos hn, Nat.mod_eq_of_lt hn]
    · have hbyte : (UInt8.ofNat (n % 128 + 128)).toNat = n % 128 + 128 := by
        rw [UInt8.toNat_ofNat']
        omega
      have hpow : 2 ^ (7 * (room + 1) + 1) = 128 * 2 ^ (7 * room + 1) := by
        rw [show 7 * (room + 1) + 1 = 7 * room + 1 + 7 by omega, Nat.pow_add, Nat.mul_comm]
      have hrest := ih (Nat.div_lt_of_lt_mul (hpow ▸ h))
      rw [if_neg hn, if_neg hn, List.cons_append, decodeWithin, hrest]
      simp only [hbyte]
      rw [if_neg (by omega), if_neg (by omega), Option.map_some]
      simp only [Option.some.injEq, Prod.mk.injEq, and_true]
      omega

/-- **A number is read back** from the front of its bytes. -/
theorem decode_encode {n : Nat} (h : n < 2 ^ 64) (rest : List UInt8) :
    decode (encode n ++ rest) = some (n, encodedLength n) := decodeWithin_encode h rest

/-! ### What is read -/

/-- **The first `used` bytes spell `value`**: every one but the last has its top bit set, and the
groups of seven bits, lowest first, add up to the value. -/
structure Spells (byte : Nat → UInt8) (value used : Nat) : Prop where
  positive : 0 < used
  more : ∀ k, k + 1 < used → 128 ≤ (byte k).toNat
  last : (byte (used - 1)).toNat < 128
  sum : value = ∑ k ∈ Finset.range used, (byte k).toNat % 128 * 128 ^ k

variable {byte : Nat → UInt8} {value used : Nat}

theorem Spells.congr {other : Nat → UInt8} (h : ∀ k < used, byte k = other k)
    (hs : Spells byte value used) : Spells other value used := by
  have hpos := hs.positive
  refine ⟨hpos, fun k hk => ?_, ?_, ?_⟩
  · rw [← h k (by omega)]
    exact hs.more k hk
  · rw [← h _ (by omega)]
    exact hs.last
  · rw [hs.sum]
    exact Finset.sum_congr rfl fun k hk => by rw [h k (Finset.mem_range.mp hk)]

theorem spells_of_lt_iff (h : (byte 0).toNat < 128) :
    Spells byte value used ↔ value = (byte 0).toNat % 128 ∧ used = 1 := by
  constructor
  · rintro ⟨hpos, hmore, -, hsum⟩
    obtain rfl : used = 1 := by
      by_contra hne
      have := hmore 0 (by omega)
      omega
    exact ⟨by simpa using hsum, rfl⟩
  · rintro ⟨rfl, rfl⟩
    exact ⟨Nat.one_pos, fun k hk => by omega, h, by simp⟩

theorem spells_of_ge_iff (h : 128 ≤ (byte 0).toNat) : Spells byte value used ↔
    ∃ high rest, Spells (fun k => byte (k + 1)) high rest ∧
      value = (byte 0).toNat % 128 + 128 * high ∧ used = rest + 1 := by
  have hsplit : ∀ rest, ∑ k ∈ Finset.range (rest + 1), (byte k).toNat % 128 * 128 ^ k =
      (byte 0).toNat % 128 +
        128 * ∑ k ∈ Finset.range rest, (byte (k + 1)).toNat % 128 * 128 ^ k := by
    intro rest
    rw [Finset.sum_range_succ', Finset.mul_sum, Nat.pow_zero, Nat.mul_one, Nat.add_comm]
    refine congrArg _ (Finset.sum_congr rfl fun k _ => ?_)
    rw [Nat.pow_succ', Nat.mul_left_comm]
  constructor
  · rintro ⟨hpos, hmore, hlast, rfl⟩
    obtain ⟨rest, rfl⟩ : ∃ rest, used = rest + 1 := ⟨used - 1, by omega⟩
    have hrest : 0 < rest := by
      by_contra hzero
      obtain rfl : rest = 0 := by omega
      exact absurd h (Nat.not_le_of_lt hlast)
    have hback : rest - 1 + 1 = rest := Nat.sub_add_cancel hrest
    refine ⟨_, rest, ⟨hrest, fun k hk => hmore (k + 1) (by omega), ?_, rfl⟩, hsplit rest, rfl⟩
    rw [hback]
    exact hlast
  · rintro ⟨high, rest, ⟨hpos, hmore, hlast, rfl⟩, rfl, rfl⟩
    have hback : rest - 1 + 1 = rest := Nat.sub_add_cancel hpos
    refine ⟨Nat.succ_pos rest, fun k hk => ?_, ?_, (hsplit rest).symm⟩
    · cases k with
      | zero => exact h
      | succ k => exact hmore k (by omega)
    · rw [hback] at hlast
      exact hlast

theorem decodeWithin_eq_some_iff {room : Nat} {bytes : List UInt8} :
    decodeWithin (room + 1) bytes = some (value, used) ↔
      Spells (fun k => bytes.getD k 0) value used ∧ used ≤ room + 1 ∧ used ≤ bytes.length ∧
        value < 2 ^ (7 * room + 1) := by
  induction room generalizing bytes value used with
  | zero =>
    cases bytes with
    | nil =>
      simp only [decodeWithin, reduceCtorEq, List.length_nil, false_iff]
      rintro ⟨hs, -, hlength, -⟩
      have := hs.positive
      omega
    | cons byte rest =>
      rcases Nat.lt_or_ge byte.toNat 128 with hbyte | hbyte
      · rw [spells_of_lt_iff hbyte]
        simp only [decodeWithin, true_and, List.getD_cons_zero, List.length_cons, hbyte, if_true]
        split_ifs with hchunk
        · simp only [false_iff]
          omega
        · simp only [Option.some.injEq, Prod.mk.injEq]
          omega
      · rw [spells_of_ge_iff hbyte]
        simp only [decodeWithin, true_and, Nat.not_lt_of_ge hbyte, if_false, Option.map_none,
          ite_self, reduceCtorEq, false_iff]
        rintro ⟨⟨high, rest, hs, -, rfl⟩, hused, -⟩
        have := hs.positive
        omega
  | succ room ih =>
    cases bytes with
    | nil =>
      simp only [decodeWithin, reduceCtorEq, List.length_nil, false_iff]
      rintro ⟨hs, -, hlength, -⟩
      have := hs.positive
      omega
    | cons byte rest =>
      have hpow : 2 ^ (7 * (room + 1) + 1) = 128 * 2 ^ (7 * room + 1) := by
        rw [show 7 * (room + 1) + 1 = 7 * room + 1 + 7 by omega, Nat.pow_add, Nat.mul_comm]
      have htwo : 2 ≤ 2 ^ (7 * room + 1) := Nat.le_self_pow (by omega) 2
      rw [decodeWithin, if_neg (by omega), hpow]
      rcases Nat.lt_or_ge byte.toNat 128 with hbyte | hbyte
      · rw [spells_of_lt_iff hbyte, if_pos hbyte]
        simp only [Option.some.injEq, Prod.mk.injEq, List.getD_cons_zero, List.length_cons]
        omega
      · rw [spells_of_ge_iff hbyte, if_neg (by omega)]
        simp only [Option.map_eq_some_iff, Prod.exists, ih, Prod.mk.injEq, List.getD_cons_zero,
          List.getD_cons_succ, List.length_cons]
        constructor
        · rintro ⟨high, used, ⟨hs, hroom, hlength, hhigh⟩, rfl, rfl⟩
          exact ⟨⟨high, used, hs, rfl, rfl⟩, by omega, by omega, by omega⟩
        · rintro ⟨⟨high, used, hs, rfl, rfl⟩, hroom, hlength, hvalue⟩
          exact ⟨high, used, ⟨hs, by omega, by omega, by omega⟩, rfl, rfl⟩

/-- **What is read** from the front of a row of bytes: the number of 64 bits that at most ten of
them spell. -/
theorem decode_eq_some_iff {bytes : List UInt8} : decode bytes = some (value, used) ↔
    Spells (fun k => bytes.getD k 0) value used ∧ used ≤ maxLength ∧ used ≤ bytes.length ∧
      value < 2 ^ 64 := decodeWithin_eq_some_iff

theorem decode_eq_some_iff_of_getD {bytes : List UInt8}
    (h : ∀ k < bytes.length, bytes.getD k 0 = byte k) : decode bytes = some (value, used) ↔
      Spells byte value used ∧ used ≤ maxLength ∧ used ≤ bytes.length ∧ value < 2 ^ 64 := by
  rw [decode_eq_some_iff]
  constructor
  · rintro ⟨hs, hmax, hlength, hvalue⟩
    exact ⟨hs.congr fun k hk => h k (hk.trans_le hlength), hmax, hlength, hvalue⟩
  · rintro ⟨hs, hmax, hlength, hvalue⟩
    exact ⟨hs.congr fun k hk => (h k (hk.trans_le hlength)).symm, hmax, hlength, hvalue⟩

end FlatGraph.Varint
