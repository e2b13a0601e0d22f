import Mathlib.Algebra.Order.Ring.Nat
import FlatGraph.Number.Binary64

/-! # The quotient of two counts is a number

A mean that is stored in a file is compared as a number with the mean that is counted afresh. The
same bits compare as equal only if they are those of a number at all, which the quotient of two
counts always is: its exponent stays far below the one that is kept for what is not a number.

* `Binary64.lt_scaledExponent`: the exponent that is found leaves at most 53 bits of fraction.
* `Binary64.isNaN_quotient`, `Binary64.sameNumber_self`. -/

namespace FlatGraph.Binary64

theorem lt_scaledExponent (num : Nat) {den : Nat} (hd : den ≠ 0) :
    num <<< 64 < den <<< (scaledExponent num den + 1) := by
  unfold scaledExponent
  extract_lets e
  have hexponent : Nat.log2 num + 64 ≤ Nat.log2 den + e := by omega
  simp only [Nat.shiftLeft_eq]
  split_ifs with h
  · rcases Nat.eq_zero_or_pos e with h0 | h0
    · rw [h0] at h ⊢
      omega
    · have hback : e - 1 + 1 = e := by omega
      rwa [hback]
  · have hnum : num < 2 ^ (Nat.log2 num + 1) := Nat.lt_log2_self
    have hden : 2 ^ Nat.log2 den ≤ den := Nat.log2_self_le hd
    calc num * 2 ^ 64 < 2 ^ (Nat.log2 num + 1) * 2 ^ 64 :=
          Nat.mul_lt_mul_of_pos_right hnum (by decide)
      _ = 2 ^ (Nat.log2 num + 1 + 64) := (Nat.pow_add _ _ _).symm
      _ ≤ 2 ^ (Nat.log2 den + (e + 1)) := Nat.pow_le_pow_right (by decide) (by omega)
      _ = 2 ^ Nat.log2 den * 2 ^ (e + 1) := Nat.pow_add _ _ _
      _ ≤ den * 2 ^ (e + 1) := Nat.mul_le_mul_right _ hden

theorem roundedQuotient_le {num den bound : Nat} (h : num < bound * den) :
    roundedQuotient num den ≤ bound := by
  have hq : num / den < bound := Nat.div_lt_of_lt_mul (by rwa [Nat.mul_comm] at h)
  unfold roundedQuotient
  extract_lets q rest
  split_ifs <;> omega

/-- The fraction takes at most 53 bits, or is the next power of two. -/
theorem fraction_le {num den : Nat} (hd : den ≠ 0) :
    roundedQuotient (num <<< 116) (den <<< scaledExponent num den) ≤ 2 ^ 53 := by
  have h := lt_scaledExponent num hd
  refine roundedQuotient_le ?_
  simp only [Nat.shiftLeft_eq] at h ⊢
  calc num * 2 ^ 116 = num * 2 ^ 64 * 2 ^ 52 := by
        rw [Nat.mul_assoc, ← Nat.pow_add]
    _ < den * 2 ^ (scaledExponent num den + 1) * 2 ^ 52 :=
        Nat.mul_lt_mul_of_pos_right h (by decide)
    _ = 2 ^ 53 * (den * 2 ^ scaledExponent num den) := by
        rw [Nat.pow_succ, ← Nat.mul_assoc]
        omega

theorem scaledExponent_le {num den : Nat} (h : num < 2 ^ 32) : scaledExponent num den ≤ 95 := by
  have hlog : Nat.log2 num ≤ 31 := by
    rcases Nat.eq_zero_or_pos num with rfl | hpos
    · decide
    · have hlt := (Nat.log2_lt (Nat.ne_of_gt hpos)).mpr h
      omega
  unfold scaledExponent
  extract_lets e
  split_ifs <;> omega

/-- **The quotient of two counts** is a number. -/
theorem isNaN_quotient {num : Nat} (h : num < 2 ^ 32) (den : Nat) :
    isNaN (quotient num den) = false := by
  unfold quotient
  split_ifs with h0
  · rfl
  · extract_lets e
    have hexponent : e ≤ 95 := scaledExponent_le h
    have hfraction : roundedQuotient (num <<< 116) (den <<< e) ≤ 2 ^ 53 := fraction_le (by omega)
    have hbits : (e + 958) <<< 52 + roundedQuotient (num <<< 116) (den <<< e) ≤
        0x7ff0000000000000 := by
      rw [Nat.shiftLeft_eq]
      omega
    unfold isNaN
    rw [decide_eq_false_iff_not, UInt64.toNat_ofNat', Nat.mod_eq_of_lt (by omega),
      Nat.mod_eq_of_lt (by omega)]
    omega

theorem sameNumber_self {x : UInt64} (h : isNaN x = false) : sameNumber x x = true := by
  unfold sameNumber
  rw [h, beq_self_eq_true]
  rfl

end FlatGraph.Binary64
