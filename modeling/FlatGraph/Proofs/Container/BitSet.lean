import FlatGraph.Container.BitSet

/-! # The positions in a set

The ones of the words are the positions of the set: word `k` holds the positions from `64 * k` on,
and no bit past the capacity is set.

* `BitSet.countOnes_eq_length`: counting ones word by word counts the list of the positions.
* `BitSet.ext_test`: a set is determined by its capacity and its positions.
* `BitSet.nextClear_eq_nextClear_zero`: a scan may start behind positions that are in the set. -/

namespace FlatGraph

namespace Word

theorem countOnes_eq_countP (w : UInt64) : countOnes w = (List.range 64).countP (hasBit w) := by
  unfold countOnes
  split
  · next h =>
    subst h
    exact (List.countP_eq_zero.mpr fun i _ => by rw [hasBit_zero]; exact Bool.false_ne_true).symm
  · rfl

theorem hasBit_add_sixtyFour (w : UInt64) (i : Nat) : hasBit w (64 + i) = hasBit w i := by
  rw [hasBit_eq, hasBit_eq, Nat.add_mod_left]

end Word

theorem bitOf_cons_of_lt {w : UInt64} {i : Nat} (h : i < 64) (words : List UInt64) :
    bitOf (w :: words).toArray i = Word.hasBit w i := by
  unfold bitOf
  rw [Nat.div_eq_of_lt h]
  rfl

theorem bitOf_cons_add (w : UInt64) (words : List UInt64) (i : Nat) :
    bitOf (w :: words).toArray (64 + i) = bitOf words.toArray i := by
  have hdiv : (64 + i) / 64 = i / 64 + 1 := by omega
  unfold bitOf
  simp only [List.getElem?_toArray, hdiv, List.getElem?_cons_succ, Word.hasBit_add_sixtyFour]

theorem total_countOnes (words : List UInt64) :
    total Word.countOnes words = (List.range (64 * words.length)).countP (bitOf words.toArray) := by
  induction words with
  | nil => rfl
  | cons w words ih =>
    have hlength : 64 * (w :: words).length = 64 + 64 * words.length := by
      rw [List.length_cons]
      omega
    have hfirst : (List.range 64).countP (bitOf (w :: words).toArray) = Word.countOnes w := by
      rw [Word.countOnes_eq_countP]
      refine List.countP_congr fun i hi => ?_
      rw [bitOf_cons_of_lt (List.mem_range.mp hi)]
    have hrest : bitOf (w :: words).toArray ∘ (64 + ·) = bitOf words.toArray :=
      funext fun i => bitOf_cons_add w words i
    rw [total_cons, ih, hlength, List.range_add, List.countP_append, List.countP_map, hfirst,
      hrest]

namespace BitSet

/-- **The count of the ones** is the number of positions in the set. -/
theorem countOnes_eq_length (s : BitSet) : s.countOnes = s.toList.length := by
  have hroom : s.bits + (64 * s.words.size - s.bits) = 64 * s.words.size := by
    have := s.size_words
    omega
  have hpast : ∀ i, bitOf s.words (s.bits + i) = false := fun i =>
    s.bitOf_past _ (Nat.le_add_right _ _)
  rw [countOnes, total_countOnes, Array.length_toList, Array.toArray_toList, ← hroom,
    List.range_add, List.countP_append, List.countP_map, toList, ← List.countP_eq_length_filter]
  have hzero : (List.range (64 * s.words.size - s.bits)).countP
      (bitOf s.words ∘ (s.bits + ·)) = 0 :=
    List.countP_eq_zero.mpr fun i _ => by
      rw [Function.comp_apply, hpast]
      exact Bool.false_ne_true
  rw [hzero, Nat.add_zero]
  exact List.countP_congr fun i _ => by rw [test_eq]

/-! ### Members -/

theorem lt_of_test {s : BitSet} {v : Nat} (hv : s.test v = true) : v < s.bits := by
  simp only [test, Bool.and_eq_true, decide_eq_true_eq] at hv
  exact hv.1

theorem mem_toList {s : BitSet} {v : Nat} : v ∈ s.toList ↔ s.test v = true := by
  unfold toList
  rw [List.mem_filter, List.mem_range, and_iff_right_iff_imp]
  exact lt_of_test

theorem nodup_toList (s : BitSet) : s.toList.Nodup := List.nodup_range.filter _

theorem testBit_eq_test {s : BitSet} {k i : Nat} (hk : k < s.words.size) (hi : i < 64) :
    s.words[k].toNat.testBit i = s.test (64 * k + i) := by
  have hdiv : (64 * k + i) / 64 = k := by omega
  have hmod : (64 * k + i) % 64 = i := by omega
  rw [test_eq, bitOf, hdiv, Array.getElem?_eq_getElem hk]
  simp only
  rw [Word.hasBit_eq, hmod]

/-- Sets of the same capacity with the same members are equal, word by word. -/
theorem ext_test {s t : BitSet} (hbits : s.bits = t.bits) (h : ∀ i, s.test i = t.test i) :
    s = t := by
  have hwords : s.words = t.words := by
    refine Array.ext (by rw [s.size_words, t.size_words, hbits]) fun k hs ht => ?_
    rw [← UInt64.toNat_inj]
    refine Nat.eq_of_testBit_eq fun i => ?_
    by_cases hi : i < 64
    · rw [testBit_eq_test hs hi, testBit_eq_test ht hi, h]
    · have hlt : ∀ w : UInt64, w.toNat < 2 ^ i := fun w =>
        Nat.lt_of_lt_of_le w.toNat_lt (Nat.pow_le_pow_right (by decide) (by omega))
      rw [Nat.testBit_lt_two_pow (hlt _), Nat.testBit_lt_two_pow (hlt _)]
  cases s
  cases t
  cases hbits
  cases hwords
  rfl

/-- **A scan that starts behind positions of the set** finds what a scan of all positions does. -/
theorem nextClear_eq_nextClear_zero {s : BitSet} {start : Nat}
    (hfull : ∀ p < start, s.test p = true) : s.nextClear start = s.nextClear 0 := by
  have hbelow : ∀ {k}, (start ≤ k → s.test k = true) → s.test k = true := fun {k} hk =>
    (Nat.lt_or_ge k start).elim (hfull k) hk
  cases h : s.nextClear start with
  | none =>
    have hall := nextClear_eq_none_iff.mp h
    exact (nextClear_eq_none_iff.mpr fun k _ hk => hbelow fun hle => hall k hle hk).symm
  | some j =>
    obtain ⟨-, hlt, hclear, hall⟩ := nextClear_eq_some_iff.mp h
    exact (nextClear_eq_some_iff.mpr
      ⟨Nat.zero_le j, hlt, hclear, fun k _ hk => hbelow fun hle => hall k hle hk⟩).symm

theorem bits_foldl_set (s : BitSet) (positions : List Nat) :
    (positions.foldl set s).bits = s.bits := by
  induction positions generalizing s with
  | nil => rfl
  | cons p rest ih => rw [List.foldl_cons, ih, bits_set]

theorem test_foldl_set (s : BitSet) (positions : List Nat) (v : Nat) :
    (positions.foldl set s).test v = true ↔ s.test v = true ∨ v ∈ positions ∧ v < s.bits := by
  induction positions generalizing s with
  | nil => simp
  | cons p rest ih =>
    rw [List.foldl_cons, ih, test_set, bits_set, Bool.or_eq_true, decide_eq_true_eq, or_assoc,
      List.mem_cons, or_and_right, eq_comm (a := v)]
    refine or_congr_right (or_congr_left ?_)
    exact ⟨fun ⟨heq, hp⟩ => ⟨heq, heq ▸ hp⟩, fun ⟨heq, hv⟩ => ⟨heq, heq ▸ hv⟩⟩

theorem testAndSet_of_test {s : BitSet} {v : Nat} (hv : s.test v = true) :
    s.testAndSet v = (false, s) := by
  refine Prod.ext ?_ (ext_test (bits_testAndSet s v) fun i => ?_)
  · rw [testAndSet_fst, hv, Bool.not_true, Bool.and_false]
  · rw [test_testAndSet, Bool.or_eq_left_iff_imp, decide_eq_true_eq]
    rintro ⟨rfl, -⟩
    exact hv

theorem testAndSet_of_not_test {s : BitSet} {v : Nat} (hv : v < s.bits) (hnew : s.test v = false) :
    s.testAndSet v = (true, s.set v) := by
  rw [testAndSet, if_pos hv, ← test_eq, hnew]
  rfl

end BitSet

end FlatGraph
