import FlatGraph.Fault
import FlatGraph.Number.Total

/-! # Sets of positions packed into words

A set of positions below a fixed capacity, one bit a position, 64 positions a word. A position at or
past the capacity is in no set and changes none.

* `BitSet.test_set`, `BitSet.test_testAndSet`: membership after an insertion.
* `BitSet.nextClear_eq_some_iff`, `BitSet.nextClear_eq_none_iff`: the scan for an absent position.
* `BitSet.absent_testAndSet`: each first insertion leaves one absent position less. This bounds
  every search that marks what it has seen. -/

namespace FlatGraph

/-! ### Bits of a word -/

namespace Word

/-- The word whose only bit is that of position `i`. -/
def mask (i : Nat) : UInt64 := 1 <<< UInt64.ofNat (i % 64)

/-- The bit of position `i` is set in `w`. -/
def hasBit (w : UInt64) (i : Nat) : Bool := w &&& mask i != 0

/-- The number of bits that are set in `w`. -/
def countOnes (w : UInt64) : Nat := if w = 0 then 0 else (List.range 64).countP (hasBit w)

theorem toNat_mask (i : Nat) : (mask i).toNat = 1 <<< (i % 64) := by
  have h : i % 64 < 64 := Nat.mod_lt _ (by decide)
  have h' : (UInt64.ofNat (i % 64)).toNat % 64 = i % 64 := by rw [UInt64.toNat_ofNat']; omega
  unfold mask
  rw [UInt64.toNat_shiftLeft, h', show (1 : UInt64).toNat = 1 from rfl, Nat.one_shiftLeft]
  exact Nat.mod_eq_of_lt (Nat.pow_lt_pow_right (by decide) h)

theorem hasBit_eq (w : UInt64) (i : Nat) : hasBit w i = w.toNat.testBit (i % 64) := by
  rw [Bool.eq_iff_iff]
  unfold hasBit
  rw [bne_iff_ne, ne_eq, ← UInt64.toNat_inj, UInt64.toNat_and, toNat_mask,
    Nat.one_shiftLeft]
  constructor
  · intro h
    obtain ⟨j, hj⟩ := Nat.exists_testBit_of_ne_zero h
    simp only [Nat.testBit_and, Nat.testBit_two_pow, Bool.and_eq_true, decide_eq_true_eq] at hj
    rw [hj.2]; exact hj.1
  · intro h h0
    have := congrArg (fun n => Nat.testBit n (i % 64)) h0
    simp [Nat.testBit_and, h] at this

theorem hasBit_or_mask (w : UInt64) (i j : Nat) :
    hasBit (w ||| mask i) j = (hasBit w j || decide (i % 64 = j % 64)) := by
  simp [hasBit_eq, toNat_mask, Nat.one_shiftLeft, Nat.testBit_or, Nat.testBit_two_pow]

theorem hasBit_zero (i : Nat) : hasBit 0 i = false := by simp [hasBit_eq]

end Word

/-- The bit of position `i` in a row of words, clear past the end. -/
def bitOf (words : Array UInt64) (i : Nat) : Bool :=
  match words[i / 64]? with
  | some w => Word.hasBit w i
  | none => false

theorem bitOf_replicate (n i : Nat) : bitOf (Array.replicate n 0) i = false := by
  unfold bitOf
  rw [Array.getElem?_replicate]
  split
  · next h => split at h <;> simp at h; rw [← h]; exact Word.hasBit_zero i
  · rfl

/-- The row of words with the bit of position `i` set. -/
def withBit (words : Array UInt64) (i : Nat) : Array UInt64 :=
  words.modify (i / 64) (· ||| Word.mask i)

theorem size_withBit (words : Array UInt64) (i : Nat) : (withBit words i).size = words.size :=
  Array.size_modify

theorem bitOf_withBit {words : Array UInt64} {i : Nat} (h : i / 64 < words.size) (j : Nat) :
    bitOf (withBit words i) j = (bitOf words j || decide (i = j)) := by
  unfold bitOf withBit
  rw [Array.getElem?_modify]
  by_cases hij : i / 64 = j / 64
  · rw [if_pos hij, ← hij, Array.getElem?_eq_getElem h]
    simp only [Option.map_some, Word.hasBit_or_mask]
    congr 1
    simp only [decide_eq_decide]
    omega
  · rw [if_neg hij]
    have : i ≠ j := fun h => hij (by rw [h])
    simp [this]

/-! ### Sets -/

/-- A set of positions below `bits`. No bit at or past `bits` is set in the last word. -/
structure BitSet where
  bits : Nat
  words : Array UInt64
  size_words : words.size = (bits + 63) / 64
  bitOf_past : ∀ i, bits ≤ i → bitOf words i = false

namespace BitSet

/-- The empty set of positions below `bits`. -/
def empty (bits : Nat) : BitSet where
  bits := bits
  words := Array.replicate ((bits + 63) / 64) 0
  size_words := Array.size_replicate
  bitOf_past i _ := bitOf_replicate _ i

/-- The number of bytes that no machine can reserve. -/
def unreservable : Nat := 0x800000000000

/-- The empty set, or a fault if its words cannot be reserved. -/
def create? (bits : Nat) : Except Fault BitSet :=
  let bytes := (bits + 63) / 64 * 8
  if unreservable ≤ bytes then .error (.outOfMemory bytes) else .ok (empty bits)

/-- Position `i` is in the set. -/
def test (s : BitSet) (i : Nat) : Bool := decide (i < s.bits) && bitOf s.words i

theorem word_lt {s : BitSet} {i : Nat} (h : i < s.bits) : i / 64 < s.words.size := by
  rw [s.size_words]; omega

/-- The set with position `i` in it. -/
def set (s : BitSet) (i : Nat) : BitSet :=
  if h : i < s.bits then
    { s with
      words := withBit s.words i
      size_words := by rw [size_withBit]; exact s.size_words
      bitOf_past := fun j hj => by
        rw [bitOf_withBit (word_lt h), s.bitOf_past j hj]; simp; omega }
  else s

/-- The set with position `i` in it, and whether it was absent before. -/
def testAndSet (s : BitSet) (i : Nat) : Bool × BitSet :=
  if i < s.bits then (!bitOf s.words i, s.set i) else (false, s)

/-- The set with no position in it. -/
def clear (s : BitSet) : BitSet := empty s.bits

/-- The number of positions in the set. -/
def countOnes (s : BitSet) : Nat := total Word.countOnes s.words.toList

/-- The least absent position among the `left` positions from `i` on. -/
def nextClearWithin (s : BitSet) : (left : Nat) → (i : Nat) → Option Nat
  | 0, _ => none
  | left + 1, i => if s.test i then nextClearWithin s left (i + 1) else some i

/-- The least absent position from `start` on that is below the capacity. -/
def nextClear (s : BitSet) (start : Nat) : Option Nat := s.nextClearWithin (s.bits - start) start

/-- The positions of the set in ascending order. -/
def toList (s : BitSet) : List Nat := (List.range s.bits).filter s.test

/-- The two sets have the same capacity and the same words. -/
protected def beq (s t : BitSet) : Bool := s.bits == t.bits && s.words == t.words

instance : BEq BitSet := ⟨BitSet.beq⟩

/-! ### Membership -/

theorem test_eq (s : BitSet) (i : Nat) : s.test i = bitOf s.words i := by
  unfold test
  by_cases h : i < s.bits
  · simp [h]
  · rw [s.bitOf_past i (by omega)]; simp

theorem test_empty (bits i : Nat) : (empty bits).test i = false := by
  rw [test_eq]; exact bitOf_replicate _ i

theorem bits_set (s : BitSet) (i : Nat) : (s.set i).bits = s.bits := by
  unfold set; split <;> rfl

theorem bits_testAndSet (s : BitSet) (i : Nat) : (s.testAndSet i).2.bits = s.bits := by
  unfold testAndSet; split
  · exact bits_set s i
  · rfl

theorem test_set (s : BitSet) (i j : Nat) :
    (s.set i).test j = (s.test j || decide (i = j ∧ i < s.bits)) := by
  rw [test_eq, test_eq]
  by_cases h : i < s.bits
  · have : (s.set i).words = withBit s.words i := by unfold set; rw [dif_pos h]
    rw [this, bitOf_withBit (word_lt h)]
    simp [h]
  · have : s.set i = s := by unfold set; rw [dif_neg h]
    rw [this]; simp [h]

theorem test_testAndSet (s : BitSet) (i j : Nat) :
    (s.testAndSet i).2.test j = (s.test j || decide (i = j ∧ i < s.bits)) := by
  unfold testAndSet
  by_cases h : i < s.bits
  · rw [if_pos h]; exact test_set s i j
  · rw [if_neg h]; simp [h]

theorem testAndSet_fst (s : BitSet) (i : Nat) :
    (s.testAndSet i).1 = (decide (i < s.bits) && !s.test i) := by
  unfold testAndSet
  rw [test_eq]
  by_cases h : i < s.bits <;> simp [h]

/-! ### Absent positions -/

theorem nextClearWithin_eq_some_iff {s : BitSet} {left i j : Nat} :
    s.nextClearWithin left i = some j ↔
      i ≤ j ∧ j < i + left ∧ s.test j = false ∧ ∀ k, i ≤ k → k < j → s.test k = true := by
  induction left generalizing i with
  | zero =>
    refine iff_of_false (fun h => by cases h) ?_
    rintro ⟨hle, hlt, -⟩
    omega
  | succ left ih =>
    rw [nextClearWithin]
    split
    · next hi =>
      rw [ih]
      constructor
      · rintro ⟨hle, hlt, hj, hall⟩
        refine ⟨by omega, by omega, hj, fun k hk hkj => ?_⟩
        by_cases hki : k = i
        · rw [hki]
          exact hi
        · exact hall k (by omega) hkj
      · rintro ⟨hle, hlt, hj, hall⟩
        have hne : i ≠ j := fun heq => by
          rw [heq, hj] at hi
          cases hi
        exact ⟨by omega, by omega, hj, fun k hk hkj => hall k (by omega) hkj⟩
    · next hi =>
      constructor
      · intro h
        obtain rfl := Option.some.inj h
        refine ⟨Nat.le_refl i, by omega, by simpa using hi, fun k hk hki => ?_⟩
        omega
      · rintro ⟨hle, -, -, hall⟩
        have hij : ¬ i < j := fun hlt => hi (hall i (Nat.le_refl i) hlt)
        rw [show i = j by omega]

theorem nextClearWithin_eq_none_iff {s : BitSet} {left i : Nat} :
    s.nextClearWithin left i = none ↔ ∀ k, i ≤ k → k < i + left → s.test k = true := by
  induction left generalizing i with
  | zero =>
    refine iff_of_true rfl fun k hk hki => ?_
    omega
  | succ left ih =>
    rw [nextClearWithin]
    split
    · next hi =>
      rw [ih]
      constructor
      · intro hall k hk hkl
        by_cases hki : k = i
        · rw [hki]
          exact hi
        · exact hall k (by omega) (by omega)
      · intro hall k hk hkl
        exact hall k (by omega) (by omega)
    · next hi =>
      exact iff_of_false (fun h => by cases h) fun hall => hi (hall i (Nat.le_refl i) (by omega))

/-- **The scan finds** the least absent position from its start on. -/
theorem nextClear_eq_some_iff {s : BitSet} {start j : Nat} :
    s.nextClear start = some j ↔
      start ≤ j ∧ j < s.bits ∧ s.test j = false ∧ ∀ k, start ≤ k → k < j → s.test k = true := by
  rw [nextClear, nextClearWithin_eq_some_iff]
  constructor
  · rintro ⟨hle, hlt, hj, hall⟩
    exact ⟨hle, by omega, hj, hall⟩
  · rintro ⟨hle, hlt, hj, hall⟩
    exact ⟨hle, by omega, hj, hall⟩

theorem nextClear_eq_none_iff {s : BitSet} {start : Nat} :
    s.nextClear start = none ↔ ∀ k, start ≤ k → k < s.bits → s.test k = true := by
  rw [nextClear, nextClearWithin_eq_none_iff]
  constructor
  · intro hall k hk hkb
    exact hall k hk (by omega)
  · intro hall k hk hkb
    exact hall k hk (by omega)

/-- The number of positions that are not in the set. -/
def absent (s : BitSet) : Nat := (List.range s.bits).countP fun i => !s.test i

theorem countP_range_switch {p q : Nat → Bool} {i : Nat} (hi : p i = true)
    (hq : ∀ j, q j = (p j && decide (j ≠ i))) :
    ∀ n, (List.range n).countP q + (if i < n then 1 else 0) = (List.range n).countP p
  | 0 => by simp
  | n + 1 => by
    have ih := countP_range_switch hi hq n
    rw [List.range_succ, List.countP_append, List.countP_append, ← ih]
    by_cases hn : n = i
    · subst hn; simp [hq, hi]
    · by_cases hlt : i < n
      · rw [if_pos hlt, if_pos (by omega)]; simp [hq, hn]; omega
      · rw [if_neg hlt, if_neg (by omega)]; simp [hq, hn]

theorem absent_testAndSet (s : BitSet) (i : Nat) :
    (s.testAndSet i).2.absent + (if (s.testAndSet i).1 then 1 else 0) = s.absent := by
  unfold absent
  rw [bits_testAndSet, testAndSet_fst]
  by_cases h : i < s.bits ∧ s.test i = false
  · have hq : ∀ j, (!(s.testAndSet i).2.test j) = ((!s.test j) && decide (j ≠ i)) := fun j => by
      rw [test_testAndSet]
      by_cases hj : j = i
      · subst hj; simp [h.1]
      · have hj' : i ≠ j := fun e => hj e.symm
        simp [hj, hj']
    have := countP_range_switch (p := fun j => !s.test j) (by simpa using h.2) hq s.bits
    simpa [h.1, h.2] using this
  · have hq : ∀ j, (s.testAndSet i).2.test j = s.test j := fun j => by
      rw [test_testAndSet]
      by_cases hj : i = j ∧ i < s.bits
      · have : s.test j = true := by
          rw [← hj.1]
          cases ht : s.test i with
          | true => rfl
          | false => exact absurd ⟨hj.2, ht⟩ h
        simp [this]
      · simp [hj]
    simp only [hq]
    by_cases h1 : i < s.bits
    · have : s.test i = true := by
        cases ht : s.test i with
        | true => rfl
        | false => exact absurd ⟨h1, ht⟩ h
      simp [this]
    · simp [h1]

end BitSet

end FlatGraph
