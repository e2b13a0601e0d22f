import FlatGraph.Container.BitSet

/-! # Sets that workers claim positions from

A set of positions that several workers share. It is changed by one step only, `testAndSet`, which
reads a word and sets a bit in it at once; exactly one of the workers that try a position wins it.

* `ClaimSet.toBitSet_testAndSet`, `ClaimSet.testAndSet_fst`: a claim is an insertion into the set as
  a `BitSet`. -/

namespace FlatGraph

/-- The word at index `k`, zero past the end, and the row with the bits of `m` added to that word,
in one step. -/
def fetchOr (words : Array UInt64) (k : Nat) (m : UInt64) : UInt64 × Array UInt64 :=
  (words.getD k 0, words.modify k (· ||| m))

theorem fetchOr_snd (words : Array UInt64) (i : Nat) :
    (fetchOr words (i / 64) (Word.mask i)).2 = withBit words i := rfl

theorem fetchOr_fst (words : Array UInt64) (i : Nat) :
    Word.hasBit (fetchOr words (i / 64) (Word.mask i)).1 i = bitOf words i := by
  unfold fetchOr bitOf
  rw [Array.getD_eq_getD_getElem?]
  cases words[i / 64]? with
  | none => exact Word.hasBit_zero i
  | some w => rfl

/-- A shared set of positions below `bits`. -/
structure ClaimSet where
  bits : Nat
  words : Array UInt64
  size_words : words.size = (bits + 63) / 64
  bitOf_past : ∀ i, bits ≤ i → bitOf words i = false

namespace ClaimSet

/-- The empty set of positions below `bits`. -/
def empty (bits : Nat) : ClaimSet where
  bits := bits
  words := (BitSet.empty bits).words
  size_words := (BitSet.empty bits).size_words
  bitOf_past := (BitSet.empty bits).bitOf_past

/-- The set as it stands, once no worker claims from it any more. -/
def toBitSet (s : ClaimSet) : BitSet where
  bits := s.bits
  words := s.words
  size_words := s.size_words
  bitOf_past := s.bitOf_past

/-- Position `i` is taken. -/
def test (s : ClaimSet) (i : Nat) : Bool := s.toBitSet.test i

/-- Claims position `i`. Answers whether it was free until this step. -/
def testAndSet (s : ClaimSet) (i : Nat) : Bool × ClaimSet :=
  if h : i < s.bits then
    let step := fetchOr s.words (i / 64) (Word.mask i)
    (!Word.hasBit step.1 i,
      { s with
        words := step.2
        size_words := by
          show (withBit s.words i).size = _
          rw [size_withBit]; exact s.size_words
        bitOf_past := fun j hj => by
          show bitOf (withBit s.words i) j = false
          have hw : i / 64 < s.words.size := by rw [s.size_words]; omega
          rw [bitOf_withBit hw, s.bitOf_past j hj]; simp; omega })
  else (false, s)

/-- The number of positions taken. -/
def countOnes (s : ClaimSet) : Nat := s.toBitSet.countOnes

/-! ### Claims as insertions -/

theorem testAndSet_fst (s : ClaimSet) (i : Nat) :
    (s.testAndSet i).1 = (s.toBitSet.testAndSet i).1 := by
  unfold testAndSet BitSet.testAndSet
  by_cases h : i < s.bits
  · rw [dif_pos h, if_pos (show i < s.toBitSet.bits from h)]
    show (!Word.hasBit (fetchOr s.words (i / 64) (Word.mask i)).1 i) = _
    rw [fetchOr_fst]; rfl
  · rw [dif_neg h, if_neg (show ¬ i < s.toBitSet.bits from h)]

theorem toBitSet_testAndSet (s : ClaimSet) (i : Nat) :
    (s.testAndSet i).2.toBitSet = (s.toBitSet.testAndSet i).2 := by
  unfold testAndSet BitSet.testAndSet BitSet.set
  by_cases h : i < s.bits
  · rw [dif_pos h, if_pos (show i < s.toBitSet.bits from h),
      dif_pos (show i < s.toBitSet.bits from h)]
    rfl
  · rw [dif_neg h, if_neg (show ¬ i < s.toBitSet.bits from h)]

/-- The number of free positions. -/
def absent (s : ClaimSet) : Nat := s.toBitSet.absent

theorem absent_testAndSet (s : ClaimSet) (i : Nat) :
    (s.testAndSet i).2.absent + (if (s.testAndSet i).1 then 1 else 0) = s.absent := by
  unfold absent
  rw [toBitSet_testAndSet, testAndSet_fst]
  exact BitSet.absent_testAndSet _ _

end ClaimSet

end FlatGraph
