import Mathlib.Data.Finset.Sort
import Mathlib.Order.Bounds.Defs
import FlatGraph.Container.ClaimSet
import FlatGraph.Proofs.Container.BitSet

/-! # Sets of positions and finite sets

Whatever calls are made to a set of positions, it answers them as a finite set of numbers below its
capacity does. Neither the edges of the words nor the spare bits of the last one show. A set that
workers share answers the calls it has in the same way.

* `members`: the positions in a set.
* `Members.perform`: what a call does to a finite set.
* `Packed.perform`, `Packed.performShared`: what it does to a row of words that nothing is known of.
* `perform_members`, `perform_packed`: a call to a set is one to its members, and one to its words.
  `ClaimSet.perform_alone`: one to a shared set is one to the set as it stands.
* `run_mapM_view`: what holds of each call holds of all calls one after the other.
* `Holds`: the set has the members. `members_run`: after every run it has those of the finite set. -/

namespace FlatGraph

section Run

variable {σ τ ι α : Type} {step : ι → StateM σ α} {other : ι → StateM τ α}

theorem run_mapM_cons (step : ι → StateM σ α) (s : σ) (call : ι) (calls : List ι) :
    ((call :: calls).mapM step).run s =
      (((step call).run s).1 :: ((calls.mapM step).run ((step call).run s).2).1,
        ((calls.mapM step).run ((step call).run s).2).2) := by
  rw [List.mapM_cons]
  rfl

/-- **A view of a machine answers all calls** as the machine does if it answers each call so in the
valid states, and each call leaves a valid state. -/
theorem run_mapM_view (view : σ → τ) (valid : σ → Prop)
    (hview : ∀ s call, valid s →
      (other call).run (view s) = (((step call).run s).1, view ((step call).run s).2))
    (hvalid : ∀ s call, valid s → valid ((step call).run s).2)
    (s : σ) (h : valid s) (calls : List ι) :
    (calls.mapM other).run (view s) =
        (((calls.mapM step).run s).1, view ((calls.mapM step).run s).2) ∧
      valid ((calls.mapM step).run s).2 := by
  induction calls generalizing s with
  | nil => exact ⟨rfl, h⟩
  | cons call calls ih =>
    obtain ⟨hrest, hlast⟩ := ih _ (hvalid s call h)
    rw [run_mapM_cons, run_mapM_cons, hview s call h, hrest]
    exact ⟨rfl, hlast⟩

end Run

namespace BitSet

/-- A call to a set. -/
inductive Call
  | set (i : Nat)
  | clear
  | test (i : Nat)
  | testAndSet (i : Nat)

/-- What a call answers. -/
inductive Answer
  | done
  | tested (present : Bool)
  | inserted (fresh : Bool)

/-- What a call does to a set. -/
def perform : Call → StateM BitSet Answer
  | .set i => fun s => (.done, s.set i)
  | .clear => fun s => (.done, s.clear)
  | .test i => fun s => (.tested (s.test i), s)
  | .testAndSet i => fun s => (.inserted (s.testAndSet i).1, (s.testAndSet i).2)

end BitSet

namespace ClaimSet

/-- A call to a set that workers share. -/
inductive Call
  | test (i : Nat)
  | testAndSet (i : Nat)

/-- The same call to a set of one's own. -/
def Call.alone : Call → BitSet.Call
  | .test i => .test i
  | .testAndSet i => .testAndSet i

/-- What a call does to a shared set. -/
def perform : Call → StateM ClaimSet BitSet.Answer
  | .test i => fun s => (.tested (s.test i), s)
  | .testAndSet i => fun s => (.inserted (s.testAndSet i).1, (s.testAndSet i).2)

/-- **A call to a shared set** is one to the set as it stands. -/
theorem perform_alone (s : ClaimSet) (call : Call) :
    (BitSet.perform call.alone).run s.toBitSet =
      (((perform call).run s).1, ((perform call).run s).2.toBitSet) := by
  cases call with
  | test i => rfl
  | testAndSet i =>
    exact Prod.ext (congrArg BitSet.Answer.inserted (s.testAndSet_fst i).symm)
      (s.toBitSet_testAndSet i).symm

end ClaimSet

namespace BitSet

/-! ### Finite sets -/

namespace Members

/-- The members with `i` among them, if it is below `capacity`. -/
def put (capacity i : Nat) (members : Finset Nat) : Finset Nat :=
  if i < capacity then insert i members else members

/-- What a call does to a finite set of numbers below `capacity`. -/
def perform (capacity : Nat) : Call → StateM (Finset Nat) Answer
  | .set i => fun members => (.done, put capacity i members)
  | .clear => fun _ => (.done, ∅)
  | .test i => fun members => (.tested (decide (i ∈ members)), members)
  | .testAndSet i => fun members =>
    (.inserted (decide (i < capacity ∧ i ∉ members)), put capacity i members)

theorem mem_put {capacity i j : Nat} {members : Finset Nat} :
    j ∈ put capacity i members ↔ j ∈ members ∨ i = j ∧ i < capacity := by
  unfold put
  split
  · next h => rw [Finset.mem_insert, or_comm, eq_comm, and_iff_left h]
  · next h => simp [h]

end Members

/-- The positions in the set. -/
def members (s : BitSet) : Finset Nat := (Finset.range s.bits).filter fun i => s.test i = true

theorem mem_members {s : BitSet} {i : Nat} : i ∈ s.members ↔ s.test i = true := by
  rw [members, Finset.mem_filter, Finset.mem_range, and_iff_right_iff_imp]
  exact lt_of_test

theorem members_empty (bits : Nat) : (empty bits).members = ∅ := by
  ext i
  simp [mem_members, test_empty]

theorem members_set (s : BitSet) (i : Nat) : (s.set i).members = Members.put s.bits i s.members := by
  ext j
  rw [Members.mem_put, mem_members, mem_members, test_set, Bool.or_eq_true, decide_eq_true_eq]

theorem snd_testAndSet (s : BitSet) (i : Nat) : (s.testAndSet i).2 = s.set i := by
  unfold testAndSet set
  split <;> rfl

theorem bits_perform (s : BitSet) (call : Call) : ((perform call).run s).2.bits = s.bits := by
  cases call with
  | set i => exact s.bits_set i
  | clear => rfl
  | test i => rfl
  | testAndSet i => exact s.bits_testAndSet i

/-- **A call to a set** is a call to its members. -/
theorem perform_members (s : BitSet) (call : Call) :
    (Members.perform s.bits call).run s.members =
      (((perform call).run s).1, ((perform call).run s).2.members) := by
  have hmem : ∀ i, decide (i ∈ s.members) = s.test i := fun i => by
    rw [Bool.eq_iff_iff, decide_eq_true_eq, mem_members]
  cases call with
  | set i => exact congrArg (Prod.mk Answer.done) (s.members_set i).symm
  | clear => exact congrArg (Prod.mk Answer.done) (members_empty s.bits).symm
  | test i => exact congrArg (fun present => (Answer.tested present, s.members)) (hmem i)
  | testAndSet i =>
    refine Prod.ext (congrArg Answer.inserted ?_) ?_
    · rw [testAndSet_fst, Bool.decide_and, decide_not, hmem]
    · show _ = (s.testAndSet i).2.members
      rw [snd_testAndSet]
      exact (s.members_set i).symm

/-! ### Words -/

namespace Packed

/-- The words for `capacity` positions, no bit of them set. -/
def zeros (capacity : Nat) : Array UInt64 := Array.replicate ((capacity + 63) / 64) 0

/-- Sets the bit of a position, if there is a word for it. -/
def set (capacity i : Nat) (words : Array UInt64) : Array UInt64 :=
  if i < capacity then withBit words i else words

/-- Reads the bit of a position, then sets it. -/
def testAndSet (capacity i : Nat) (words : Array UInt64) : Bool × Array UInt64 :=
  if i < capacity then
    match words[i / 64]? with
    | some w => (!Word.hasBit w i, withBit words i)
    | none => (false, words)
  else (false, words)

/-- Reads and sets the bit of a position in one step. -/
def claim (capacity i : Nat) (words : Array UInt64) : Bool × Array UInt64 :=
  if i < capacity then
    match words[i / 64]? with
    | some _ =>
      let step := fetchOr words (i / 64) (Word.mask i)
      (!Word.hasBit step.1 i, step.2)
    | none => (false, words)
  else (false, words)

/-- What a call does to the words. -/
def perform (capacity : Nat) : Call → StateM (Array UInt64) Answer
  | .set i => fun words => (.done, set capacity i words)
  | .clear => fun words => (.done, words.map fun _ => 0)
  | .test i => fun words => (.tested (decide (i < capacity) && bitOf words i), words)
  | .testAndSet i => fun words =>
    (.inserted (testAndSet capacity i words).1, (testAndSet capacity i words).2)

/-- What a call to a shared set does to the words. -/
def performShared (capacity : Nat) : ClaimSet.Call → StateM (Array UInt64) Answer
  | .test i => perform capacity (.test i)
  | .testAndSet i => fun words =>
    (.inserted (claim capacity i words).1, (claim capacity i words).2)

theorem claim_eq_testAndSet (capacity i : Nat) (words : Array UInt64) :
    claim capacity i words = testAndSet capacity i words := by
  unfold claim testAndSet
  split
  · cases h : words[i / 64]? with
    | none => rfl
    | some w => simp only [fetchOr_fst, fetchOr_snd, bitOf, h]
  · rfl

/-- One worker after the other, reading and setting a bit in one step or in two is the same. -/
theorem performShared_eq (capacity : Nat) :
    performShared capacity = perform capacity ∘ ClaimSet.Call.alone := by
  funext call
  cases call with
  | test i => rfl
  | testAndSet i =>
    funext words
    exact congrArg (Prod.map Answer.inserted id) (claim_eq_testAndSet capacity i words)

end Packed

theorem words_set (s : BitSet) (i : Nat) : (s.set i).words = Packed.set s.bits i s.words := by
  unfold set Packed.set
  split <;> rfl

theorem words_clear (s : BitSet) : s.clear.words = s.words.map fun _ => 0 := by
  refine Array.ext ?_ fun k _ _ => ?_
  · rw [s.clear.size_words, Array.size_map, s.size_words]
    rfl
  · simp [clear, empty]

theorem packed_testAndSet (s : BitSet) (i : Nat) :
    Packed.testAndSet s.bits i s.words = ((s.testAndSet i).1, (s.testAndSet i).2.words) := by
  rw [snd_testAndSet, words_set, testAndSet, Packed.testAndSet, Packed.set]
  by_cases h : i < s.bits
  · have hword := Array.getElem?_eq_getElem (word_lt h)
    rw [if_pos h, if_pos h, if_pos h, bitOf, hword]
  · rw [if_neg h, if_neg h, if_neg h]

/-- **A call to a set** is a call to its words. -/
theorem perform_packed (s : BitSet) (call : Call) :
    (Packed.perform s.bits call).run s.words =
      (((perform call).run s).1, ((perform call).run s).2.words) := by
  cases call with
  | set i => exact congrArg (Prod.mk Answer.done) (s.words_set i).symm
  | clear => exact congrArg (Prod.mk Answer.done) s.words_clear.symm
  | test i => rfl
  | testAndSet i => exact congrArg (Prod.map Answer.inserted id) (s.packed_testAndSet i)

/-! ### Holding members -/

instance : LawfulBEq BitSet where
  eq_of_beq {s t} h := by
    obtain ⟨hbits, hwords⟩ := Bool.and_eq_true_iff.mp (show BitSet.beq s t = true from h)
    refine ext_test (eq_of_beq hbits) fun i => ?_
    rw [test_eq, test_eq, eq_of_beq hwords]
  rfl {s} := by
    show BitSet.beq s s = true
    simp [BitSet.beq]

/-- **The set has the members**, all below `capacity`. A position past it is in no set and changes
none. The members are counted, and listed in ascending order; a scan finds the least number below
`capacity` that is not one of them. No bit of a word is set but for a member, so the sets that are
equal to this one are those with its capacity and its members. -/
structure Holds (capacity : Nat) (members : Finset Nat) (s : BitSet) : Prop where
  bits_eq : s.bits = capacity
  lt_of_mem : ∀ i ∈ members, i < capacity
  test_iff : ∀ i, s.test i = true ↔ i ∈ members
  test_past : ∀ i, capacity ≤ i → s.test i = false
  set_past : ∀ i, capacity ≤ i → s.set i = s ∧ s.testAndSet i = (false, s)
  testAndSet_iff : ∀ i, (s.testAndSet i).1 = true ↔ i < capacity ∧ i ∉ members
  countOnes_eq : s.countOnes = members.card
  toList_eq : s.toList = members.sort
  nextClear_eq_some_iff : ∀ start j, s.nextClear start = some j ↔
    IsLeast {k | start ≤ k ∧ k < capacity ∧ k ∉ members} j
  nextClear_eq_none_iff : ∀ start, s.nextClear start = none ↔
    ∀ k, start ≤ k → k < capacity → k ∈ members
  size_words : s.words.size = (capacity + 63) / 64
  testBit_iff : ∀ k w, s.words[k]? = some w → ∀ i,
    w.toNat.testBit i = true ↔ i < 64 ∧ 64 * k + i ∈ members
  testBit_past : ∀ k w, s.words[k]? = some w → ∀ i, capacity ≤ 64 * k + i →
    w.toNat.testBit i = false
  beq_iff : ∀ t : BitSet, (s == t) = true ↔ t.bits = capacity ∧ ∀ i, t.test i = true ↔ i ∈ members

theorem test_eq_false_iff {s : BitSet} {i : Nat} : s.test i = false ↔ i ∉ s.members := by
  rw [mem_members, Bool.not_eq_true]

theorem toList_eq_sort (s : BitSet) : s.toList = s.members.sort := by
  have hmembers : s.members = s.toList.toFinset := by
    ext i
    rw [mem_members, List.mem_toFinset, mem_toList]
  have hsorted : s.toList.Pairwise (· ≤ ·) := List.pairwise_le_range.filter _
  rw [hmembers]
  exact ((List.toFinset_sort (· ≤ ·) s.nodup_toList).mpr hsorted).symm

theorem nextClear_eq_some_iff_isLeast {s : BitSet} {start j : Nat} :
    s.nextClear start = some j ↔ IsLeast {k | start ≤ k ∧ k < s.bits ∧ k ∉ s.members} j := by
  rw [nextClear_eq_some_iff]
  constructor
  · rintro ⟨hstart, hlt, hj, hall⟩
    refine ⟨⟨hstart, hlt, test_eq_false_iff.mp hj⟩, ?_⟩
    rintro k ⟨hk, -, hnot⟩
    by_contra hkj
    exact hnot (mem_members.mpr (hall k hk (by omega)))
  · rintro ⟨⟨hstart, hlt, hj⟩, hleast⟩
    refine ⟨hstart, hlt, test_eq_false_iff.mpr hj, fun k hk hkj => ?_⟩
    by_contra hnot
    have hle := hleast ⟨hk, by omega, fun hmem => hnot (mem_members.mp hmem)⟩
    omega

theorem testBit_word_iff {s : BitSet} {k : Nat} {w : UInt64} (hw : s.words[k]? = some w) (i : Nat) :
    w.toNat.testBit i = true ↔ i < 64 ∧ 64 * k + i ∈ s.members := by
  obtain ⟨hk, rfl⟩ := Array.getElem?_eq_some_iff.mp hw
  rw [mem_members]
  by_cases hi : i < 64
  · rw [testBit_eq_test hk hi, and_iff_right hi]
  -- A word is below every power of two from the sixty-fourth on, so it has no such bit.
  · have hlt : s.words[k].toNat < 2 ^ i :=
      s.words[k].toNat_lt.trans_le (Nat.pow_le_pow_right (by decide) (by omega))
    simp [Nat.testBit_lt_two_pow hlt, hi]

theorem holds_members (s : BitSet) : s.Holds s.bits s.members := by
  have hlt : ∀ i ∈ s.members, i < s.bits := fun i hi => lt_of_test (mem_members.mp hi)
  constructor
  case bits_eq => rfl
  case lt_of_mem => exact hlt
  case test_iff => exact fun i => mem_members.symm
  case test_past =>
    intro i hi
    exact test_eq_false_iff.mpr fun hmem => Nat.not_lt.mpr hi (hlt i hmem)
  case set_past =>
    intro i hi
    have hnot : ¬ i < s.bits := Nat.not_lt.mpr hi
    exact ⟨dif_neg hnot, if_neg hnot⟩
  case testAndSet_iff =>
    intro i
    rw [testAndSet_fst, Bool.and_eq_true, decide_eq_true_eq, Bool.not_eq_true', test_eq_false_iff]
  case countOnes_eq => rw [countOnes_eq_length, toList_eq_sort, Finset.length_sort]
  case toList_eq => exact s.toList_eq_sort
  case nextClear_eq_some_iff => exact fun start j => nextClear_eq_some_iff_isLeast
  case nextClear_eq_none_iff =>
    intro start
    simp only [BitSet.nextClear_eq_none_iff, mem_members]
  case size_words => exact s.size_words
  case testBit_iff => exact fun k w hw i => testBit_word_iff hw i
  case testBit_past =>
    intro k w hw i hi
    rw [← Bool.not_eq_true, testBit_word_iff hw]
    rintro ⟨-, hmem⟩
    exact Nat.not_lt.mpr hi (hlt _ hmem)
  -- Equal words are asked for, equal members are enough: the spare bits of both sets are clear.
  case beq_iff =>
    intro t
    rw [beq_iff_eq]
    constructor
    · rintro rfl
      exact ⟨rfl, fun i => mem_members.symm⟩
    · rintro ⟨hbits, hall⟩
      refine ext_test hbits.symm fun i => ?_
      rw [Bool.eq_iff_iff, hall, mem_members]

/-! ### Runs -/

theorem run_members (capacity : Nat) (calls : List Call) :
    (calls.mapM (Members.perform capacity)).run ∅ =
        (((calls.mapM perform).run (empty capacity)).1,
          ((calls.mapM perform).run (empty capacity)).2.members) ∧
      ((calls.mapM perform).run (empty capacity)).2.bits = capacity := by
  rw [← members_empty capacity]
  refine run_mapM_view members (·.bits = capacity) ?_ ?_ (empty capacity) rfl calls
  · rintro s call rfl
    exact s.perform_members call
  · rintro s call rfl
    exact s.bits_perform call

theorem run_packed (capacity : Nat) (calls : List Call) :
    (calls.mapM (Packed.perform capacity)).run (Packed.zeros capacity) =
      (((calls.mapM perform).run (empty capacity)).1,
        ((calls.mapM perform).run (empty capacity)).2.words) := by
  refine (run_mapM_view words (·.bits = capacity) ?_ ?_ (empty capacity) rfl calls).1
  · rintro s call rfl
    exact s.perform_packed call
  · rintro s call rfl
    exact s.bits_perform call

theorem run_alone (capacity : Nat) (calls : List ClaimSet.Call) :
    ((calls.map ClaimSet.Call.alone).mapM perform).run (empty capacity) =
      (((calls.mapM ClaimSet.perform).run (ClaimSet.empty capacity)).1,
        ((calls.mapM ClaimSet.perform).run (ClaimSet.empty capacity)).2.toBitSet) := by
  rw [List.mapM_map]
  refine (run_mapM_view ClaimSet.toBitSet (fun _ => True) ?_ (fun _ _ _ => trivial)
    (ClaimSet.empty capacity) trivial calls).1
  exact fun s call _ => s.perform_alone call

theorem holds_run (capacity : Nat) (calls : List Call) : ∃ answers members s,
    (calls.mapM (Members.perform capacity)).run ∅ = (answers, members) ∧
      (calls.mapM perform).run (empty capacity) = (answers, s) ∧
      (calls.mapM (Packed.perform capacity)).run (Packed.zeros capacity) = (answers, s.words) ∧
      s.Holds capacity members := by
  obtain ⟨hmembers, hbits⟩ := run_members capacity calls
  have hholds := holds_members ((calls.mapM perform).run (empty capacity)).2
  rw [hbits] at hholds
  exact ⟨_, _, _, hmembers, rfl, run_packed capacity calls, hholds⟩

/-- **A set of positions is a finite set.** From the empty set on, any calls are answered as by the
finite set of the numbers put into it, and the words alone answer the same. So are the calls to a
shared set, in whatever order they come; at the end it is the set that the same calls give alone. -/
theorem members_run (capacity : Nat) :
    (∀ calls : List Call, ∃ answers members s,
      (calls.mapM (Members.perform capacity)).run ∅ = (answers, members) ∧
        (calls.mapM perform).run (empty capacity) = (answers, s) ∧
        (calls.mapM (Packed.perform capacity)).run (Packed.zeros capacity) = (answers, s.words) ∧
        s.Holds capacity members) ∧
    ∀ calls : List ClaimSet.Call, ∃ answers members c,
      ((calls.map ClaimSet.Call.alone).mapM (Members.perform capacity)).run ∅ =
          (answers, members) ∧
        ((calls.map ClaimSet.Call.alone).mapM perform).run (empty capacity) =
          (answers, c.toBitSet) ∧
        (calls.mapM ClaimSet.perform).run (ClaimSet.empty capacity) = (answers, c) ∧
        (calls.mapM (Packed.performShared capacity)).run (Packed.zeros capacity) =
          (answers, c.words) ∧
        c.toBitSet.Holds capacity members ∧ c.countOnes = members.card ∧
        ∀ i, c.test i = true ↔ i ∈ members := by
  refine ⟨holds_run capacity, fun calls => ?_⟩
  obtain ⟨answers, members, s, hmembers, hs, hwords, hholds⟩ :=
    holds_run capacity (calls.map ClaimSet.Call.alone)
  obtain ⟨rfl, rfl⟩ := Prod.mk.inj (hs.symm.trans (run_alone capacity calls))
  rw [List.mapM_map, ← Packed.performShared_eq] at hwords
  exact ⟨_, members, _, hmembers, hs, rfl, hwords, hholds, hholds.countOnes_eq, hholds.test_iff⟩

end BitSet

end FlatGraph
