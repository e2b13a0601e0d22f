import FlatGraph.Proofs.Container.BitSet
import FlatGraph.Proofs.Search.Queue
import FlatGraph.Proofs.Statistics.Counts

/-! # A sweep never fails

A sweep queues a position when it reaches it, and there is room in the queue for all positions that
no sweep has reached. So every sweep ends.

* `SweepState.Roomy`: there is room, with `SweepState.Roomy.sweep` for a sweep.
* `SweepState.sweepsFrom_of_some`: a sweep that ends is followed by those behind its root. -/

namespace FlatGraph

namespace SweepState

/-- There is room in the queue for all positions below `count` that are not yet reached. -/
structure Roomy (count : Nat) (s : SweepState) : Prop where
  bits : s.seen.bits = count
  room : s.potential ≤ s.queue.capacity

variable {a : Adjacency} {count : Nat} {s : SweepState}

theorem Roomy.scan (h : Roomy count s) (target : Nat) :
    ∃ t, s.scan target = .ok t ∧ Roomy count t := by
  obtain ⟨seen, queue⟩ := s
  have habsent := seen.absent_testAndSet target
  have hroom : seen.absent + queue.length ≤ queue.capacity := h.room
  have hbits : (seen.testAndSet target).2.bits = count :=
    (BitSet.bits_testAndSet seen target).trans h.bits
  cases hm : seen.testAndSet target with
  | mk fresh marked =>
    rw [hm] at habsent hbits
    have hscan : scan ⟨seen, queue⟩ target =
        if fresh then (queue.push target).map fun queue => ⟨marked, queue⟩
        else .ok ⟨marked, queue⟩ := by
      simp only [SweepState.scan, hm]
      cases fresh <;> rfl
    cases fresh with
    | false =>
      rw [if_neg Bool.false_ne_true] at habsent hscan
      refine ⟨_, hscan, hbits, ?_⟩
      show marked.absent + queue.length ≤ queue.capacity
      have habsent : marked.absent + 0 = seen.absent := habsent
      omega
    | true =>
      rw [if_pos rfl] at habsent hscan
      have habsent : marked.absent + 1 = seen.absent := habsent
      obtain ⟨pushed, hpush⟩ := FrontierQueue.exists_push (q := queue) target (by omega)
      have hlength := FrontierQueue.length_push hpush
      rw [hpush] at hscan
      refine ⟨_, hscan, hbits, ?_⟩
      show marked.absent + pushed.length ≤ pushed.capacity
      rw [FrontierQueue.capacity_push hpush]
      omega

theorem Roomy.foldlM_scan (h : Roomy count s) (targets : List Nat) :
    ∃ t, targets.foldlM SweepState.scan s = .ok t ∧ Roomy count t := by
  induction targets generalizing s with
  | nil => exact ⟨s, rfl, h⟩
  | cons target rest ih =>
    obtain ⟨u, hu, hroomy⟩ := h.scan target
    obtain ⟨t, ht, hroomy⟩ := ih hroomy
    refine ⟨t, ?_, hroomy⟩
    rw [List.foldlM_cons, hu]
    exact ht

/-- **A sweep ends** when its queue is empty. -/
theorem Roomy.flood (h : Roomy count s) (a : Adjacency) :
    ∃ t, flood a s = .ok t ∧ Roomy count t := by
  -- on the positions still to leave the queue
  induction hn : s.potential using Nat.strong_induction_on generalizing s with
  | h n ih =>
    unfold SweepState.flood
    split
    · exact ⟨s, rfl, h⟩
    · next node queue hp =>
      have hlength := FrontierQueue.length_pop hp
      have hroom : s.seen.absent + s.queue.length ≤ s.queue.capacity := h.room
      have hpop : Roomy count ⟨s.seen, queue⟩ := by
        refine ⟨h.bits, ?_⟩
        show s.seen.absent + queue.length ≤ queue.capacity
        rw [FrontierQueue.capacity_pop hp]
        omega
      obtain ⟨u, hu, hroomy⟩ := hpop.foldlM_scan (a.out node)
      have hless : u.potential < n := by
        rw [potential_foldlM_scan hu, ← hn]
        show s.seen.absent + queue.length < s.seen.absent + s.queue.length
        omega
      split
      · next he => rw [hu] at he; cases he
      · next he =>
        rw [hu] at he
        cases he
        exact ih _ hless hroomy rfl

theorem Roomy.sweep (h : Roomy count s) (a : Adjacency) {root : Nat} (hroot : root < count)
    (hnew : s.seen.test root = false) : ∃ t, sweep a s root = .ok t ∧ Roomy count t := by
  have hbits : root < s.seen.bits := by rw [h.bits]; exact hroot
  have habsent := s.seen.absent_testAndSet root
  have hset := BitSet.testAndSet_of_not_test hbits hnew
  rw [hset, if_pos rfl] at habsent
  have habsent : (s.seen.set root).absent + 1 = s.seen.absent := habsent
  have hroom : s.seen.absent + s.queue.length ≤ s.queue.capacity := h.room
  have hclear : s.queue.clear.length = 0 := rfl
  have hcapacity : s.queue.clear.capacity = s.queue.capacity := rfl
  obtain ⟨queue, hpush⟩ := FrontierQueue.exists_push (q := s.queue.clear) root (by omega)
  have hstart : Roomy count ⟨s.seen.set root, queue⟩ := by
    have hlength := FrontierQueue.length_push hpush
    refine ⟨(BitSet.bits_set _ _).trans h.bits, ?_⟩
    show (s.seen.set root).absent + queue.length ≤ queue.capacity
    rw [FrontierQueue.capacity_push hpush]
    omega
  obtain ⟨t, ht, hroomy⟩ := hstart.flood a
  exact ⟨t, sweep_eq_ok_iff.mpr ⟨queue, hpush, ht⟩, hroomy⟩

theorem sweepsFrom_of_none {start made : Nat} (hn : s.seen.nextClear start = none) :
    sweepsFrom a s start made = .ok made := by
  unfold sweepsFrom
  split
  · rfl
  · next hsome =>
    rw [hn] at hsome
    cases hsome

theorem sweepsFrom_of_some {start made root : Nat} {t : SweepState}
    (hr : s.seen.nextClear start = some root) (ht : sweep a s root = .ok t) :
    sweepsFrom a s start made = sweepsFrom a t (root + 1) (made + 1) := by
  conv_lhs => unfold sweepsFrom
  split
  · next hnone =>
    rw [hr] at hnone
    cases hnone
  · next hsome =>
    rw [hr] at hsome
    cases hsome
    split
    · next he =>
      rw [ht] at he
      cases he
    · next he =>
      rw [ht] at he
      cases he
      rfl

theorem Roomy.initial (count : Nat) :
    Roomy count ⟨BitSet.empty count, FrontierQueue.withCapacity count⟩ := by
  refine ⟨rfl, ?_⟩
  have hle := List.countP_le_length (l := List.range count)
    (p := fun i => !(BitSet.empty count).test i)
  rw [List.length_range] at hle
  show (BitSet.empty count).absent + 0 ≤ (Array.replicate count 0).size
  rw [Array.size_replicate]
  exact hle

end SweepState

end FlatGraph
