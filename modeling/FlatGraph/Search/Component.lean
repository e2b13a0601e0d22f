import FlatGraph.Container.FrontierQueue
import FlatGraph.Container.Partition
import FlatGraph.Search.Adjacency

/-! # Counting components

* `weakComponents`: edges join their ends whatever their direction.
* `Adjacency.sweeps`: the first position that no sweep has reached starts a sweep along the edges,
  until all positions are reached. -/

namespace FlatGraph

/-- How components are counted. -/
inductive ComponentMode
  | weak
  | reachability
  deriving DecidableEq

/-- The number of classes into which the edges join the positions below `count`. -/
def weakComponents (count : Nat) (edges : List (Nat × Nat)) : Nat :=
  (edges.foldl (fun p (source, target) => (p.union source target).2)
    (Partition.discrete count)).classes

/-- The state of a sweep: the positions reached by all sweeps, and those still to be expanded. -/
structure SweepState where
  seen : BitSet
  queue : FrontierQueue

namespace SweepState

/-- One edge: its target is reached if it was not reached before. -/
def scan : SweepState → (target : Nat) → Except Fault SweepState
  | ⟨seen, queue⟩, target =>
    match seen.testAndSet target with
    | (false, seen) => .ok ⟨seen, queue⟩
    | (true, seen) => (queue.push target).map fun queue => ⟨seen, queue⟩

/-- The positions still to leave the queue, now or after they are reached. -/
def potential (s : SweepState) : Nat := s.seen.absent + s.queue.length

theorem scan_cases {s t : SweepState} {target : Nat} (h : s.scan target = .ok t) :
    (s.seen.testAndSet target).1 = false ∧ t = ⟨(s.seen.testAndSet target).2, s.queue⟩ ∨
      (s.seen.testAndSet target).1 = true ∧ ∃ queue, s.queue.push target = .ok queue ∧
        t = ⟨(s.seen.testAndSet target).2, queue⟩ := by
  obtain ⟨seen, queue⟩ := s
  unfold scan at h
  cases hm : seen.testAndSet target with
  | mk fresh marked =>
    simp only [hm] at h
    cases fresh with
    | false =>
      cases h
      exact Or.inl ⟨rfl, rfl⟩
    | true =>
      cases hq : queue.push target with
      | error fault => rw [hq] at h; cases h
      | ok pushed =>
        rw [hq] at h
        cases h
        exact Or.inr ⟨rfl, pushed, rfl, rfl⟩

theorem potential_scan {s t : SweepState} {target : Nat} (h : s.scan target = .ok t) :
    t.potential = s.potential := by
  have habsent := s.seen.absent_testAndSet target
  unfold potential
  rcases scan_cases h with ⟨hf, rfl⟩ | ⟨hf, queue, hq, rfl⟩
  · rw [hf] at habsent
    simp only [Bool.false_eq_true, if_false] at habsent ⊢
    omega
  · have hlength := FrontierQueue.length_push hq
    rw [hf] at habsent
    simp only [if_true] at habsent ⊢
    omega

theorem potential_foldlM_scan {s t : SweepState} {targets : List Nat}
    (h : targets.foldlM scan s = .ok t) : t.potential = s.potential :=
  foldlM_invariant (motive := fun _ u => u.potential = s.potential)
    (fun _ _ _ _ hu hv => (potential_scan hv).trans hu) h rfl

/-- Expands the positions of the queue until it is empty. -/
def flood (a : Adjacency) (s : SweepState) : Except Fault SweepState :=
  match hp : s.queue.pop with
  | none => .ok s
  | some (node, queue) =>
    match he : (a.out node).foldlM scan ⟨s.seen, queue⟩ with
    | .error fault => .error fault
    | .ok t =>
      have : t.potential < s.potential := by
        rw [potential_foldlM_scan he]
        have := FrontierQueue.length_pop hp
        simp only [potential]
        omega
      flood a t
termination_by s.potential

/-- The sweep that starts at `root`. -/
def sweep (a : Adjacency) (s : SweepState) (root : Nat) : Except Fault SweepState := do
  let queue ← s.queue.clear.push root
  flood a ⟨s.seen.set root, queue⟩

/-- What every expansion of a position keeps holds at the end of the sweep, when the queue is
empty. -/
theorem flood_invariant {a : Adjacency} {motive : SweepState → Prop}
    (hstep : ∀ s node queue u, motive s → s.queue.pop = some (node, queue) →
      (a.out node).foldlM scan ⟨s.seen, queue⟩ = .ok u → motive u)
    {s t : SweepState} (h : flood a s = .ok t) (hs : motive s) : motive t ∧ t.queue.pop = none := by
  induction hn : s.potential using Nat.strongRecOn generalizing s with
  | ind n ih =>
    unfold flood at h
    split at h
    · next hp =>
      cases h
      exact ⟨hs, hp⟩
    · next node queue hp =>
      split at h
      · cases h
      · next u hu =>
        have hless : u.potential < n := by
          rw [potential_foldlM_scan hu, ← hn]
          have hlength := FrontierQueue.length_pop hp
          simp only [potential]
          omega
        exact ih _ hless h (hstep s node queue u hs hp hu) rfl

theorem bits_scan {s t : SweepState} {target : Nat} (h : s.scan target = .ok t) :
    t.seen.bits = s.seen.bits := by
  rcases scan_cases h with ⟨-, rfl⟩ | ⟨-, queue, -, rfl⟩
  · exact s.seen.bits_testAndSet target
  · exact s.seen.bits_testAndSet target

theorem sweep_eq_ok_iff {a : Adjacency} {s t : SweepState} {root : Nat} :
    sweep a s root = .ok t ↔ ∃ queue, s.queue.clear.push root = .ok queue ∧
      flood a ⟨s.seen.set root, queue⟩ = .ok t := by
  unfold sweep
  cases hq : s.queue.clear.push root with
  | error fault =>
    refine iff_of_false (fun h => by cases h) ?_
    rintro ⟨queue, hqueue, -⟩
    cases hqueue
  | ok queue =>
    constructor
    · exact fun h => ⟨queue, rfl, h⟩
    · rintro ⟨_, heq, h⟩
      cases heq
      exact h

theorem bits_sweep {a : Adjacency} {s t : SweepState} {root : Nat} (h : sweep a s root = .ok t) :
    t.seen.bits = s.seen.bits := by
  obtain ⟨queue, -, hflood⟩ := sweep_eq_ok_iff.mp h
  refine (flood_invariant (motive := fun u => u.seen.bits = s.seen.bits)
    (fun v node queue u hv _ hu => ?_) hflood (s.seen.bits_set root)).1
  exact foldlM_invariant (motive := fun _ u => u.seen.bits = s.seen.bits)
    (fun _ _ _ _ hw hx => (bits_scan hx).trans hw) hu hv

/-- Sweeps from the first position that is not reached, from `start` on, and goes on behind it.
Answers the number of sweeps, of which `made` have been made before. -/
def sweepsFrom (a : Adjacency) (s : SweepState) (start made : Nat) : Except Fault Nat :=
  match hn : s.seen.nextClear start with
  | none => .ok made
  | some root =>
    match hs : sweep a s root with
    | .error fault => .error fault
    | .ok t =>
      have : t.seen.bits - (root + 1) < s.seen.bits - start := by
        obtain ⟨hle, hlt, -⟩ := BitSet.nextClear_eq_some_iff.mp hn
        rw [bits_sweep hs]
        omega
      sweepsFrom a t (root + 1) (made + 1)
termination_by s.seen.bits - start

end SweepState

/-- The number of sweeps that reach all positions. -/
def Adjacency.sweeps (a : Adjacency) : Except Fault Nat :=
  SweepState.sweepsFrom a ⟨BitSet.empty a.count, FrontierQueue.withCapacity a.count⟩ 0 0

end FlatGraph
