import FlatGraph.Container.FrontierQueue
import FlatGraph.Format.Flags
import FlatGraph.Search.Adjacency

/-! # Breadth-first search

Positions are marked when they are discovered and leave the queue in the order of their discovery.
The queue holds all that is left of one level, then all that was found of the next; two counters
tell where a level ends.

* `Adjacency.breadthFirst` answers the positions reached, their distances and the work done.
* `BreadthState.potential_expand`: a discovery moves a position from the absent ones to the queue,
  so a search ends after at most as many steps as there are positions. -/

namespace FlatGraph

/-- Distances are recorded on request. -/
def defaultRecordDistances : Bool := false

/-- What a breadth-first search finds. -/
structure Reach where
  reached : Nat
  seen : BitSet
  distances : Option (Array Nat)
  metrics : Metrics

/-- The distance of a position, none if it was not reached or no distances were recorded. -/
def Reach.distance? (r : Reach) (position : Nat) : Option Nat :=
  (r.distances.bind fun d => d[position]?).filter (· ≠ unreached)

/-- The state of a breadth-first search. `remaining` positions of the level at distance `level` are
still queued, in front of `discovered` positions of the next one. -/
structure BreadthState where
  seen : BitSet
  queue : FrontierQueue
  distances : Option (Array Nat)
  level : Nat
  remaining : Nat
  discovered : Nat
  metrics : Metrics

namespace BreadthState

/-- One edge: its target is discovered if it was not seen before. -/
def scan : BreadthState → (target : Nat) → Except Fault BreadthState
  | ⟨seen, queue, distances, level, remaining, discovered, metrics⟩, target =>
    let metrics := { metrics with edges := metrics.edges + 1 }
    match seen.testAndSet target with
    | (false, seen) => .ok ⟨seen, queue, distances, level, remaining, discovered, metrics⟩
    | (true, seen) =>
      match queue.push target with
      | .error fault => .error fault
      | .ok queue =>
        .ok ⟨seen, queue, distances.map fun d => d.setIfInBounds target (level + 1), level,
          remaining, discovered + 1, metrics⟩

/-- All edges of a position, in order. -/
def expand (s : BreadthState) (targets : List Nat) : Except Fault BreadthState :=
  targets.foldlM scan s

/-- The state after the edges of a position: the level ends if it was the last of its level. -/
def settle (s : BreadthState) : BreadthState :=
  if s.remaining - 1 = 0 then
    { s with
      level := s.level + 1
      remaining := s.discovered
      discovered := 0
      metrics := { s.metrics with levels := s.metrics.levels + 1 } }
  else { s with remaining := s.remaining - 1 }

/-- The state without the position at the front of the queue, which is to be expanded. -/
def leave (s : BreadthState) (queue : FrontierQueue) : BreadthState :=
  { s with queue := queue, metrics := { s.metrics with nodes := s.metrics.nodes + 1 } }

/-! ### Termination -/

/-- The positions still to leave the queue, now or after their discovery. -/
def potential (s : BreadthState) : Nat := s.seen.absent + s.queue.length

theorem potential_scan {s t : BreadthState} {target : Nat} (h : s.scan target = .ok t) :
    t.potential = s.potential := by
  obtain ⟨seen, queue, distances, level, remaining, discovered, metrics⟩ := s
  have ha := seen.absent_testAndSet target
  unfold scan at h
  cases hm : seen.testAndSet target with
  | mk fresh marked =>
    rw [hm] at ha
    simp only [hm] at h
    cases fresh with
    | false =>
      cases h
      simp only [potential] at ha ⊢
      simp at ha; omega
    | true =>
      simp only at h
      cases hq : queue.push target with
      | error fault => rw [hq] at h; cases h
      | ok queue =>
        have hl := FrontierQueue.length_push hq
        rw [hq] at h
        cases h
        simp only [potential, if_true] at ha ⊢
        omega

theorem potential_expand {s t : BreadthState} {targets : List Nat}
    (h : s.expand targets = .ok t) : t.potential = s.potential :=
  foldlM_invariant (motive := fun _ u => u.potential = s.potential)
    (fun _ _ _ _ hu hv => (potential_scan hv).trans hu) h rfl

theorem potential_settle (s : BreadthState) : s.settle.potential = s.potential := by
  unfold settle; split <;> rfl

theorem potential_leave {s : BreadthState} {node : Nat} {queue : FrontierQueue}
    (h : s.queue.pop = some (node, queue)) : (s.leave queue).potential < s.potential := by
  have := FrontierQueue.length_pop h
  simp only [potential, leave]
  omega

/-! ### The search -/

/-- Expands the positions of the queue until it is empty. -/
def run (a : Adjacency) (s : BreadthState) : Except Fault BreadthState :=
  match hp : s.queue.pop with
  | none => .ok s
  | some (node, queue) =>
    match he : (s.leave queue).expand (a.out node) with
    | .error fault => .error fault
    | .ok t =>
      have : t.settle.potential < s.potential := by
        rw [potential_settle, potential_expand he]
        exact potential_leave hp
      run a t.settle
termination_by s.potential

/-- The state before the first step: the start is seen, queued and at distance zero. -/
def start (count position : Nat) (recordDistances : Bool) : Except Fault BreadthState := do
  let queue ← (FrontierQueue.withCapacity count).push position
  return {
    seen := (BitSet.empty count).set position
    queue
    distances := if recordDistances then
      some ((Array.replicate count unreached).setIfInBounds position 0) else none
    level := 0
    remaining := 1
    discovered := 0
    metrics := {} }

end BreadthState

/-- **Breadth-first search** from a position along the edges. -/
def Adjacency.breadthFirst (a : Adjacency) (position : Nat) (recordDistances : Bool) :
    Except Fault Reach := do
  a.check position
  let s ← BreadthState.start a.count position recordDistances
  let t ← BreadthState.run a s
  return {
    reached := t.seen.countOnes
    seen := t.seen
    distances := t.distances
    metrics := t.metrics }

end FlatGraph
