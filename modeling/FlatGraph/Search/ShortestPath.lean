import FlatGraph.Container.FrontierQueue
import FlatGraph.Search.Adjacency

/-! # Shortest paths

A breadth-first search that keeps, for every position discovered, the position it was discovered
from. It stops as soon as the goal is discovered, and the path is read off backwards.

* `Adjacency.shortestPath` answers a path with the fewest edges, or none if the goal is not reached.
-/

namespace FlatGraph

/-- A path as the positions on it, from its source to its target. -/
structure Path where
  nodes : List Nat
  deriving DecidableEq

namespace Path

/-- The number of edges on the path. -/
def distance (p : Path) : Nat := p.nodes.length - 1

/-- The first position. -/
def source? (p : Path) : Option Nat := p.nodes.head?

/-- The last position. -/
def target? (p : Path) : Option Nat := p.nodes.getLast?

end Path

/-- The state of a search for a path: where each discovered position was discovered from, and the
positions still to be expanded. -/
structure PathState where
  parents : Array (Option Nat)
  queue : FrontierQueue

namespace PathState

/-- Tries the targets of the edges of `node`. Answers whether the goal was discovered, in which case
the other targets are not tried. -/
def expand (node goal : Nat) : (targets : List Nat) → PathState →
    Except Fault (Bool × PathState)
  | [], s => .ok (false, s)
  | target :: rest, ⟨parents, queue⟩ =>
    match parents[target]? with
    | some none =>
      let parents := parents.setIfInBounds target (some node)
      if target = goal then .ok (true, ⟨parents, queue⟩)
      else
        match queue.push target with
        | .error fault => .error fault
        | .ok queue => expand node goal rest ⟨parents, queue⟩
    | _ => expand node goal rest ⟨parents, queue⟩

/-! ### Termination -/

/-- The positions still to leave the queue, now or after their discovery. -/
def potential (s : PathState) : Nat := s.parents.countP Option.isNone + s.queue.length

theorem countP_setIfInBounds {parents : Array (Option Nat)} {target : Nat} (node : Nat)
    (h : parents[target]? = some none) :
    (parents.setIfInBounds target (some node)).countP Option.isNone + 1 =
      parents.countP Option.isNone := by
  obtain ⟨hlt, hnone⟩ := Array.getElem?_eq_some_iff.mp h
  have hpos : 0 < parents.countP Option.isNone :=
    Array.countP_pos_iff.mpr ⟨none, Array.mem_of_getElem hnone, rfl⟩
  rw [Array.setIfInBounds_def, dif_pos hlt, Array.countP_set hlt, hnone]
  simp only [Option.isNone_none, if_true, Option.isNone_some, Bool.false_eq_true, if_false]
  omega

theorem potential_expand {node goal : Nat} {targets : List Nat} {s t : PathState}
    (h : expand node goal targets s = .ok (false, t)) : t.potential = s.potential := by
  induction targets generalizing s with
  | nil => cases h; rfl
  | cons target rest ih =>
    obtain ⟨parents, queue⟩ := s
    unfold expand at h
    split at h
    · next hp =>
      simp only at h
      split at h
      · cases h
      · split at h
        · cases h
        · next pushed hq =>
          rw [ih h]
          have hc := countP_setIfInBounds node hp
          have hl := FrontierQueue.length_push hq
          simp only [potential]
          omega
    · exact ih h

/-! ### The search -/

/-- Expands the positions of the queue until the goal is discovered or the queue is empty. -/
def run (a : Adjacency) (goal : Nat) (s : PathState) : Except Fault PathState :=
  match hp : s.queue.pop with
  | none => .ok s
  | some (node, queue) =>
    match he : expand node goal (a.out node) ⟨s.parents, queue⟩ with
    | .error fault => .error fault
    | .ok (true, t) => .ok t
    | .ok (false, t) =>
      have : t.potential < s.potential := by
        rw [potential_expand he]
        have := FrontierQueue.length_pop hp
        simp only [potential]
        omega
      run a goal t
termination_by s.potential

/-- The state before the first step: the source counts as discovered from itself. -/
def start (count source : Nat) : Except Fault PathState := do
  let queue ← (FrontierQueue.withCapacity count).push source
  return ⟨(Array.replicate count none).setIfInBounds source (some source), queue⟩

/-- The way from the source to `cursor`, followed by `behind`; none if the links do not lead back to
the source within the given number of steps. -/
def trace (parents : Array (Option Nat)) (source : Nat) : (steps cursor : Nat) →
    (behind : List Nat) → Option (List Nat)
  | 0, cursor, behind => if cursor = source then some (cursor :: behind) else none
  | steps + 1, cursor, behind =>
    if cursor = source then some (cursor :: behind)
    else
      match parents[cursor]? with
      | some (some parent) => trace parents source steps parent (cursor :: behind)
      | _ => none

end PathState

/-- **A path with the fewest edges** from the source to the goal, none if there is no path. -/
def Adjacency.shortestPath (a : Adjacency) (source goal : Nat) : Except Fault (Option Path) := do
  a.check source
  a.check goal
  if source = goal then return some ⟨[source]⟩
  else
    let s ← PathState.start a.count source
    let t ← PathState.run a goal s
    return (PathState.trace t.parents source a.count goal []).map Path.mk

end FlatGraph
