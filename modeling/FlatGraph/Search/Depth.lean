import FlatGraph.Search.Adjacency

/-! # Depth-first search

A stack of frames, one for each position on the way from the start to the current one; a frame holds
the targets that its position has not yet tried. A position is marked when it is first met, and the
order is that of the first meetings.

* `Adjacency.depthFirst` answers the order, or a fault if the stack would grow past its limit. -/

namespace FlatGraph

/-- What a depth-first search finds. -/
structure DepthResult where
  order : Array Nat
  seen : BitSet
  metrics : Metrics

/-- The default limit of the stack. -/
def defaultMaxDepth : Nat := 1000000

/-- The state of a depth-first search, with the number of frames in `depth`. -/
structure DepthState where
  seen : BitSet
  order : Array Nat
  stack : List (List Nat)
  depth : Nat
  edges : Nat
  deepest : Nat

namespace DepthState

/-- What is left to do on the stack: each frame is left once, each of its targets is tried once. -/
def work (stack : List (List Nat)) : Nat := total (fun frame => frame.length + 1) stack

/-- Tries the targets of the frames until the stack is empty. -/
def run (a : Adjacency) (limit : Nat) : DepthState → Except Fault DepthState
  | ⟨seen, order, [], depth, edges, deepest⟩ => .ok ⟨seen, order, [], depth, edges, deepest⟩
  | ⟨seen, order, [] :: below, depth, edges, deepest⟩ =>
    run a limit ⟨seen, order, below, depth - 1, edges, deepest⟩
  | ⟨seen, order, (target :: rest) :: below, depth, edges, deepest⟩ =>
    match h : seen.testAndSet target with
    | (false, marked) =>
      have : marked.absent = seen.absent := by
        have := seen.absent_testAndSet target
        rw [h] at this; simpa using this
      run a limit ⟨marked, order, rest :: below, depth, edges + 1, deepest⟩
    | (true, marked) =>
      have : marked.absent < seen.absent := by
        have := seen.absent_testAndSet target
        rw [h] at this; simp only [if_true] at this; omega
      if limit ≤ depth then .error (.depthExceeded limit)
      else
        run a limit ⟨marked, order.push target, a.out target :: rest :: below, depth + 1,
          edges + 1, max deepest (depth + 1)⟩
termination_by s => (s.seen.absent, work s.stack)
decreasing_by
  · exact Prod.Lex.right _ (by simp [work])
  · rw [this]; exact Prod.Lex.right _ (by simp [work])
  · exact Prod.Lex.left _ _ this

/-- The state before the first step: the start is met and its frame is on the stack. -/
def start (a : Adjacency) (position : Nat) : DepthState where
  seen := (BitSet.empty a.count).set position
  order := #[position]
  stack := [a.out position]
  depth := 1
  edges := 0
  deepest := 1

end DepthState

/-- **Depth-first search** from a position along the edges, with at most `limit` frames. -/
def Adjacency.depthFirst (a : Adjacency) (position limit : Nat) : Except Fault DepthResult := do
  a.check position
  if limit = 0 then .error (.invalidArgument .noDepth)
  else do
    let s ← DepthState.run a limit (DepthState.start a position)
    return {
      order := s.order
      seen := s.seen
      metrics := { nodes := s.order.size, edges := s.edges, levels := s.deepest } }

end FlatGraph
