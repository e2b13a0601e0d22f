import FlatGraph.Container.BitSet

/-! # Graphs to be searched

A search sees a graph as a number of positions and, for each position, the targets of its edges in
order. What a search reports besides its answer is the work it did. -/

namespace FlatGraph

/-- The positions below `count`, each with the targets of its edges in order. -/
structure Adjacency where
  count : Nat
  out : Nat → List Nat

namespace Adjacency

/-- A position outside the graph is a fault. -/
def check (a : Adjacency) (position : Nat) : Except Fault Unit :=
  if position < a.count then .ok () else .error (.outOfRange .node position a.count)

/-- The number of edges out of some positions. -/
def edgesOut (a : Adjacency) (positions : List Nat) : Nat :=
  total (fun v => (a.out v).length) positions

theorem edgesOut_cons (a : Adjacency) (v : Nat) (rest : List Nat) :
    a.edgesOut (v :: rest) = (a.out v).length + a.edgesOut rest := rfl

theorem edgesOut_append (a : Adjacency) (xs ys : List Nat) :
    a.edgesOut (xs ++ ys) = a.edgesOut xs + a.edgesOut ys := total_append _ xs ys

theorem edgesOut_perm (a : Adjacency) {xs ys : List Nat} (h : xs.Perm ys) :
    a.edgesOut xs = a.edgesOut ys := total_perm _ h

/-- Every target of an edge is a position of the graph. -/
def Closed (a : Adjacency) : Prop := ∀ v < a.count, ∀ w ∈ a.out v, w < a.count

end Adjacency

/-- The work of a search: nodes expanded, edges read, and levels expanded or, for a depth-first
search, the deepest stack. -/
structure Metrics where
  nodes : Nat := 0
  edges : Nat := 0
  levels : Nat := 0
  deriving DecidableEq

end FlatGraph
