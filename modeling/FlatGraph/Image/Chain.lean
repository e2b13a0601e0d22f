import FlatGraph.Format.Record
import FlatGraph.Number.Total

/-! # Chains of edges

The out-edges of a node are found by following links through the edge table. Links only lead
forwards: a walk ends at the sentinel, past the table, and behind an edge whose link does not lead
forwards. So every walk ends, whatever the table holds. -/

namespace FlatGraph

/-- The numbers of the edges on the walk that starts at edge `cursor`. -/
def chain (edges : Array EdgeRecord) (cursor : Nat) : List Nat :=
  if cursor = noEdge.toNat then []
  else if h : cursor < edges.size then
    let next := edges[cursor].next.toNat
    cursor :: (if cursor < next then chain edges next else [])
  else []
termination_by edges.size - cursor

/-- The number of edges on the walks of all nodes. -/
def chainedEdges (nodes : Array NodeRecord) (edges : Array EdgeRecord) : Nat :=
  total (fun n => (chain edges n.first.toNat).length) nodes.toList

/-- The edges on the walk that starts at edge `cursor`. -/
def chainEdges (edges : Array EdgeRecord) (cursor : Nat) : List EdgeRecord :=
  (chain edges cursor).filterMap fun i => edges[i]?

theorem chain_ge {edges : Array EdgeRecord} {cursor i : Nat} (h : i ∈ chain edges cursor) :
    cursor ≤ i := by
  fun_induction chain edges cursor with
  | case1 => simp at h
  | case2 cursor _ _ next ih =>
    rw [List.mem_cons] at h
    rcases h with rfl | h
    · exact Nat.le_refl _
    · split at h
      · next hn => have := ih hn h; omega
      · simp at h
  | case3 => simp at h

theorem chain_lt {edges : Array EdgeRecord} {cursor i : Nat} (h : i ∈ chain edges cursor) :
    i < edges.size := by
  fun_induction chain edges cursor with
  | case1 => simp at h
  | case2 cursor _ hc next ih =>
    rw [List.mem_cons] at h
    rcases h with rfl | h
    · exact hc
    · split at h
      · next hn => exact ih hn h
      · simp at h
  | case3 => simp at h

theorem pairwise_chain (edges : Array EdgeRecord) (cursor : Nat) :
    (chain edges cursor).Pairwise (· < ·) := by
  fun_induction chain edges cursor with
  | case1 => exact List.Pairwise.nil
  | case2 cursor _ _ next ih =>
    rw [List.pairwise_cons]
    split
    · next hn => exact ⟨fun i hi => Nat.lt_of_lt_of_le hn (chain_ge hi), ih hn⟩
    · simp
  | case3 => exact List.Pairwise.nil

end FlatGraph
