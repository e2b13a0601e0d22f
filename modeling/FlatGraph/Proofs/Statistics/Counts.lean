import Mathlib.Algebra.Order.Ring.Nat
import FlatGraph.Format.Flags
import FlatGraph.Proofs.Format.Record
import FlatGraph.Proofs.Number.Binary64
import FlatGraph.Proofs.Statistics.Components
import FlatGraph.Search.Component

/-! # What the statistics count

The statistics are counted in one pass over the edges. If every end of an edge is a position, no
edge is skipped: after some of the edges the count holds the number of them, the number of them out
of each position, and the classes into which they join the positions.

* `Tally.After`: the count after some edges, with `Tally.After.start`, `Tally.After.step` and, by
  induction on the edges that are left, `Tally.After.foldl`.
* `Statistics.outDegrees_compute`, `Statistics.weakComponents_compute`: what is counted in the end.
* `Statistics.inRange_compute`: no count needs more than 32 bits. -/

namespace FlatGraph

/-- The number of edges out of a position. -/
def outCount (edges : List (Nat × Nat)) (position : Nat) : Nat :=
  edges.countP fun e => e.1 = position

theorem outCount_le (edges : List (Nat × Nat)) (p : Nat) : outCount edges p ≤ edges.length :=
  List.countP_le_length

/-- Both ends of every edge are positions below `count`. -/
def Inside (count : Nat) (edges : List (Nat × Nat)) : Prop :=
  ∀ e ∈ edges, e.1 < count ∧ e.2 < count

/-! ### The count after some edges -/

namespace Tally

theorem step_of_lt {count : Nat} (t : Tally) {e : Nat × Nat} (he : e.1 < count ∧ e.2 < count) :
    t.step count e = ⟨t.outDegrees.modify e.1 (· + 1), t.entered.set e.2,
      (t.components.union e.1 e.2).2, t.edges + 1,
      if e.1 = e.2 then t.selfLoops + 1 else t.selfLoops⟩ := if_pos he

/-- **The count after some edges**, of which none was skipped. -/
structure After (count : Nat) (passed : List (Nat × Nat)) (t : Tally) : Prop where
  size : t.outDegrees.size = count
  outDegrees : ∀ p (hp : p < t.outDegrees.size), t.outDegrees[p] = outCount passed p
  components : t.components = (Partition.discrete count).joinAll passed
  edges : t.edges = passed.length
  selfLoops : t.selfLoops = passed.countP fun e => e.1 = e.2

theorem After.start (count : Nat) : After count [] (start count) where
  size := Array.size_replicate
  outDegrees _ _ := Array.getElem_replicate _
  components := rfl
  edges := rfl
  selfLoops := rfl

theorem After.step {count : Nat} {passed : List (Nat × Nat)} {t : Tally} (h : After count passed t)
    {e : Nat × Nat} (he : e.1 < count ∧ e.2 < count) :
    After count (passed ++ [e]) (t.step count e) := by
  rw [step_of_lt t he]
  constructor
  case size => rw [Array.size_modify, h.size]
  case outDegrees =>
    intro p hp
    rw [Array.size_modify] at hp
    rw [Array.getElem_modify, h.outDegrees p hp, outCount, outCount, List.countP_append]
    by_cases hs : e.1 = p <;> simp [hs]
  case components =>
    rw [h.components, Partition.joinAll, Partition.joinAll, List.foldl_append]
    rfl
  case edges => rw [h.edges, List.length_append, List.length_singleton]
  case selfLoops =>
    rw [h.selfLoops, List.countP_append]
    by_cases hs : e.1 = e.2 <;> simp [hs]

/-- **The whole pass** over edges inside counts them all. -/
theorem After.foldl {count : Nat} {passed : List (Nat × Nat)} {t : Tally} (h : After count passed t)
    {edges : List (Nat × Nat)} (hin : Inside count edges) :
    After count (passed ++ edges) (edges.foldl (Tally.step count) t) := by
  induction edges generalizing passed t with
  | nil => rwa [List.append_nil]
  | cons e rest ih =>
    have hnext := h.step (hin e List.mem_cons_self)
    have hrest := ih hnext fun f hf => hin f (List.mem_cons_of_mem e hf)
    rwa [List.append_assoc] at hrest

end Tally

/-! ### The statistics -/

theorem weakComponents_eq (count : Nat) (edges : List (Nat × Nat)) :
    weakComponents count edges = ((Partition.discrete count).joinAll edges).classes := rfl

theorem min?_getD_le {xs : List Nat} {bound : Nat} (h : ∀ x ∈ xs, x ≤ bound) :
    xs.min?.getD 0 ≤ bound := by
  cases hm : xs.min? with
  | none => exact Nat.zero_le bound
  | some x => exact h x (List.min?_mem hm)

theorem max?_getD_le {xs : List Nat} {bound : Nat} (h : ∀ x ∈ xs, x ≤ bound) :
    xs.max?.getD 0 ≤ bound := by
  cases hm : xs.max? with
  | none => exact Nat.zero_le bound
  | some x => exact h x (List.max?_mem hm)

namespace Statistics

variable {count : Nat} {edges : List (Nat × Nat)}

section

variable (hin : Inside count edges)
include hin

theorem after_foldl : Tally.After count edges (edges.foldl (Tally.step count) (Tally.start count)) :=
  (Tally.After.start count).foldl hin

theorem edges_compute : (compute count edges).edges = edges.length := (after_foldl hin).edges

theorem toList_outDegrees :
    (edges.foldl (Tally.step count) (Tally.start count)).outDegrees.toList =
      (List.range count).map (outCount edges) := by
  have h := after_foldl hin
  refine List.ext_getElem (by simpa using h.size) fun p hp hp' => ?_
  rw [Array.getElem_toList, List.getElem_map, List.getElem_range]
  exact h.outDegrees p hp

/-- **The least and the greatest out-degree** are those among the numbers of edges out of the
positions. -/
theorem outDegrees_compute :
    (compute count edges).minOutDegree = ((List.range count).map (outCount edges)).min?.getD 0 ∧
      (compute count edges).maxOutDegree =
        ((List.range count).map (outCount edges)).max?.getD 0 := by
  rw [← toList_outDegrees hin]
  exact ⟨rfl, rfl⟩

/-- **The components** are counted as by joining the ends of all edges. -/
theorem weakComponents_compute :
    (compute count edges).weakComponents = FlatGraph.weakComponents count edges := by
  rw [weakComponents_eq, ← (after_foldl hin).components]
  rfl

theorem isNaN_meanOutDegree (he : edges.length ≤ maxElements) :
    Binary64.isNaN (compute count edges).meanOutDegree = false := by
  have hmean : (compute count edges).meanOutDegree =
      Binary64.quotient (compute count edges).edges count := rfl
  rw [hmean, edges_compute hin]
  exact Binary64.isNaN_quotient (Nat.lt_of_le_of_lt he (by decide)) count

/-- **Every count** is that of some nodes or some edges, so none needs more than 32 bits. -/
theorem inRange_compute (hc : count < 256 ^ 4) (he : edges.length < 256 ^ 4) :
    (compute count edges).InRange := by
  have hdegree : ∀ d ∈ (List.range count).map (outCount edges), d ≤ edges.length := by
    intro d hd
    obtain ⟨p, -, rfl⟩ := List.mem_map.mp hd
    exact outCount_le edges p
  obtain ⟨hmin, hmax⟩ := outDegrees_compute hin
  constructor
  case nodes => exact hc
  case edges =>
    rw [edges_compute hin]
    exact he
  case minOutDegree =>
    rw [hmin]
    exact (min?_getD_le hdegree).trans_lt he
  case maxOutDegree =>
    rw [hmax]
    exact (max?_getD_le hdegree).trans_lt he
  case weakComponents =>
    rw [weakComponents_compute hin, weakComponents_eq]
    exact (Partition.classes_joinAll_le count edges).trans_lt hc
  case isolatedNodes =>
    refine Nat.lt_of_le_of_lt ?_ hc
    exact List.countP_le_length.trans_eq List.length_range
  case selfLoops =>
    refine Nat.lt_of_le_of_lt (Nat.le_of_eq (after_foldl hin).selfLoops) ?_
    exact List.countP_le_length.trans_lt he

end

theorem agrees_self {s : Statistics} (h : Binary64.isNaN s.meanOutDegree = false) :
    s.agrees s = true := by
  unfold agrees
  rw [beq_self_eq_true, Binary64.sameNumber_self h]
  rfl

end Statistics

end FlatGraph
