import FlatGraph.Bytes.Word
import FlatGraph.Container.BitSet
import FlatGraph.Container.Partition
import FlatGraph.Number.Binary64

/-! # Statistics of a graph

Counts over all nodes and edges of a graph, and the block of 40 bytes that keeps them in a file.

* `Statistics.compute` counts in one pass over the edges, given as pairs of positions.
* `Statistics.agrees` compares two statistics, the means as numbers. -/

namespace FlatGraph

open Bytes

/-- The counts, and the bits of the mean out-degree. -/
structure Statistics where
  nodes : Nat
  edges : Nat
  minOutDegree : Nat
  maxOutDegree : Nat
  meanOutDegree : UInt64
  weakComponents : Nat
  isolatedNodes : Nat
  selfLoops : Nat
  deriving DecidableEq

/-- The last four bytes of the block are reserved: written as zero and skipped on reading. -/
instance : Record Statistics where
  width := 40
  bytes s := wordBytes 4 s.nodes ++ wordBytes 4 s.edges ++ wordBytes 4 s.minOutDegree ++
    wordBytes 4 s.maxOutDegree ++ wordBytes 8 s.meanOutDegree.toNat ++
    wordBytes 4 s.weakComponents ++ wordBytes 4 s.isolatedNodes ++ wordBytes 4 s.selfLoops ++
    wordBytes 4 0
  readAt b i :=
    { nodes := wordAt b i 4
      edges := wordAt b (i + 4) 4
      minOutDegree := wordAt b (i + 8) 4
      maxOutDegree := wordAt b (i + 12) 4
      meanOutDegree := u64At b (i + 16)
      weakComponents := wordAt b (i + 24) 4
      isolatedNodes := wordAt b (i + 28) 4
      selfLoops := wordAt b (i + 32) 4 }

/-! ### Counting -/

/-- The counts after some of the edges. -/
structure Tally where
  outDegrees : Array Nat
  entered : BitSet
  components : Partition
  edges : Nat
  selfLoops : Nat

namespace Tally

/-- The counts before the first edge. -/
def start (count : Nat) : Tally where
  outDegrees := Array.replicate count 0
  entered := BitSet.empty count
  components := Partition.discrete count
  edges := 0
  selfLoops := 0

/-- One step of the count. An edge with an end that is no position below `count` is skipped. -/
def step (count : Nat) : Tally → (edge : Nat × Nat) → Tally
  | ⟨outDegrees, entered, components, edges, selfLoops⟩, (source, target) =>
    if source < count ∧ target < count then
      ⟨outDegrees.modify source (· + 1), entered.set target, (components.union source target).2,
        edges + 1, if source = target then selfLoops + 1 else selfLoops⟩
    else ⟨outDegrees, entered, components, edges, selfLoops⟩

/-- The position has neither an out-edge nor an in-edge. -/
def isIsolated (t : Tally) (position : Nat) : Bool :=
  t.outDegrees.getD position 0 == 0 && !t.entered.test position

end Tally

namespace Statistics

/-- The statistics of `count` nodes joined by the given pairs of source and target. -/
def compute (count : Nat) (edges : List (Nat × Nat)) : Statistics :=
  let t := edges.foldl (Tally.step count) (Tally.start count)
  { nodes := count
    edges := t.edges
    minOutDegree := t.outDegrees.toList.min?.getD 0
    maxOutDegree := t.outDegrees.toList.max?.getD 0
    meanOutDegree := Binary64.quotient t.edges count
    weakComponents := t.components.classes
    isolatedNodes := (List.range count).countP t.isIsolated
    selfLoops := t.selfLoops }

/-- The statistics agree, the means as numbers. -/
def agrees (s t : Statistics) : Bool :=
  { s with meanOutDegree := 0 } == { t with meanOutDegree := 0 } &&
    Binary64.sameNumber s.meanOutDegree t.meanOutDegree

end Statistics

end FlatGraph
