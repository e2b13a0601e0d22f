import FlatGraph.Fault

/-! # Partitions of positions into classes

A forest of parent links over the positions below a fixed count; two positions are in one class when
their links lead to the same root. A search for the root halves its path as it goes, and a union
hangs the root of the smaller class under that of the larger one.

* `Partition.find` answers the root of a position, `Partition.union` joins two classes. -/

namespace FlatGraph

/-- The parent links, the number of positions in the class of each root, and the number of
classes. -/
structure Partition where
  parents : Array Nat
  sizes : Array Nat
  classes : Nat

namespace Partition

/-- Every position in a class of its own. -/
def discrete (count : Nat) : Partition where
  parents := Array.ofFn fun i : Fin count => i.val
  sizes := Array.replicate count 1
  classes := count

/-- The number of positions. -/
def size (p : Partition) : Nat := p.parents.size

/-- There are no positions. -/
def isEmpty (p : Partition) : Bool := p.size == 0

/-- Follows the links from `x` for at most `steps` steps, linking every position passed to its
grandparent and going on from there. -/
def findWithin : (steps : Nat) → (parents : Array Nat) → (x : Nat) → Option Nat × Array Nat
  | 0, parents, _ => (none, parents)
  | steps + 1, parents, x =>
    match parents[x]? with
    | none => (none, parents)
    | some parent =>
      if parent = x then (some x, parents)
      else
        match parents[parent]? with
        | none => (none, parents)
        | some grandparent =>
          findWithin steps (parents.setIfInBounds x grandparent) grandparent

/-- The root of the class of `x`, none past the last position. No path has more steps than there
are positions. -/
def find : Partition → (x : Nat) → Option Nat × Partition
  | ⟨parents, sizes, classes⟩, x =>
    match findWithin parents.size parents x with
    | (root, parents) => (root, ⟨parents, sizes, classes⟩)

/-- Hangs the root `small` under the root `big`. -/
def hang : Partition → (small big : Nat) → Partition
  | ⟨parents, sizes, classes⟩, small, big =>
    let joined := sizes.getD big 0 + sizes.getD small 0
    ⟨parents.setIfInBounds small big, sizes.setIfInBounds big joined, classes - 1⟩

/-- Joins the classes of `a` and `b`. Answers whether they were separate. -/
def union (p : Partition) (a b : Nat) : Bool × Partition :=
  match p.find a with
  | (none, p) => (false, (p.find b).2)
  | (some rootA, p) =>
    match p.find b with
    | (none, p) => (false, p)
    | (some rootB, p) =>
      if rootA = rootB then (false, p)
      else if p.sizes.getD rootB 0 ≤ p.sizes.getD rootA 0 then (true, p.hang rootB rootA)
      else (true, p.hang rootA rootB)

end Partition

end FlatGraph
