import FlatGraph.Fault
import FlatGraph.Format.Record

/-! # Finding a node by its identifier

In a dense graph every identifier is its own position. In a sparse one the identifiers are found by
binary search among entries in ascending order. -/

namespace FlatGraph

/-- Binary search for `id` among `size` entries from number `base` on. The search keeps the half
that holds the last entry whose identifier is not past `id`. -/
def searchEntries (entries : Array IdEntry) (id : UInt64) (base size : Nat) : Option IdEntry :=
  if 1 < size then
    let middle := base + size / 2
    match entries[middle]? with
    | none => none
    | some entry =>
      if id < entry.id then searchEntries entries id base (size - size / 2)
      else searchEntries entries id middle (size - size / 2)
  else entries[base]?.filter fun entry => entry.id = id
termination_by size

/-- How the position of an identifier is found. -/
inductive IdIndex
  | dense (count : Nat)
  | sparse (entries : Array IdEntry)

namespace IdIndex

/-- The position of the node with identifier `id`, if there is one. -/
def find? : IdIndex → UInt64 → Option Nat
  | dense count, id => if id.toNat < count then some id.toNat else none
  | sparse entries, id =>
    (searchEntries entries id 0 entries.size).map fun entry => entry.position.toNat

/-- The number of identifiers. -/
def size : IdIndex → Nat
  | dense count => count
  | sparse entries => entries.size

/-- The position of the node with identifier `id`, or a fault that names it. -/
def positionOf (index : IdIndex) (id : UInt64) : Except Fault Nat :=
  match index.find? id with
  | some position => .ok position
  | none => .error (.outOfRange .nodeId id.toNat index.size)

end IdIndex

end FlatGraph
