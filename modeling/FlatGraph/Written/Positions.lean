import Std.Data.HashMap
import FlatGraph.Fault
import FlatGraph.Graph

/-! # From identifiers to positions

The position of a node is its place in the row of nodes. If every identifier is its own position, no
table is needed; otherwise a table is built, which finds the first identifier that occurs twice.

* `Graph.positions` finds the positions of all identifiers.
* `Graph.endpoints` finds the positions of the two ends of every edge. -/

namespace FlatGraph

/-- The positions of the identifiers of a graph. -/
inductive Positions
  | dense (count : Nat)
  | sparse (table : Std.HashMap UInt64 Nat)

namespace Positions

/-- The position of the node with identifier `id`. -/
def find? : Positions → UInt64 → Option Nat
  | dense count, id => if id.toNat < count then some id.toNat else none
  | sparse table, id => table[id]?

/-- No table is needed. -/
def isDense : Positions → Bool
  | dense _ => true
  | sparse _ => false

/-- Enters the nodes from position `i` on into the table. -/
def enter : List Node → (i : Nat) → Std.HashMap UInt64 Nat →
    Except Misuse (Std.HashMap UInt64 Nat)
  | [], _, table => .ok table
  | node :: rest, i, table =>
    if node.id ∈ table then .error (.duplicateId node.id)
    else enter rest (i + 1) (table.insert node.id i)

/-- The positions of the two ends of the edges from number `i` on. The source of an edge is looked
up before its target. -/
def resolve (p : Positions) : List Edge → (i : Nat) → Except Misuse (List (Nat × Nat))
  | [], _ => .ok []
  | edge :: rest, i =>
    match p.find? edge.source with
    | none => .error (.unknownSource i edge.source)
    | some source =>
      match p.find? edge.target with
      | none => .error (.unknownTarget i edge.target)
      | some target => (resolve p rest (i + 1)).map ((source, target) :: ·)

end Positions

namespace Graph

/-- Every identifier is its own position. -/
def isDense (g : Graph) : Bool := g.nodes.toList.zipIdx.all fun (node, i) => node.id.toNat == i

/-- The positions of all identifiers. Fails on an identifier that occurs twice. -/
def positions (g : Graph) : Except Misuse Positions :=
  if g.isDense then .ok (.dense g.nodes.size)
  else (Positions.enter g.nodes.toList 0 ∅).map .sparse

/-- The positions of the two ends of every edge. Fails on an edge that names no node. -/
def endpoints (g : Graph) (p : Positions) : Except Misuse (List (Nat × Nat)) :=
  p.resolve g.edges.toList 0

end Graph

end FlatGraph
