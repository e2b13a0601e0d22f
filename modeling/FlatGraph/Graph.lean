import FlatGraph.Bytes.Word
import FlatGraph.Number.Binary64

/-! # Graphs to be written

A directed graph as a row of nodes and a row of edges, both in insertion order. Nodes carry an
identifier, and edges name their ends by identifier. Nothing is checked here: identifiers may occur
twice and edges may name nodes that are not there. -/

namespace FlatGraph

/-- A node with its type tag, its flags and the bytes attached to it, if any. -/
structure Node where
  id : UInt64
  kind : UInt16 := 0
  flags : UInt16 := 0
  payload : Option ByteArray := none
  deriving DecidableEq

/-- A directed edge with its type tag, the 64 bits of its weight and the bytes attached to it, if
any. -/
structure Edge where
  source : UInt64
  target : UInt64
  kind : UInt32 := 0
  weight : UInt64 := Binary64.one
  payload : Option ByteArray := none
  deriving DecidableEq

/-- The two edges agree, their weights as numbers. -/
def Edge.sameAs (e f : Edge) : Bool :=
  { e with weight := 0 } == { f with weight := 0 } && Binary64.sameNumber e.weight f.weight

/-- A row of nodes and a row of edges. -/
structure Graph where
  nodes : Array Node := #[]
  edges : Array Edge := #[]
  deriving DecidableEq

namespace Graph

/-- The graph of `count` nodes whose identifiers are their positions, joined by the given pairs of
source and target. -/
def ofPairs (count : Nat) (pairs : List (UInt64 × UInt64)) : Graph where
  nodes := Array.ofFn fun i : Fin count => { id := UInt64.ofNat i }
  edges := (pairs.map fun (source, target) => { source, target }).toArray

/-- The graph with a node appended, and the position of that node. -/
def addNode (g : Graph) (node : Node) : Nat × Graph :=
  (g.nodes.size, { g with nodes := g.nodes.push node })

/-- The graph with an edge appended, and the position of that edge. -/
def addEdge (g : Graph) (edge : Edge) : Nat × Graph :=
  (g.edges.size, { g with edges := g.edges.push edge })

/-- The graph has no nodes. -/
def isEmpty (g : Graph) : Bool := g.nodes.isEmpty

/-- The two graphs agree, the weights as numbers. -/
def sameAs (g h : Graph) : Bool :=
  g.nodes == h.nodes && g.edges.size == h.edges.size &&
    (g.edges.zip h.edges).all fun (e, f) => e.sameAs f

/-- The payloads in the order in which a file holds them: those of the nodes, then those of the
edges. -/
def payloads (g : Graph) : List (Option ByteArray) :=
  (g.nodes.toList.map (·.payload)) ++ (g.edges.toList.map (·.payload))

end Graph

end FlatGraph
