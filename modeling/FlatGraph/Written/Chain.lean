import FlatGraph.Format.Record
import FlatGraph.Graph
import FlatGraph.Written.Layout

/-! # The records of a graph

The out-edges of each node are threaded into a chain in table order, and each payload that is
present gets the offset at which it will be written.

* `Threads.pass` passes one edge: it is the first of its node, or it follows the last one so far.
* `payloadOffsets` lays the payloads one behind the other. -/

namespace FlatGraph

/-! ### Chains -/

/-- The chains through the edges passed: the first and the last edge of each node, and for each edge
passed the next one of the same node. -/
structure Threads where
  heads : Array (Option Nat)
  lasts : Array (Option Nat)
  links : Array (Option Nat)

namespace Threads

/-- No edge is passed yet. -/
def start (count : Nat) : Threads where
  heads := Array.replicate count none
  lasts := Array.replicate count none
  links := #[]

/-- Passes the next edge, given by its source. -/
def pass (t : Threads) (source : Nat) : Threads :=
  let index := t.links.size
  let links := t.links.push none
  match t.lasts[source]? with
  | none => { t with links }
  | some none =>
    { heads := t.heads.setIfInBounds source (some index)
      lasts := t.lasts.setIfInBounds source (some index)
      links }
  | some (some last) =>
    { heads := t.heads
      lasts := t.lasts.setIfInBounds source (some index)
      links := links.setIfInBounds last (some index) }

end Threads

/-! ### Payload offsets -/

/-- The offsets of the payloads that are present, laid one behind the other from `start` on. -/
def payloadOffsets (start : Nat) : List (Option ByteArray) → List (Option Nat)
  | [] => []
  | none :: rest => none :: payloadOffsets start rest
  | some payload :: rest => some start :: payloadOffsets (start + entrySize payload) rest

/-! ### Records -/

/-- The record of a node. -/
def Node.record (node : Node) (first payload : Option Nat) : NodeRecord :=
  { id := node.id, kind := node.kind, flags := node.flags
    first := rawLink first, payload := rawPayload payload }

/-- The record of an edge. -/
def Edge.record (edge : Edge) (ends : Nat × Nat) (next payload : Option Nat) : EdgeRecord :=
  { source := UInt32.ofNat ends.1, target := UInt32.ofNat ends.2, kind := edge.kind
    next := rawLink next, payload := rawPayload payload }

namespace Graph

/-- The chains of the graph, its edges given by the positions of their ends. -/
def threads (g : Graph) (ends : List (Nat × Nat)) : Threads :=
  (ends.map (·.1)).foldl Threads.pass (Threads.start g.nodes.size)

/-- The records of the nodes, for payloads that start at byte `start`. -/
def nodeRecords (g : Graph) (ends : List (Nat × Nat)) (start : Nat) : List NodeRecord :=
  List.zipWith (fun node (first, payload) => node.record first payload) g.nodes.toList
    ((g.threads ends).heads.toList.zip (payloadOffsets start g.payloads))

/-- The records of the edges, for payloads that start at byte `start`. -/
def edgeRecords (g : Graph) (ends : List (Nat × Nat)) (start : Nat) : List EdgeRecord :=
  List.zipWith (fun edge (ends, next, payload) => edge.record ends next payload) g.edges.toList
    (ends.zip ((g.threads ends).links.toList.zip
      ((payloadOffsets start g.payloads).drop g.nodes.size)))

end Graph

end FlatGraph
