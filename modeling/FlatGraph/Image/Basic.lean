import FlatGraph.Bytes.Varint
import FlatGraph.Image.Chain
import FlatGraph.Image.IdIndex
import FlatGraph.Image.Section

/-! # Graph files in memory

A file whose sections have been found, with its tables. All that is asked of a graph by position or
by identifier is answered from here.

* `Image.reload` reads the tables again where they are; `reload_load`: the same bytes hold the same
  tables.
* `Image.payloadAt` reads the payload at an offset and never leaves the payload section.
* `Image.outEdges`, `Image.neighbors` walk the chain of a node. -/

namespace FlatGraph

open Bytes

/-- The tables of a file, with its bytes and its sections, which tell where the payloads are. -/
structure Image where
  bytes : ByteArray
  header : Header
  metadata : Metadata
  sections : Sections
  nodes : Array NodeRecord
  edges : Array EdgeRecord
  weights : Option (Array UInt64)
  offsetIndex : Option (Array UInt64)
  ids : IdIndex
  statistics : Option Statistics

namespace Image

/-- The tables of the file `b`, whose sections are known. -/
def load (b : ByteArray) (h : Header) (m : Metadata) (s : Sections) : Image :=
  let nodeCount := h.nodeCount.toNat
  let edgeCount := h.edgeCount.toNat
  { bytes := b
    header := h
    metadata := m
    sections := s
    nodes := Table.readAt b s.nodes.start nodeCount
    edges := Table.readAt b s.edges.start edgeCount
    weights := s.weights.map fun column => Table.readAt b column.start edgeCount
    offsetIndex := s.offsetIndex.map fun column => Table.readAt b column.start nodeCount
    ids := match s.idIndex with
      | some table => .sparse (Table.readAt b table.start nodeCount)
      | none => .dense nodeCount
    statistics := s.statistics.map fun block => Record.readAt b block.start }

/-- The tables that the sections hold when the file has the bytes `b`, of which only those that the
file had room for are seen. -/
def reload (image : Image) (b : ByteArray) : Image :=
  load (resize b image.bytes.size) image.header image.metadata image.sections

theorem reload_load (b : ByteArray) (h : Header) (m : Metadata) (s : Sections) :
    (load b h m s).reload b = load b h m s := by
  show load (resize b b.size) h m s = load b h m s
  rw [resize_size]

/-! ### Records -/

/-- The record of the node at a position. -/
def node (image : Image) (position : Nat) : Except Fault NodeRecord :=
  match image.nodes[position]? with
  | some record => .ok record
  | none => .error (.outOfRange .node position image.nodes.size)

/-- The record of the edge at a position. -/
def edge (image : Image) (position : Nat) : Except Fault EdgeRecord :=
  match image.edges[position]? with
  | some record => .ok record
  | none => .error (.outOfRange .edge position image.edges.size)

/-- The bits of the weight of the edge at a position, none if the edges have no weights. -/
def weight (image : Image) (position : Nat) : Except Fault (Option UInt64) := do
  let _ ← image.edge position
  return image.weights.bind fun column => column[position]?

/-- The identifier of the node at a position. -/
def idOf (image : Image) (position : Nat) : Except Fault UInt64 := do
  return (← image.node position).id

/-- The position of the node with an identifier. -/
def positionOf (image : Image) (id : UInt64) : Except Fault Nat := image.ids.positionOf id

/-! ### Payloads -/

/-- The payload whose length is written at `offset`, within the payload section. -/
def payloadAt (image : Image) (offset : UInt64) : Except Damage ByteArray :=
  let start := offset.toNat
  let stop := image.sections.payloads.stop
  if start < image.sections.payloads.start ∨ stop ≤ start then .error (.payloadOutside offset)
  else
    match Varint.decode (run image.bytes start (min Varint.maxLength (stop - start))) with
    | none => .error (.payloadLength offset)
    | some (length, used) =>
      let body := start + used
      if body + length ≤ stop then .ok (image.bytes.extract body (body + length))
      else .error (.payloadOverrun offset)

/-- The payload at an offset that may be absent. -/
def payloadAt? (image : Image) (offset : Option UInt64) : Except Fault (Option ByteArray) :=
  match offset with
  | none => .ok none
  | some offset => ((image.payloadAt offset).map some).mapError .corrupt

/-- The offset of the payload of a node: from the index of offsets if there is one, and from the
record of the node otherwise. -/
def nodeOffset? (image : Image) (position : Nat) (record : NodeRecord) : Option UInt64 :=
  match image.offsetIndex with
  | some slots => slots[position]?.bind payload?
  | none => payload? record.payload

/-- The payload of the node at a position, none if it has none. -/
def nodePayload (image : Image) (position : Nat) : Except Fault (Option ByteArray) := do
  let record ← image.node position
  image.payloadAt? (image.nodeOffset? position record)

/-- The payload of the edge at a position, none if it has none. -/
def edgePayload (image : Image) (position : Nat) : Except Fault (Option ByteArray) := do
  let record ← image.edge position
  image.payloadAt? (payload? record.payload)

/-! ### Chains -/

/-- The edges out of the node at a position, in chain order. -/
def outEdges (image : Image) (position : Nat) : Except Fault (List EdgeRecord) := do
  let record ← image.node position
  return chainEdges image.edges record.first.toNat

/-- The number of edges out of the node at a position. -/
def outDegree (image : Image) (position : Nat) : Except Fault Nat := do
  return (← image.outEdges position).length

/-- The identifiers at the targets of some edges, up to the first target that is not there. -/
def targetIds (image : Image) : List EdgeRecord → List UInt64
  | [] => []
  | record :: rest =>
    match image.nodes[record.target.toNat]? with
    | some target => target.id :: targetIds image rest
    | none => []

/-- The identifiers at the targets of the edges out of the node with an identifier. -/
def neighbors (image : Image) (id : UInt64) : Except Fault (List UInt64) := do
  let position ← image.positionOf id
  return image.targetIds (← image.outEdges position)

/-- At most `count` identifiers at the targets of some edges, and the edges still to be followed. A
target that is not there ends the walk behind its edge. -/
def walk (image : Image) : (count : Nat) → List EdgeRecord → List UInt64 × List EdgeRecord
  | 0, edges => ([], edges)
  | _ + 1, [] => ([], [])
  | count + 1, record :: rest =>
    match image.nodes[record.target.toNat]? with
    | none => ([], rest)
    | some target =>
      match image.walk count rest with
      | (ids, rest) => (target.id :: ids, rest)

/-- The neighbors of the node with an identifier in two parts: at most `count` of them, and those
behind. -/
def neighborsFrom (image : Image) (id : UInt64) (count : Nat) :
    Except Fault (List UInt64 × List UInt64) := do
  let position ← image.positionOf id
  match image.walk count (← image.outEdges position) with
  | (taken, rest) => return (taken, image.targetIds rest)

/-- The number of edges out of the node with an identifier. -/
def degree (image : Image) (id : UInt64) : Except Fault Nat := do
  image.outDegree (← image.positionOf id)

/-- The targets of the edges out of a position, in chain order; none past the last node. -/
def targets (image : Image) (position : Nat) : List Nat :=
  match image.nodes[position]? with
  | some record => (chainEdges image.edges record.first.toNat).map fun e => e.target.toNat
  | none => []

/-- The ends of all edges, in table order. -/
def ends (image : Image) : List (Nat × Nat) :=
  image.edges.toList.map fun e => (e.source.toNat, e.target.toNat)

/-- A short text that describes the file. -/
def describe (image : Image) : String :=
  let fields := s!" len: {image.bytes.size}, nodes: {image.header.nodeCount}, edges: " ++
    s!"{image.header.edgeCount}, flags: {image.header.flags} "
  "GraphBytes \x7b" ++ fields ++ "\x7d"

end Image

end FlatGraph
