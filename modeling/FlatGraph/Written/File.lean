import FlatGraph.Written.Chain
import FlatGraph.Written.Positions

/-! # Writing a graph as a file

A graph is written in one go: its identifiers are resolved, its sections are laid out, its records
are built, and the sections are appended one behind the other. The header comes last, since it holds
the digest of all that follows it.

* `Graph.write` fails on the first fault in this order: too many elements, no nodes, an identifier
  that occurs twice, an edge that names no node, more bytes than offsets can tell.
* `Graph.writeAll` writes several graphs and fails on the first that cannot be written. -/

namespace FlatGraph

open Bytes

/-- Everything that a file holds, before it is laid out as bytes. -/
structure Contents where
  header : Header
  metadata : Metadata
  nodes : List NodeRecord
  edges : List EdgeRecord
  weights : Option (List UInt64)
  payloads : List (Option ByteArray)
  offsetIndex : Option (List UInt64)
  idIndex : Option (List IdEntry)
  statistics : Option Statistics

namespace Contents

/-- Appends a payload with its length in front. -/
def pushPayload (b : ByteArray) : Option ByteArray → ByteArray
  | none => b
  | some payload => append b (Varint.encode payload.size) ++ payload

/-- Appends a section on a multiple of eight bytes, if there is one. -/
def pushSection {α : Type} [Record α] (b : ByteArray) : Option (List α) → ByteArray
  | none => b
  | some records => Table.push (appendAligned b) records

/-- The bytes behind the header. The header takes a multiple of eight bytes, so that what is
aligned here is aligned in the file. -/
def body (c : Contents) : ByteArray :=
  let b := append ByteArray.empty (Record.bytes c.metadata)
  let b := Table.push b c.nodes
  let b := Table.push b c.edges
  let b := match c.weights with
    | none => b
    | some weights => Table.push b weights
  let b := c.payloads.foldl pushPayload b
  let b := pushSection b c.offsetIndex
  let b := pushSection b c.idIndex
  let b := pushSection b (c.statistics.map fun s => [s])
  appendAligned b

/-- The bytes of the file, with the digest of all that follows the header in the header. -/
def bytes (c : Contents) : ByteArray :=
  let body := c.body
  let header := { c.header with checksum := Digest.xxh3 body }
  append ByteArray.empty (Record.bytes header) ++ body

end Contents

namespace Graph

/-- The entries of the index of identifiers, in ascending order of the identifiers. -/
def idEntries (g : Graph) : List IdEntry :=
  (g.nodes.toList.zipIdx.map fun (node, i) => { id := node.id, position := UInt32.ofNat i })
    |>.mergeSort fun e f => e.id ≤ f.id

/-- Where the sections of the file of the graph go. -/
def layout (g : Graph) (o : Options) (dense : Bool) : Layout :=
  Layout.plan o dense g.nodes.size g.edges.size (payloadsSize g.payloads)

/-- What the file of the graph holds, for edges with the given positions of their ends. -/
def contents (g : Graph) (o : Options) (dense : Bool) (ends : List (Nat × Nat)) : Contents :=
  let layout := g.layout o dense
  let nodes := g.nodeRecords ends layout.payload
  { header :=
      { flags := o.flags ||| flagIf (!dense) Flag.sparseIds
        nodeCount := UInt32.ofNat g.nodes.size
        edgeCount := UInt32.ofNat g.edges.size
        nodeTable := UInt64.ofNat layout.nodeTable
        edgeTable := UInt64.ofNat layout.edgeTable
        offsetIndex := rawOffset layout.offsetIndex
        statistics := rawOffset layout.statistics }
    metadata :=
      { payload := UInt64.ofNat layout.payload
        payloadLength := UInt64.ofNat layout.payloadLength
        weights := rawOffset layout.weights
        idIndex := rawOffset layout.idIndex }
    nodes
    edges := g.edgeRecords ends layout.payload
    weights := if o.weightedEdges then some (g.edges.toList.map (·.weight)) else none
    payloads := g.payloads
    offsetIndex := if o.offsetIndex then some (nodes.map (·.payload)) else none
    idIndex := if dense then none else some g.idEntries
    statistics :=
      if o.statistics then some (Statistics.compute g.nodes.size ends) else none }

/-- **The file of the graph** under the given options. -/
def write (g : Graph) (o : Options) : Except Misuse ByteArray :=
  if maxElements < g.nodes.size then .error (.tooMany .node g.nodes.size maxElements)
  else if maxElements < g.edges.size then .error (.tooMany .edge g.edges.size maxElements)
  else if g.isEmpty then .error .noNodes
  else do
    let positions ← g.positions
    let ends ← g.endpoints positions
    if sizeBound ≤ (g.layout o positions.isDense).total then .error .tooLarge
    else return (g.contents o positions.isDense ends).bytes

/-- The files of several graphs, or the fault of the first that cannot be written. -/
def writeAll (graphs : List Graph) (o : Options) : Except Misuse (List ByteArray) :=
  graphs.mapM (·.write o)

end Graph

end FlatGraph
