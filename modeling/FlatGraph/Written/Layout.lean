import FlatGraph.Bytes.Varint
import FlatGraph.Format.Header
import FlatGraph.Graph
import FlatGraph.Statistics

/-! # Where the sections of a file go

The node table follows the preamble, then come the edge table, the weights, the payloads, the index
of payload offsets, the index of identifiers and the statistics, as far as they are wanted. The last
three and the end of the file are on multiples of eight bytes. -/

namespace FlatGraph

open Bytes

/-- The number of bytes of a payload with its length in front. -/
def entrySize (payload : ByteArray) : Nat := Varint.encodedLength payload.size + payload.size

/-- The number of bytes of all payloads that are present. -/
def payloadsSize : List (Option ByteArray) → Nat
  | [] => 0
  | none :: rest => payloadsSize rest
  | some payload :: rest => entrySize payload + payloadsSize rest

/-- The offsets of the sections, and the size of the file. -/
structure Layout where
  nodeTable : Nat
  edgeTable : Nat
  weights : Option Nat
  payload : Nat
  payloadLength : Nat
  offsetIndex : Option Nat
  idIndex : Option Nat
  statistics : Option Nat
  total : Nat
  deriving DecidableEq

namespace Layout

/-- The offset of a section of `length` bytes behind `cursor` if it is wanted, and the cursor
behind it. -/
def place (cursor : Nat) (wanted : Bool) (length : Nat) : Option Nat × Nat :=
  if wanted then (some (align cursor), align cursor + length) else (none, cursor)

/-- The layout of a file with the given counts and the given size of all payloads. -/
def plan (o : Options) (dense : Bool) (nodes edges payloadLength : Nat) : Layout :=
  let nodeTable := preambleSize
  let edgeTable := nodeTable + nodes * Record.width NodeRecord
  let weights := edgeTable + edges * Record.width EdgeRecord
  let payload := if o.weightedEdges then weights + edges * Record.width UInt64 else weights
  let cursor := payload + payloadLength
  let (offsetIndex, cursor) := place cursor o.offsetIndex (nodes * Record.width UInt64)
  let (idIndex, cursor) := place cursor (!dense) (nodes * Record.width IdEntry)
  let (statistics, cursor) := place cursor o.statistics (Record.width Statistics)
  { nodeTable
    edgeTable
    weights := if o.weightedEdges then some weights else none
    payload
    payloadLength
    offsetIndex
    idIndex
    statistics
    total := align cursor }

end Layout

end FlatGraph
