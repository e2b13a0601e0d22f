import FlatGraph.Format.Header
import FlatGraph.Statistics

/-! # Where the sections of a file are

A section is a run of bytes behind the preamble and within the file. The header and the metadata
block name the sections; a section that a flag stands for is there exactly if it has an offset.

* `Section.place` finds a section of records of fixed width, or the damage that it does not fit.
* `Sections.locate` finds all sections of a file, or the damage of the first that is misplaced. -/

namespace FlatGraph

/-- A run of `length` bytes from byte `start` on. -/
structure Section where
  start : Nat
  length : Nat
  deriving DecidableEq

namespace Section

/-- The byte behind the section. -/
def stop (s : Section) : Nat := s.start + s.length

/-- The section of `count` records of `width` bytes at `offset`. It fits if it lies behind the
preamble and as many records have room before the end of the file. -/
def place (size : Nat) (what : SectionName) (offset count width : Nat) : Except Damage Section :=
  if preambleSize ≤ offset ∧ offset ≤ size ∧ count ≤ (size - offset) / width then
    .ok ⟨offset, count * width⟩
  else .error (.misplaced what offset count width size)

/-- The section at an offset that may be absent, for a flag that may be clear. -/
def placeIf (size : Nat) (what : SectionName) (flagged : Bool) (offset : Option UInt64)
    (count width : Nat) : Except Damage (Option Section) :=
  match flagged, offset with
  | true, some offset => (place size what offset.toNat count width).map some
  | false, none => .ok none
  | true, none => .error (.withoutOffset what)
  | false, some _ => .error (.withoutFlag what)

end Section

/-- The sections of a file. -/
structure Sections where
  nodes : Section
  edges : Section
  weights : Option Section
  payloads : Section
  offsetIndex : Option Section
  idIndex : Option Section
  statistics : Option Section
  deriving DecidableEq

/-- The sections that the preamble of a file of `size` bytes names. -/
def Sections.locate (h : Header) (m : Metadata) (size : Nat) : Except Damage Sections := do
  let nodeCount := h.nodeCount.toNat
  let edgeCount := h.edgeCount.toNat
  let nodes ← Section.place size .nodeTable h.nodeTable.toNat nodeCount (Record.width NodeRecord)
  let edges ← Section.place size .edgeTable h.edgeTable.toNat edgeCount (Record.width EdgeRecord)
  let weights ← Section.placeIf size .weights (h.hasFlag Flag.weightedEdges) (offset? m.weights)
    edgeCount (Record.width UInt64)
  let payloads ← Section.place size .payloads m.payload.toNat m.payloadLength.toNat 1
  let offsetIndex ← Section.placeIf size .offsetIndex (h.hasFlag Flag.offsetIndex)
    (offset? h.offsetIndex) nodeCount (Record.width UInt64)
  let idIndex ← Section.placeIf size .idIndex (h.hasFlag Flag.sparseIds) (offset? m.idIndex)
    nodeCount (Record.width IdEntry)
  let statistics ← Section.placeIf size .statistics (h.hasFlag Flag.statistics)
    (offset? h.statistics) 1 (Record.width Statistics)
  return { nodes, edges, weights, payloads, offsetIndex, idIndex, statistics }

end FlatGraph
