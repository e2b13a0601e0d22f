import FlatGraph.Text.Hexadecimal

/-! # Faults

What can go wrong with a graph, a graph file or a query, kept as causes. The wording of each cause
is in one place.

* `Misuse`: a graph or a parameter that an operation does not accept.
* `Damage`: a file that does not have the format.
* `Fault`: what an operation answers instead of a value, with its text `Fault.message`.
* `foldlM_invariant`: what holds after a fold that no fault has stopped. -/

namespace FlatGraph

/-- The sections of a file whose placement can fail. -/
inductive SectionName
  | nodeTable
  | edgeTable
  | weights
  | payloads
  | offsetIndex
  | idIndex
  | statistics
  deriving DecidableEq

/-- How a section is called in messages. -/
def SectionName.label : SectionName → String
  | nodeTable => "node table"
  | edgeTable => "edge table"
  | weights => "weight column"
  | payloads => "payload section"
  | offsetIndex => "offset index"
  | idIndex => "identifier index"
  | statistics => "statistics block"

/-- The kinds of elements that are addressed by a number. -/
inductive Element
  | node
  | edge
  | nodeId
  | frontierSlot
  | other (name : String)
  deriving DecidableEq

/-- How an element is called in messages. -/
def Element.label : Element → String
  | node => "node"
  | edge => "edge"
  | nodeId => "node id"
  | frontierSlot => "frontier slot"
  | other name => name

/-- A graph or a parameter that an operation does not accept. -/
inductive Misuse
  | tooMany (what : Element) (count limit : Nat)
  | noNodes
  | duplicateId (id : UInt64)
  | unknownSource (edge : Nat) (id : UInt64)
  | unknownTarget (edge : Nat) (id : UInt64)
  | tooLarge
  | noWorkers
  | noDepth
  | other (text : String)
  deriving DecidableEq

/-- The text of a misuse. -/
def Misuse.message : Misuse → String
  | tooMany what count limit => s!"too many {what.label}s: {count} (max {limit})"
  | noNodes => "graph has no nodes"
  | duplicateId id => s!"duplicate node id {id}"
  | unknownSource edge id => s!"edge {edge} names unknown source id {id}"
  | unknownTarget edge id => s!"edge {edge} names unknown target id {id}"
  | tooLarge => "graph too large for this platform"
  | noWorkers => "parallel BFS needs at least one worker"
  | noDepth => "max_depth must be at least 1"
  | other text => text

/-- A way in which a file does not have the format. -/
inductive Damage
  | truncated (size required : Nat)
  | magic
  | version (found expected : UInt16)
  | unknownFlags (bits : UInt16)
  | checksum (stored computed : UInt64)
  | reservedCount
  | misplaced (what : SectionName) (offset count width size : Nat)
  | withoutOffset (what : SectionName)
  | withoutFlag (what : SectionName)
  | endpoint (edge source target nodes : Nat)
  | link (edge next : Nat)
  | chainHead (node first : Nat)
  | foreignEdge (node source : Nat)
  | coverage (chained edges : Nat)
  | offsetSlot (node : Nat) (slot expected : UInt64)
  | positionalId (node : Nat)
  | unsortedIds
  | idEntry (id : UInt64) (node : Nat)
  | payloadOutside (offset : UInt64)
  | payloadLength (offset : UInt64)
  | payloadOverrun (offset : UInt64)
  | other (text : String)
  deriving DecidableEq

open Text in
/-- The text of a damage. -/
def Damage.message : Damage → String
  | truncated size required => s!"{size} bytes is shorter than the {required}-byte preamble"
  | magic => "not a zcgraph file (bad magic)"
  | version found expected => s!"unsupported format version {found} (expected {expected})"
  | unknownFlags bits => "unknown flag bits " ++ prefixedHexadecimal 4 bits.toNat
  | checksum stored computed =>
    "checksum mismatch: stored " ++ prefixedHexadecimal 16 stored.toNat ++
      ", computed " ++ prefixedHexadecimal 16 computed.toNat
  | reservedCount => "element count collides with a sentinel value"
  | misplaced what offset count width size =>
    s!"{what.label} at offset {offset} ({count} x {width} bytes) does not fit in {size} bytes"
  | withoutOffset what => s!"{what.label} is flagged but has no offset"
  | withoutFlag what => s!"{what.label} has an offset but is not flagged"
  | endpoint edge source target nodes =>
    s!"edge {edge} connects {source} -> {target} but there are {nodes} nodes"
  | link edge next => s!"edge {edge} links to edge {next} out of chain order"
  | chainHead node first => s!"node {node} starts its chain at missing edge {first}"
  | foreignEdge node source =>
    s!"out-edge chain of node {node} contains an edge leaving node {source}"
  | coverage chained edges => s!"adjacency chains cover {chained} of {edges} edges"
  | offsetSlot node slot expected =>
    s!"offset index gives node {node} offset {slot}, record says {expected}"
  | positionalId node => s!"node {node} has a non-positional id but no identifier index"
  | unsortedIds => "identifier index is not strictly sorted"
  | idEntry id node => s!"identifier index maps id {id} to node {node}, which carries another id"
  | payloadOutside offset => s!"payload offset {offset} lies outside the payload section"
  | payloadLength offset => s!"malformed payload length at offset {offset}"
  | payloadOverrun offset => s!"payload at offset {offset} runs past the payload section"
  | other text => text

/-- What an operation answers instead of a value. -/
inductive Fault
  | invalidArgument (cause : Misuse)
  | outOfMemory (bytes : Nat)
  | io (context : String) (source : String)
  | corrupt (cause : Damage)
  | outOfRange (what : Element) (index count : Nat)
  | depthExceeded (limit : Nat)
  | cancelled
  deriving DecidableEq

namespace Fault

/-- The text of a fault. -/
def message : Fault → String
  | invalidArgument cause => "Invalid argument: " ++ cause.message
  | outOfMemory bytes => s!"Out of memory: failed to reserve {bytes} bytes"
  | io context source => s!"I/O error: {context}: {source}"
  | corrupt cause => "Corrupt graph file: " ++ cause.message
  | outOfRange what index count =>
    s!"Index out of range: {what.label} {index} (count is {count})"
  | depthExceeded limit => s!"Depth limit exceeded: traversal deeper than {limit} frames"
  | cancelled => "Traversal cancelled"

/-- The fault says that the file itself cannot be trusted. -/
def isCorrupt : Fault → Bool
  | corrupt _ => true
  | _ => false

/-- The fault is an access outside a table. -/
def isOutOfRange : Fault → Bool
  | outOfRange .. => true
  | _ => false

/-- The text of the fault that lies under this one. -/
def source? : Fault → Option String
  | io _ source => some source
  | _ => none

end Fault

/-! ### Folds -/

/-- **A fold without a fault**: what each of its steps keeps, of the items that are left, holds at
its end. -/
theorem foldlM_invariant {α σ : Type} {step : σ → α → Except Fault σ} {motive : List α → σ → Prop}
    (hstep : ∀ x rest s t, motive (x :: rest) s → step s x = .ok t → motive rest t)
    {items : List α} {s t : σ} (h : items.foldlM step s = .ok t) (hs : motive items s) :
    motive [] t := by
  induction items generalizing s with
  | nil =>
    cases h
    exact hs
  | cons x rest ih =>
    rw [List.foldlM_cons] at h
    cases hu : step s x with
    | error fault => rw [hu] at h; cases h
    | ok u =>
      rw [hu] at h
      exact ih h (hstep x rest s u hs hu)

end FlatGraph
