import FlatGraph.Image.Analysis

/-! # Calls by pointer

The calls that a program makes with a pointer to an open graph, with buffers of its own for the
answers. A call that fails answers a sentinel and leaves a message; nodes are named by identifier.

* Each call is a value or a `Complaint`; `report` makes the answer and the message of it. -/

namespace FlatGraph

/-- Why a call fails. -/
inductive Complaint
  | nullPath
  | invalidPath
  | nullGraph
  | nullBuffer
  | smallBuffer (capacity length : Nat)
  | unknownMode (mode : Int)
  | fault (fault : Fault)
  deriving DecidableEq

/-- The text of a complaint. -/
def Complaint.message : Complaint → String
  | nullPath => "Null path pointer"
  | invalidPath => "Invalid UTF-8 in path"
  | nullGraph => "Null graph pointer"
  | nullBuffer => "Null output buffer"
  | smallBuffer capacity length => s!"Output buffer holds {capacity} ids, path has {length}"
  | unknownMode mode => s!"Unknown component mode {mode}"
  | fault cause => cause.message

/-- The text with every NUL spelled out, since a NUL ends a message. -/
def spellNul (text : String) : String :=
  String.ofList (text.toList.flatMap fun c => if c.toNat = 0 then ['\\', '0'] else [c])

/-- A buffer that a program brings along for identifiers: a null pointer with some capacity, or as
many slots as there is capacity. -/
inductive Buffer
  | null (capacity : Nat)
  | slots (ids : List UInt64)
  deriving DecidableEq

namespace Buffer

/-- The slots of a buffer; a null pointer has none. -/
def slots? : Buffer → Option (List UInt64)
  | null _ => none
  | slots ids => some ids

/-- The capacity that a program states. -/
def capacity : Buffer → Nat
  | null capacity => capacity
  | slots ids => ids.length

end Buffer

namespace Foreign

/-- The version of the library. -/
def version : String := "0.1.0"

/-- The answer that stands for a failure of a 32-bit call. -/
def sentinel32 : Nat := 0xffffffff

/-- The answer that stands for a failure of a 64-bit call. -/
def sentinel64 : Nat := 0xffffffffffffffff

/-- The answer of a call and the message left behind: none if the call succeeded. -/
def report {α : Type} (sentinel : α) : Except Complaint α → α × Option String
  | .ok value => (value, none)
  | .error complaint => (sentinel, some (spellNul complaint.message))

/-- The graph behind a pointer, which may be null. -/
def deref : Option Image → Except Complaint Image
  | some image => .ok image
  | none => .error .nullGraph

/-- A fault as a complaint. -/
def lift {α : Type} (answer : Except Fault α) : Except Complaint α := answer.mapError .fault

/-- The number of nodes. -/
def nodeCount (pointer : Option Image) : Except Complaint Nat := do
  return (← deref pointer).header.nodeCount.toNat

/-- The number of edges. -/
def edgeCount (pointer : Option Image) : Except Complaint Nat := do
  return (← deref pointer).header.edgeCount.toNat

/-- The number of edges out of a node. -/
def degree (pointer : Option Image) (id : UInt64) : Except Complaint Nat := do
  lift ((← deref pointer).degree id)

/-- The buffer with as many of the values as it holds at its front. -/
def fill (buffer values : List UInt64) : List UInt64 :=
  values.take buffer.length ++ buffer.drop values.length

/-- The number of neighbors of a node; as many of them as it holds are put into the buffer, which
may be null if its capacity is zero. -/
def neighbors (pointer : Option Image) (id : UInt64) (buffer : Buffer) :
    Except Complaint (Nat × Option (List UInt64)) := do
  let image ← deref pointer
  if buffer.slots?.isNone ∧ 0 < buffer.capacity then .error .nullBuffer
  else do
    let ids ← lift (image.neighbors id)
    return (ids.length, buffer.slots?.map fun slots => fill slots ids)

/-- The number of nodes that a breadth-first search from a node reaches. -/
def reachCount (pointer : Option Image) (id : UInt64) : Except Complaint Nat := do
  let image ← deref pointer
  lift do
    let start ← image.positionOf id
    return (← image.adjacency.breadthFirst start false).reached

/-- A shortest path between the nodes with two identifiers, none if there is none. -/
def findPath (image : Image) (source target : UInt64) : Except Fault (Option Path) := do
  let source ← image.positionOf source
  let target ← image.positionOf target
  image.adjacency.shortestPath source target

/-- The mode of counting components that a number stands for. -/
def mode (number : Int) : Except Complaint ComponentMode :=
  if number = 0 then .ok .weak
  else if number = 1 then .ok .reachability
  else .error (.unknownMode number)

/-- The number of components. -/
def componentCount (pointer : Option Image) (number : Int) : Except Complaint Nat := do
  let image ← deref pointer
  let mode ← mode number
  lift (image.componentCount mode)

/-- The path in the bytes behind a pointer, which may be null: those before the first NUL. -/
def path (pointer : Option ByteArray) : Except Complaint String :=
  match pointer with
  | none => .error .nullPath
  | some bytes =>
    match String.fromUTF8? (ByteArray.mk (bytes.data.takeWhile (· ≠ 0))) with
    | some path => .ok path
    | none => .error .invalidPath

end Foreign

end FlatGraph
