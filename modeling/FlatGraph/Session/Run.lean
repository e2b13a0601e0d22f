import FlatGraph.Session.Basic

/-! # Runs of a session

The calls that a program makes by pointer, each with its arguments, and the steps of a session, one
after the other.

* `Query.answer`: what a question about an open graph answers, and the buffer as it leaves it.
* `Session.perform` makes a call by pointer; every call has a way to say that it failed.
* `Session.run` takes steps in a row. -/

namespace FlatGraph

/-! ### Buffers -/

namespace Foreign

/-- Puts the identifiers at some positions into the slots, one after the other. A position that has
none ends this, and the slots in front of it stay filled. -/
def putIds (image : Image) : (slots : List UInt64) → (positions : List Nat) →
    Except Fault Unit × List UInt64
  | slot :: slots, position :: rest =>
    match image.idOf position with
    | .error fault => (.error fault, slot :: slots)
    | .ok id =>
      match putIds image slots rest with
      | (answer, slots) => (answer, id :: slots)
  | slots, _ => (.ok (), slots)

/-- A shortest path between two nodes, put into the buffer slot by slot: the buffer has to hold all
of it. Answers the number of nodes on it, zero if there is no path, and the slots as they are
left. -/
def writePath (pointer : Option Image) (source target : UInt64) (buffer : Buffer) :
    Except Complaint Nat × Option (List UInt64) :=
  match deref pointer, buffer with
  | .error complaint, _ => (.error complaint, buffer.slots?)
  | .ok _, .null _ => (.error .nullBuffer, none)
  | .ok image, .slots slots =>
    match findPath image source target with
    | .error fault => (.error (.fault fault), some slots)
    | .ok none => (.ok 0, some slots)
    | .ok (some path) =>
      if slots.length < path.nodes.length then
        (.error (.smallBuffer slots.length path.nodes.length), some slots)
      else
        match putIds image slots path.nodes with
        | (.error fault, slots) => (.error (.fault fault), some slots)
        | (.ok (), slots) => (.ok path.nodes.length, some slots)

/-- The neighbors of a node, put into the buffer. Answers their number, and the slots as they are
left. -/
def writeNeighbors (pointer : Option Image) (id : UInt64) (buffer : Buffer) :
    Except Complaint Nat × Option (List UInt64) :=
  match neighbors pointer id buffer with
  | .error complaint => (.error complaint, buffer.slots?)
  | .ok (count, filled) => (.ok count, filled)

end Foreign

/-! ### Questions -/

/-- A question about the graph behind a pointer. A question that fills a buffer brings it along. -/
inductive Query
  | nodeCount
  | edgeCount
  | degree (id : UInt64)
  | neighbors (id : UInt64) (buffer : Buffer)
  | reachCount (id : UInt64)
  | shortestPath (source target : UInt64) (buffer : Buffer)
  | componentCount (number : Int)

namespace Query

/-- The number that stands for a failure. A count of nodes or edges fails for a null pointer only,
and answers zero then. -/
def sentinel : Query → Nat
  | nodeCount | edgeCount => 0
  | degree _ | componentCount _ => Foreign.sentinel32
  | neighbors .. | reachCount _ | shortestPath .. => Foreign.sentinel64

/-- The slots of the buffer that is brought along. -/
def buffer : Query → Option (List UInt64)
  | neighbors _ buffer | shortestPath _ _ buffer => buffer.slots?
  | _ => none

/-- **What a question answers**, a number or a complaint, and the slots as they are left. -/
def answer (pointer : Option Image) : Query → Except Complaint Nat × Option (List UInt64)
  | nodeCount => (Foreign.nodeCount pointer, none)
  | edgeCount => (Foreign.edgeCount pointer, none)
  | degree id => (Foreign.degree pointer id, none)
  | neighbors id buffer => Foreign.writeNeighbors pointer id buffer
  | reachCount id => (Foreign.reachCount pointer id, none)
  | shortestPath source target buffer => Foreign.writePath pointer source target buffer
  | componentCount number => (Foreign.componentCount pointer number, none)

end Query

/-- What the program sees of a question: the number, and the slots of the buffer. -/
structure Reply where
  value : Nat
  buffer : Option (List UInt64)
  deriving DecidableEq

/-! ### Calls -/

/-- A call by pointer. Pointers go by name; no name, or one not in use, is a null pointer. What the
system answers when a file is opened comes with the call. -/
inductive Call
  | openGraph (path : Option ByteArray) (name : String) (reading : Reading)
  | closeGraph (name : Option String)
  | ask (on : Option String) (query : Query)

/-- What the program sees of a call by pointer. -/
inductive Outcome
  | opened (success : Bool)
  | closed
  | replied (reply : Reply)
  deriving DecidableEq

/-- A step of a session: a graph is written, opened or closed by the program itself, or a call is
made by pointer. What the system answers comes with the step. -/
inductive Action
  | write (path : String) (g : Graph) (o : Options) (writing : Writing)
  | openGraph (path name : String) (reading : Reading)
  | closeGraph (name : String)
  | call (call : Call)

namespace Session

/-- Asks about the graph behind the pointer under a name. -/
def ask (s : Session) (on : Option String) (query : Query) : Reply × Session :=
  match query.answer (s.pointer? on) with
  | (answer, buffer) =>
    match s.call query.sentinel answer with
    | (value, s) => (⟨value, buffer⟩, s)

/-- **Makes a call by pointer.** -/
def perform (s : Session) : Call → Outcome × Session
  | .openGraph path name reading =>
    match s.openPointer path name reading with
    | (success, s) => (.opened success, s)
  | .closeGraph name => (.closed, s.closePointer name)
  | .ask on query =>
    match s.ask on query with
    | (reply, s) => (.replied reply, s)

/-- The session after a step. -/
def step (s : Session) : Action → Session
  | .write path g o writing => (s.write path g o writing).2
  | .openGraph path name reading => (s.openGraph path name reading).2
  | .closeGraph name => s.closeGraph name
  | .call call => (s.perform call).2

/-- The session after some steps. -/
def run (s : Session) (actions : List Action) : Session := actions.foldl step s

end Session

end FlatGraph
