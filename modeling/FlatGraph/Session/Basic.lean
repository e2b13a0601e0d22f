import FlatGraph.Session.Foreign
import FlatGraph.Session.Store

/-! # Sessions

A session works on the files of a store with open graphs that it keeps by name: graphs opened by the
program itself, and graphs opened by calls by pointer. The calls by pointer leave a message behind
when they fail.

* What the system answers is given with every step that writes or opens a file.
* A graph that is opened under a name in use takes the place of the older one, which is closed.
* Closing a graph leaves the message as it is. -/

namespace FlatGraph

/-- Open graphs by name. -/
abbrev Handles := List (String × Store.Handle)

/-- The files, the open graphs and the message of the last call by pointer. -/
structure Session where
  store : Store := {}
  graphs : Handles := []
  pointers : Handles := []
  lastError : Option String := none

namespace Session

/-- The handles without the name, which is closed in the store if it is there. -/
def drop (store : Store) (handles : Handles) (name : String) : Store × Handles :=
  match handles.lookup name with
  | none => (store, handles)
  | some handle => (store.close handle, handles.filter fun (other, _) => other ≠ name)

/-- The handles with a graph under the name. -/
def keep (store : Store) (handles : Handles) (name : String) (handle : Store.Handle) :
    Store × Handles :=
  match drop store handles name with
  | (store, handles) => (store, (name, handle) :: handles)

/-! ### Graphs of the program -/

/-- Writes a graph to the file at a path. Answers the size of the file. -/
def write (s : Session) (path : String) (g : Graph) (o : Options) (writing : Writing) :
    Except Fault Nat × Session :=
  match s.store.write path g o writing with
  | (answer, store) => (answer, { s with store })

/-- Opens the graph file at a path under a name. Answers the file in memory. -/
def openGraph (s : Session) (path name : String) (reading : Reading) :
    Except Fault Image × Session :=
  match s.store.openImage path reading with
  | (.error fault, store) => (.error fault, { s with store })
  | (.ok handle, store) =>
    match keep store s.graphs name handle with
    | (store, graphs) => (.ok handle.image, { s with store, graphs })

/-- Closes the graph under a name. -/
def closeGraph (s : Session) (name : String) : Session :=
  match drop s.store s.graphs name with
  | (store, graphs) => { s with store, graphs }

/-- The graph under a name. -/
def graph? (s : Session) (name : String) : Option Image :=
  (s.graphs.lookup name).map s.store.image

/-! ### Graphs behind pointers -/

/-- The graph behind the pointer under a name; a name that is not in use is a null pointer. -/
def pointer? (s : Session) (name : Option String) : Option Image :=
  (name.bind fun name => s.pointers.lookup name).map s.store.image

/-- Opens the graph file at the path behind a pointer under a name. Answers whether it is open. -/
def openPointer (s : Session) (path : Option ByteArray) (name : String) (reading : Reading) :
    Bool × Session :=
  match Foreign.path path with
  | .error complaint =>
    (false, { s with lastError := (Foreign.report () (.error complaint)).2 })
  | .ok path =>
    match s.store.openImage path reading with
    | (.error fault, store) =>
      (false, { s with store, lastError := (Foreign.report () (.error (.fault fault))).2 })
    | (.ok handle, store) =>
      match keep store s.pointers name handle with
      | (store, pointers) => (true, { s with store, pointers, lastError := none })

/-- Closes the graph behind the pointer under a name. A null pointer is left alone. -/
def closePointer (s : Session) (name : Option String) : Session :=
  match name with
  | none => s
  | some name =>
    match drop s.store s.pointers name with
    | (store, pointers) => { s with store, pointers }

/-- Makes a call by pointer: its answer, and the session with the message that it leaves. -/
def call {α : Type} (s : Session) (sentinel : α) (answer : Except Complaint α) : α × Session :=
  match Foreign.report sentinel answer with
  | (value, lastError) => (value, { s with lastError })

end Session

end FlatGraph
