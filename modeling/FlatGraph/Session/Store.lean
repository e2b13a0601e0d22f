import FlatGraph.Image.Parse
import FlatGraph.Session.Directory
import FlatGraph.Written.File

/-! # Graph files on disk

A graph file is written under an exclusive lock that is released at once; an open graph file holds a
shared lock until it is closed. The system may fail at any point, when a file is opened, when its
bytes are replaced and when they are read; what it answers is given with every attempt.

* `Writing`, `Reading`: what the system answers.
* `Store.write` writes a graph. Nothing changes unless the graph, the path and the lock permit it;
  a file whose bytes are not all replaced is left as it is then, and released.
* `Store.openImage` reads a graph file and keeps its lock; `Store.close` releases the lock.
* `Store.image` is what an open graph file holds now: whoever ignores the lock may have put other
  bytes there. -/

namespace FlatGraph

/-! ### Answers of the system -/

/-- How far the system comes with replacing the bytes of a file: it does not cut the file, it
complains after some of the bytes, it has all of them in the file but not on the disk, or it is
done. -/
inductive Replacing
  | uncut (complaint : String)
  | partly (count : Nat) (complaint : String)
  | unsynced (complaint : String)
  | done
  deriving DecidableEq

/-- What the system answers when a file is written at a path that it can follow. -/
inductive Writing
  | unopened (complaint : String)
  | opened (replacing : Replacing)
  deriving DecidableEq

/-- How far the system comes with mapping a file into memory: it does not tell the size, it does not
map the bytes, or it is done. -/
inductive Mapping
  | unmeasured (complaint : String)
  | unmapped (complaint : String)
  | done
  deriving DecidableEq

/-- What the system answers when a file is opened at a path that it can follow. -/
inductive Reading
  | unopened (complaint : String)
  | opened (mapping : Mapping)
  deriving DecidableEq

/-! ### Bytes of a file -/

namespace File

/-- The file with some bytes written at its start. -/
def writeFront (file : File) (bytes : ByteArray) : File :=
  { file with bytes := bytes ++ file.bytes.extract bytes.size file.bytes.size }

/-- Puts other bytes in place of those of the file: it is cut to no bytes before they are written at
its start. Answers what the system complains of. -/
def replace (file : File) (bytes : ByteArray) : Replacing → Except String Unit × File
  | .uncut complaint => (.error complaint, file)
  | .partly count complaint =>
    (.error complaint, (cut file).writeFront (bytes.extract 0 count))
  | .unsynced complaint => (.error complaint, (cut file).writeFront bytes)
  | .done => (.ok (), (cut file).writeFront bytes)
where
  cut (file : File) : File := { file with bytes := Bytes.resize file.bytes 0 }

end File

namespace Store

/-- The fault of an attempt on a path that the operating system refuses. -/
def fault (attempt path : String) (refusal : Refusal) : Fault :=
  .io (attempt ++ path) refusal.message

/-! ### Writing -/

/-- Writes a graph to the file at a path. Answers the size of the file. -/
def write (s : Store) (path : String) (g : Graph) (o : Options) (writing : Writing) :
    Except Fault Nat × Store :=
  match g.write o with
  | .error cause => (.error (.invalidArgument cause), s)
  | .ok bytes =>
    match s.claim path, writing with
    | .error refusal, _ => (.error (fault "failed to create graph file " path refusal), s)
    | .ok _, .unopened complaint =>
      (.error (.io ("failed to create graph file " ++ path) complaint), s)
    | .ok (location, file), .opened replacing =>
      match file.lock.tryExclusive? with
      | none =>
        (.error (.io ("graph file " ++ path ++ " is open by another process")
          Refusal.unavailable.message), s)
      | some held =>
        match File.replace { file with lock := held } bytes replacing with
        | (answer, file) =>
          -- the lock is released before anyone looks at the answer
          let store := s.insert location (.file { file with lock := file.lock.release })
          match answer with
          | .error complaint =>
            (.error (.io ("failed to write graph file " ++ path) complaint), store)
          | .ok () => (.ok bytes.size, store)

/-! ### Reading -/

/-- A file that is shorter than the front of every graph file is refused. -/
def checkSize (bytes : ByteArray) : Except Fault Unit :=
  if bytes.size < preambleSize then .error (.corrupt (.truncated bytes.size preambleSize))
  else .ok ()

/-- The graph file in the bytes of a file. They are mapped if the file is not too short. -/
def mapFile (path : String) (bytes : ByteArray) : Mapping → Except Fault Image
  | .unmeasured complaint => .error (.io ("failed to stat graph file " ++ path) complaint)
  | .unmapped complaint => do
    checkSize bytes
    .error (.io ("failed to map graph file " ++ path) complaint)
  | .done => do
    checkSize bytes
    (Image.parse bytes).mapError .corrupt

/-- Why a directory is no graph file. It is opened as a file is, and is never too short. -/
def mapDirectory (path : String) : Mapping → Fault
  | .unmeasured complaint => .io ("failed to stat graph file " ++ path) complaint
  | .unmapped complaint => .io ("failed to map graph file " ++ path) complaint
  | .done => fault "failed to map graph file " path .noDevice

/-- An open graph file: where it is, and what it held when it was opened. -/
structure Handle where
  location : Location
  image : Image

/-- Opens the graph file at a path. A file that is not mapped, or is no graph file, is released at
once. -/
def openImage (s : Store) (path : String) (reading : Reading) : Except Fault Handle × Store :=
  match s.lookUp path, reading with
  | .error refusal, _ => (.error (fault "failed to open graph file " path refusal), s)
  | .ok _, .unopened complaint =>
    (.error (.io ("failed to open graph file " ++ path) complaint), s)
  | .ok (_, .directory), .opened mapping => (.error (mapDirectory path mapping), s)
  | .ok (location, .file file), .opened mapping =>
    match file.lock.tryShared? with
    | none =>
      (.error (.io ("graph file " ++ path ++ " is locked by a writer")
        Refusal.unavailable.message), s)
    | some held =>
      match mapFile path file.bytes mapping with
      | .error fault =>
        (.error fault, s.insert location (.file { file with lock := held.release }))
      | .ok image => (.ok ⟨location, image⟩, s.insert location (.file { file with lock := held }))

/-- What an open graph file holds now. Its size and its sections are those it was opened with. -/
def image (s : Store) (handle : Handle) : Image :=
  match s.find? handle.location with
  | some (.file file) => handle.image.reload file.bytes
  | _ => handle.image

/-- Closes an open graph file. -/
def close (s : Store) (handle : Handle) : Store :=
  match s.find? handle.location with
  | some (.file file) =>
    s.insert handle.location (.file { file with lock := file.lock.release })
  | _ => s

end Store

end FlatGraph
