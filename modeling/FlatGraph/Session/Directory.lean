import FlatGraph.Bytes.Word
import FlatGraph.Session.Lock
import FlatGraph.Session.Pathname

/-! # Files and directories

Files, each with its bytes and its lock, and directories, by where they are. A path is followed step
by step: every step but the last has to lead into a directory. There are no links, hard or symbolic:
a file has one location, so two paths name the same file exactly if they lead to the same location.

* `Store.find?_insert`: only the location inserted at changes.
* `Store.lookUp` finds what a path names; a slash behind the name of a file is refused.
* `Store.claim` finds the file to be written at a path, which need not be there; a slash at the end
  is refused, whatever is there.
* `Store.makeDirectories` makes the directories on a path that are not there yet. -/

namespace FlatGraph

/-- The bytes of a file and its lock. -/
structure File where
  bytes : ByteArray
  lock : Lock
  deriving DecidableEq

/-- What is at a location. -/
inductive Entry
  | file (file : File)
  | directory
  deriving DecidableEq

/-- The names on the way down from the root. -/
abbrev Location := List String

/-- The files and directories by location. The working directory is at `home`: a path that starts at
the root reaches the files in it if it goes down by these names. -/
structure Store where
  home : Location := ["", ""]
  entries : List (Location × Entry) := []

/-- The last step of a path: to a name in a directory, or to a directory without naming it. -/
inductive Goal
  | named (parent : Location) (name : String) (slashed : Bool)
  | unnamed (directory : Location)
  deriving DecidableEq

namespace Store

/-- What is at a location. The working directory and those above it are there. -/
def find? (s : Store) (location : Location) : Option Entry :=
  if location.isPrefixOf s.home then some .directory else s.entries.lookup location

/-- The store with an entry at a location. -/
def insert (s : Store) (location : Location) (entry : Entry) : Store :=
  { s with entries := (location, entry) :: s.entries.filter fun (other, _) => other ≠ location }

theorem lookup_filter_ne {location other : Location} (h : other ≠ location)
    (entries : List (Location × Entry)) :
    (entries.filter fun (l, _) => l ≠ location).lookup other = entries.lookup other := by
  induction entries with
  | nil => rfl
  | cons first rest ih =>
    obtain ⟨l, entry⟩ := first
    by_cases hl : l = location
    · subst hl
      rw [List.filter_cons_of_neg (by simp), ih, List.lookup_cons, beq_false_of_ne h]
    · rw [List.filter_cons_of_pos (by simp [hl]), List.lookup_cons, List.lookup_cons, ih]

theorem find?_insert (s : Store) (location other : Location) (entry : Entry) :
    (s.insert location entry).find? other =
      if other.isPrefixOf s.home then some .directory
      else if other = location then some entry else s.find? other := by
  unfold find? insert
  split
  · rfl
  · split
    · next h => rw [List.lookup_cons, h, beq_self_eq_true]
    · next h => rw [List.lookup_cons, beq_false_of_ne h, lookup_filter_ne h]

/-! ### Following a path -/

/-- Where a path starts: at the root or in the working directory. -/
def origin (s : Store) (p : Pathname) : Location := if p.absolute then [] else s.home

/-- What a name stands for in a directory. -/
def entry? (s : Store) (parent : Location) (name : String) : Except Refusal (Option Entry) :=
  if Pathname.maxNameSize < name.utf8ByteSize then .error .nameTooLong
  else .ok (s.find? (parent ++ [name]))

/-- The directory that a step leads to. The root is above itself. -/
def enter (s : Store) (parent : Location) : Step → Except Refusal Location
  | .stay => .ok parent
  | .up => .ok parent.dropLast
  | .down name => do
    match ← s.entry? parent name with
    | some .directory => return parent ++ [name]
    | some (.file _) => .error .notDirectory
    | none => .error .missing

/-- Follows a path up to its last step. -/
def follow (s : Store) (path : String) : Except Refusal Goal := do
  let p ← Pathname.ofString path
  let parent ← p.steps.dropLast.foldlM s.enter (s.origin p)
  match p.steps.getLast? with
  | some (.down name) => return .named parent name p.slashed
  | some step => return .unnamed (← s.enter parent step)
  | none => return .unnamed parent

/-- What a path names, and where it is. -/
def lookUp (s : Store) (path : String) : Except Refusal (Location × Entry) := do
  match ← s.follow path with
  | .unnamed directory => return (directory, .directory)
  | .named parent name slashed =>
    match ← s.entry? parent name with
    | none => .error .missing
    | some .directory => return (parent ++ [name], .directory)
    | some (.file file) =>
      if slashed then .error .notDirectory else return (parent ++ [name], .file file)

/-- The file to be written at a path, an empty one if there is none yet, and where it is. -/
def claim (s : Store) (path : String) : Except Refusal (Location × File) := do
  match ← s.follow path with
  | .unnamed _ => .error .isDirectory
  | .named parent name slashed =>
    if slashed then .error .isDirectory
    else
      match ← s.entry? parent name with
      | none => return (parent ++ [name], ⟨ByteArray.empty, .free⟩)
      | some .directory => .error .isDirectory
      | some (.file file) => return (parent ++ [name], file)

/-! ### Plain files -/

/-- The bytes of the file at a path. -/
def read? (s : Store) (path : String) : Option ByteArray :=
  match s.lookUp path with
  | .ok (_, .file file) => some file.bytes
  | _ => none

/-- The store with the given bytes in the file at a path, whoever holds the file. -/
def put (s : Store) (path : String) (bytes : ByteArray) : Store :=
  match s.claim path with
  | .ok (location, file) => s.insert location (.file { file with bytes })
  | .error _ => s

/-! ### Directories -/

/-- The directory that a step leads to, made in the store if nothing is there. -/
def extend : Store × Location → Step → Except Refusal (Store × Location)
  | (s, parent), .down name => do
    match ← s.entry? parent name with
    | none => return (s.insert (parent ++ [name]) .directory, parent ++ [name])
    | some _ => return (s, ← s.enter parent (.down name))
  | (s, parent), step => return (s, ← s.enter parent step)

/-- The store with directories all along a path. -/
def makeDirectories (s : Store) (path : String) : Store :=
  match Pathname.ofString path with
  | .error _ => s
  | .ok p =>
    match p.steps.foldlM extend (s, s.origin p) with
    | .ok (s, _) => s
    | .error _ => s

end Store

end FlatGraph
