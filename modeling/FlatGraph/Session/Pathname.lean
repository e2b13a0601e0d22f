/-! # Path names

A path is a row of names with slashes in between. Two names are special: one dot stays where it is,
two dots lead up. A slash at the end asks for a directory.

* `Pathname.ofString` takes a path apart, or answers why no file can have it. -/

namespace FlatGraph

/-! ### Refusals -/

/-- A refusal of the operating system. -/
inductive Refusal
  | nulInPath
  | missing
  | unavailable
  | noDevice
  | notDirectory
  | isDirectory
  | nameTooLong
  deriving DecidableEq

/-- The text of a refusal. -/
def Refusal.message : Refusal → String
  | nulInPath => "file name contained an unexpected NUL byte"
  | missing => "No such file or directory (os error 2)"
  | unavailable => "Resource temporarily unavailable (os error 11)"
  | noDevice => "No such device (os error 19)"
  | notDirectory => "Not a directory (os error 20)"
  | isDirectory => "Is a directory (os error 21)"
  | nameTooLong => "File name too long (os error 36)"

/-! ### Paths -/

/-- One step along a path. -/
inductive Step
  | stay
  | up
  | down (name : String)
  deriving DecidableEq

/-- The step that a name stands for. -/
def Step.ofName (name : String) : Step :=
  if name = "." then .stay else if name = ".." then .up else .down name

/-- A path: it starts at the root or at the working directory, and a slash at its end is kept. -/
structure Pathname where
  absolute : Bool
  steps : List Step
  slashed : Bool
  deriving DecidableEq

namespace Pathname

/-- A path has fewer bytes than this. -/
def sizeBound : Nat := 4096

/-- The greatest number of bytes of a name. -/
def maxNameSize : Nat := 255

/-- The steps of the names between slashes; where slashes meet there is no name. -/
def stepsOf (names : List String) : List Step :=
  (names.filter fun name => name ≠ "").map Step.ofName

/-- The path that a text stands for. -/
def ofString (text : String) : Except Refusal Pathname :=
  if '\x00' ∈ text.toList then .error .nulInPath
  else if text = "" then .error .missing
  else if sizeBound ≤ text.utf8ByteSize then .error .nameTooLong
  else
    let names := text.splitOn "/"
    .ok ⟨names.head? == some "", stepsOf names, names.getLast? == some ""⟩

end Pathname

end FlatGraph
