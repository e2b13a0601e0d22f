/-! # Advisory locks

A file is free, shared by some readers, or held by one writer. A lock is tried and never waited for.

* `Lock.tryShared?`, `Lock.tryExclusive?`, `Lock.release`. -/

namespace FlatGraph

/-- The lock of a file. A shared lock has one holder and some others. -/
inductive Lock
  | free
  | shared (others : Nat)
  | exclusive
  deriving DecidableEq

namespace Lock

/-- The lock with one more reader; a writer keeps readers out. -/
def tryShared? : Lock → Option Lock
  | free => some (shared 0)
  | shared others => some (shared (others + 1))
  | exclusive => none

/-- The lock held by a writer; any holder keeps it out. -/
def tryExclusive? : Lock → Option Lock
  | free => some exclusive
  | _ => none

/-- The lock with one holder less. -/
def release : Lock → Lock
  | shared (others + 1) => shared others
  | _ => free

theorem release_of_tryShared {l m : Lock} (h : l.tryShared? = some m) : m.release = l := by
  cases l with
  | free => cases h; rfl
  | shared others => cases h; rfl
  | exclusive => cases h

theorem release_of_tryExclusive {l m : Lock} (h : l.tryExclusive? = some m) :
    m.release = l := by
  cases l with
  | free => cases h; rfl
  | shared others => cases h
  | exclusive => cases h

end Lock

end FlatGraph
