import FlatGraph.Bytes.Word
import FlatGraph.Format.Flags

/-! # Node, edge and identifier records

The records of the three tables of a file, with their fields as stored. A link or an offset that is
absent is stored as its sentinel.

* The out-edges of a node are a chain: the node names the first edge, each edge names the next. -/

namespace FlatGraph

open Bytes

/-- The record of a node. -/
structure NodeRecord where
  id : UInt64
  kind : UInt16
  flags : UInt16
  first : UInt32 := noEdge
  payload : UInt64 := noPayload
  deriving DecidableEq

/-- The record of an edge. Its ends are positions of nodes. -/
structure EdgeRecord where
  source : UInt32
  target : UInt32
  kind : UInt32
  next : UInt32 := noEdge
  payload : UInt64 := noPayload
  deriving DecidableEq

/-- An entry of the index of identifiers: where the node with an identifier is. -/
structure IdEntry where
  id : UInt64
  position : UInt32
  deriving DecidableEq

instance : Record NodeRecord where
  width := 24
  bytes r := wordBytes 8 r.id.toNat ++ wordBytes 2 r.kind.toNat ++ wordBytes 2 r.flags.toNat ++
    wordBytes 4 r.first.toNat ++ wordBytes 8 r.payload.toNat
  readAt b i :=
    { id := u64At b i
      kind := u16At b (i + 8)
      flags := u16At b (i + 10)
      first := u32At b (i + 12)
      payload := u64At b (i + 16) }

instance : Record EdgeRecord where
  width := 24
  bytes r := wordBytes 4 r.source.toNat ++ wordBytes 4 r.target.toNat ++
    wordBytes 4 r.kind.toNat ++ wordBytes 4 r.next.toNat ++ wordBytes 8 r.payload.toNat
  readAt b i :=
    { source := u32At b i
      target := u32At b (i + 4)
      kind := u32At b (i + 8)
      next := u32At b (i + 12)
      payload := u64At b (i + 16) }

/-- The last four bytes of an entry are reserved: written as zero and skipped on reading. -/
instance : Record IdEntry where
  width := 16
  bytes r := wordBytes 8 r.id.toNat ++ wordBytes 4 r.position.toNat ++ wordBytes 4 0
  readAt b i := { id := u64At b i, position := u32At b (i + 8) }

/-! ### Links and offsets as options -/

/-- The link, absent if it is the sentinel. -/
def link? (raw : UInt32) : Option UInt32 := if raw = noEdge then none else some raw

/-- The offset, absent if it is the sentinel. -/
def payload? (raw : UInt64) : Option UInt64 := if raw = noPayload then none else some raw

/-- The stored form of a link. -/
def rawLink (link : Option Nat) : UInt32 := (link.map UInt32.ofNat).getD noEdge

/-- The stored form of a payload offset. -/
def rawPayload (offset : Option Nat) : UInt64 := (offset.map UInt64.ofNat).getD noPayload

end FlatGraph
