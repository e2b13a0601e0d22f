import FlatGraph.Fault
import FlatGraph.Bytes.Digest
import FlatGraph.Format.Record

/-! # The preamble of a file

A header of 64 bytes and a metadata block of 64 bytes, in front of all sections. They hold the
counts, the flags and where each section starts; the offset of an absent section is zero.

* `Header.damage?` finds what is wrong with the magic, the version and the flags, in this order.
* `checksum` is the digest of all that follows the header, and `reseal` stores it. -/

namespace FlatGraph

open Bytes

/-- The bytes of `ZCGRAPH` and a NUL, as a little-endian word. -/
def magicWord : UInt64 := 0x004850415247435a

/-- The version of the format. -/
def formatVersion : UInt16 := 1

/-- The header of a file. -/
structure Header where
  magic : UInt64 := magicWord
  version : UInt16 := formatVersion
  flags : UInt16
  nodeCount : UInt32
  edgeCount : UInt32
  nodeTable : UInt64 := 0
  edgeTable : UInt64 := 0
  offsetIndex : UInt64 := 0
  statistics : UInt64 := 0
  checksum : UInt64 := 0
  deriving DecidableEq

/-- The metadata block of a file. -/
structure Metadata where
  payload : UInt64
  payloadLength : UInt64
  weights : UInt64
  idIndex : UInt64
  deriving DecidableEq

/-- Bytes 20 to 23 are reserved: written as zero and skipped on reading. -/
instance : Record Header where
  width := 64
  bytes h := wordBytes 8 h.magic.toNat ++ wordBytes 2 h.version.toNat ++
    wordBytes 2 h.flags.toNat ++ wordBytes 4 h.nodeCount.toNat ++ wordBytes 4 h.edgeCount.toNat ++
    wordBytes 4 0 ++ wordBytes 8 h.nodeTable.toNat ++ wordBytes 8 h.edgeTable.toNat ++
    wordBytes 8 h.offsetIndex.toNat ++ wordBytes 8 h.statistics.toNat ++
    wordBytes 8 h.checksum.toNat
  readAt b i :=
    { magic := u64At b i
      version := u16At b (i + 8)
      flags := u16At b (i + 10)
      nodeCount := u32At b (i + 12)
      edgeCount := u32At b (i + 16)
      nodeTable := u64At b (i + 24)
      edgeTable := u64At b (i + 32)
      offsetIndex := u64At b (i + 40)
      statistics := u64At b (i + 48)
      checksum := u64At b (i + 56) }

/-- The last 32 bytes are reserved: written as zero and skipped on reading. -/
instance : Record Metadata where
  width := 64
  bytes m := wordBytes 8 m.payload.toNat ++ wordBytes 8 m.payloadLength.toNat ++
    wordBytes 8 m.weights.toNat ++ wordBytes 8 m.idIndex.toNat ++ wordBytes 32 0
  readAt b i :=
    { payload := u64At b i
      payloadLength := u64At b (i + 8)
      weights := u64At b (i + 16)
      idIndex := u64At b (i + 24) }

/-- The number of bytes of the header. -/
def headerSize : Nat := Record.width Header

/-- The number of bytes in front of all sections. -/
def preambleSize : Nat := headerSize + Record.width Metadata

/-- The offset of a section, absent if it is zero. -/
def offset? (raw : UInt64) : Option UInt64 := if raw = 0 then none else some raw

/-- The stored form of the offset of a section. -/
def rawOffset (offset : Option Nat) : UInt64 := UInt64.ofNat (offset.getD 0)

namespace Header

/-- One of the bits of `flag` is set. -/
def hasFlag (h : Header) (flag : UInt16) : Bool := h.flags &&& flag != 0

/-- What is wrong with the magic, the version or the flags. -/
def damage? (h : Header) : Option Damage :=
  if h.magic ≠ magicWord then some .magic
  else if h.version ≠ formatVersion then some (.version h.version formatVersion)
  else
    let unknown := h.flags &&& ~~~Flag.known
    if unknown ≠ 0 then some (.unknownFlags unknown) else none

end Header

/-- The digest of all that follows the header. -/
def checksum (b : ByteArray) : UInt64 := Digest.xxh3 (b.extract headerSize b.size)

/-- The file with the digest of all that follows the header stored in the header. -/
def reseal (b : ByteArray) : ByteArray :=
  append (b.extract 0 56) (wordBytes 8 (checksum b).toNat) ++ b.extract headerSize b.size

end FlatGraph
