/-! # Flags and sentinels of the format

The bits that say which optional sections a file has, the options that ask for them, and the values
that stand for an absent link or offset. -/

namespace FlatGraph

/-! ### Sentinels -/

/-- The link past the last edge of a chain. -/
def noEdge : UInt32 := 0xffffffff

/-- The position of no node. -/
def noNode : UInt32 := 0xffffffff

/-- The offset of an absent payload. -/
def noPayload : UInt64 := 0xffffffffffffffff

/-- The distance of a node that was not reached. -/
def unreached : Nat := 0xffffffff

/-- The greatest number of nodes or edges: the sentinels are no positions. -/
def maxElements : Nat := 0xfffffffe

/-- Every file is smaller than this, since its offsets are 64-bit words. -/
def sizeBound : Nat := 0x10000000000000000

/-! ### Flags -/

namespace Flag

/-- An index of the payload offsets of the nodes is present. -/
def offsetIndex : UInt16 := 1

/-- A column of edge weights is present. -/
def weightedEdges : UInt16 := 2

/-- Kept for compression; it changes nothing else in the file. -/
def compress : UInt16 := 4

/-- A block of statistics is present. -/
def statistics : UInt16 := 8

/-- Some identifier is not its position; an index of the identifiers is present. -/
def sparseIds : UInt16 := 16

/-- All flags. -/
def known : UInt16 := offsetIndex ||| weightedEdges ||| compress ||| statistics ||| sparseIds

end Flag

/-- The flag if it is wanted, no flag otherwise. -/
def flagIf (wanted : Bool) (flag : UInt16) : UInt16 := if wanted then flag else 0

/-! ### Options -/

/-- What a file is asked to hold besides the graph. -/
structure Options where
  offsetIndex : Bool := false
  weightedEdges : Bool := false
  compress : Bool := false
  statistics : Bool := true
  deriving DecidableEq

/-- The flags that the options ask for. -/
def Options.flags (o : Options) : UInt16 :=
  flagIf o.offsetIndex Flag.offsetIndex ||| flagIf o.weightedEdges Flag.weightedEdges |||
    flagIf o.compress Flag.compress ||| flagIf o.statistics Flag.statistics

end FlatGraph
