import FlatGraph.Image.Basic

/-! # Reading a graph file

A file is accepted if its preamble is sound, its checksum is that of its bytes, its sections fit,
and its tables agree with each other.

* `Image.parse` answers the file in memory, or the first damage in this order.
* `Image.damage?` is the first disagreement between the tables: ends and links of the edges, chains
  of the nodes, coverage of the edges by the chains, the index of payload offsets, and the
  identifiers. -/

namespace FlatGraph

namespace Image

/-! ### Edges and chains -/

/-- What is wrong with the ends or the link of the edge at a position. -/
def edgeDamage? (image : Image) (position : Nat) (e : EdgeRecord) : Option Damage :=
  let nodes := image.nodes.size
  if nodes ≤ e.source.toNat ∨ nodes ≤ e.target.toNat then
    some (.endpoint position e.source.toNat e.target.toNat nodes)
  else if e.next ≠ noEdge ∧ (e.next.toNat ≤ position ∨ image.edges.size ≤ e.next.toNat) then
    some (.link position e.next.toNat)
  else none

/-- What is wrong with the chain of the node at a position. -/
def chainDamage? (image : Image) (position : Nat) (n : NodeRecord) : Option Damage :=
  if n.first ≠ noEdge ∧ image.edges.size ≤ n.first.toNat then
    some (.chainHead position n.first.toNat)
  else
    (chainEdges image.edges n.first.toNat).findSome? fun e =>
      if e.source.toNat ≠ position then some (.foreignEdge position e.source.toNat) else none

/-- The number of edges on all chains. -/
def chained (image : Image) : Nat := chainedEdges image.nodes image.edges

/-- The chains do not cover the edge table. -/
def coverageDamage? (image : Image) : Option Damage :=
  if image.chained ≠ image.edges.size then some (.coverage image.chained image.edges.size)
  else none

/-! ### Offsets and identifiers -/

/-- What is wrong with the index of payload offsets. -/
def offsetDamage? (image : Image) : Option Damage :=
  match image.offsetIndex with
  | none => none
  | some slots =>
    (image.nodes.zip slots).toList.zipIdx.findSome? fun ((n, slot), i) =>
      if slot ≠ n.payload then some (.offsetSlot i slot n.payload) else none

/-- The entries are in strictly ascending order of their identifiers. -/
def ascending : List IdEntry → Bool
  | e :: f :: rest => e.id < f.id && ascending (f :: rest)
  | _ => true

/-- The node that an entry names carries another identifier, or is not there. -/
def entryDamage? (image : Image) (entry : IdEntry) : Option Damage :=
  if (image.nodes[entry.position.toNat]?.map (·.id)) = some entry.id then none
  else some (.idEntry entry.id entry.position.toNat)

/-- What is wrong with the identifiers. -/
def idDamage? (image : Image) : Option Damage :=
  match image.ids with
  | .dense _ =>
    image.nodes.toList.zipIdx.findSome? fun (n, i) =>
      if n.id.toNat ≠ i then some (.positionalId i) else none
  | .sparse entries =>
    if ascending entries.toList then entries.toList.findSome? image.entryDamage?
    else some .unsortedIds

/-! ### Files -/

/-- The first disagreement between the tables. -/
def damage? (image : Image) : Option Damage :=
  image.edges.toList.zipIdx.findSome? (fun (e, i) => image.edgeDamage? i e)
    <|> image.nodes.toList.zipIdx.findSome? (fun (n, i) => image.chainDamage? i n)
    <|> image.coverageDamage?
    <|> image.offsetDamage?
    <|> image.idDamage?

/-- **The file in memory**, or the first damage of the bytes. -/
def parse (b : ByteArray) : Except Damage Image :=
  if b.size < preambleSize then .error (.truncated b.size preambleSize)
  else
    let header : Header := Record.readAt b 0
    match header.damage? with
    | some damage => .error damage
    | none =>
      if header.checksum ≠ checksum b then .error (.checksum header.checksum (checksum b))
      else if maxElements < header.nodeCount.toNat ∨ maxElements < header.edgeCount.toNat then
        .error .reservedCount
      else do
        let metadata : Metadata := Record.readAt b headerSize
        let sections ← Sections.locate header metadata b.size
        let image := load b header metadata sections
        match image.damage? with
        | some damage => .error damage
        | none => .ok image

end Image

end FlatGraph
