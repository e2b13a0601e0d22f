import FlatGraph.Proofs.Image.Format
import FlatGraph.Proofs.Written.Records

/-! # Written files are accepted

The file of a graph satisfies all that is asked of a graph file: its preamble is read back, its
sections fit, its records are threaded, and its identifiers fit the positions.

* `Graph.Writable`: what has been found when a graph is written. `Graph.write_eq_ok_iff`: a file is
  written exactly then.
* `Graph.Writable.isGraphFile`: what is written is a graph file. -/

namespace FlatGraph

open Bytes

/-- **The graph can be written**: its counts are in range, it has a node, the positions of its
identifiers and the ends of its edges are found, and the file is not too large. -/
structure Graph.Writable (g : Graph) (o : Options) (positions : Positions)
    (ends : List (Nat × Nat)) : Prop where
  nodes : g.nodes.size ≤ maxElements
  edges : g.edges.size ≤ maxElements
  inhabited : g.isEmpty = false
  positions_eq : g.positions = .ok positions
  endpoints_eq : g.endpoints positions = .ok ends
  total : (g.layout o positions.isDense).total < sizeBound

namespace Graph

variable {g : Graph} {o : Options} {positions : Positions} {ends : List (Nat × Nat)}

theorem write_eq_ok_iff {b : ByteArray} : g.write o = .ok b ↔
    ∃ positions ends, g.Writable o positions ends ∧
      b = (g.contents o positions.isDense ends).bytes := by
  unfold write
  split_ifs with hnodes hedges hempty
  · simp only [false_iff]
    rintro ⟨_, _, h, -⟩
    exact absurd h.nodes (by omega)
  · simp only [false_iff]
    rintro ⟨_, _, h, -⟩
    exact absurd h.edges (by omega)
  · simp only [false_iff]
    rintro ⟨_, _, h, -⟩
    rw [h.inhabited] at hempty
    cases hempty
  · simp only [bind_eq_ok_iff]
    constructor
    · rintro ⟨positions, hp, ends, he, hb⟩
      split_ifs at hb with ht
      have hb := Except.ok.inj hb
      exact ⟨positions, ends, ⟨by omega, by omega, by simpa using hempty, hp, he, by omega⟩,
        hb.symm⟩
    · rintro ⟨positions, ends, h, rfl⟩
      refine ⟨positions, h.positions_eq, ends, h.endpoints_eq, ?_⟩
      rw [if_neg (Nat.not_le_of_lt h.total)]
      rfl

end Graph

theorem checksum_of_toBytes_eq {b body : ByteArray} {front : List UInt8}
    (hfront : front.length = headerSize) (hb : toBytes b = front ++ toBytes body) :
    checksum b = Digest.xxh3 body := by
  have hat : At body 0 (toBytes body) := List.prefix_rfl
  have hbody := (hat.shift hb).extract
  have hsize : b.size = front.length + body.size := by
    rw [← length_toBytes, hb, List.length_append, length_toBytes]
  rw [Nat.add_zero, hfront] at hbody
  rw [checksum, hsize, hfront, hbody]

/-- The header as it is written, with the digest of what follows it. -/
def Contents.sealed (c : Contents) : Header := { c.header with checksum := Digest.xxh3 c.body }

/-- The bytes of the header. -/
def Contents.front (c : Contents) : ByteArray := append ByteArray.empty (Record.bytes c.sealed)

namespace Contents

variable (c : Contents)

theorem bytes_eq : c.bytes = c.front ++ c.body := rfl

theorem toBytes_bytes : toBytes c.bytes = Record.bytes c.sealed ++ toBytes c.body := by
  rw [bytes_eq, toBytes_front, front, toBytes_append]
  rfl

theorem size_front : c.front.size = headerSize := by
  rw [front, size_append, LawfulRecord.length_bytes]
  rfl

theorem at_sealed : At c.bytes 0 (Record.bytes c.sealed) := by
  have hfront : At c.front 0 (Record.bytes c.sealed) := At.appended ByteArray.empty _
  rw [bytes_eq]
  exact hfront.mono ⟨_, (toBytes_front c.front c.body).symm⟩

theorem headerOf_bytes : headerOf c.bytes = c.sealed :=
  LawfulRecord.readAt_bytes c.sealed c.at_sealed

theorem checksum_bytes : checksum c.bytes = Digest.xxh3 c.body := by
  have hfront : (toBytes c.front).length = headerSize := by
    rw [length_toBytes, c.size_front]
  rw [bytes_eq]
  exact checksum_of_toBytes_eq hfront (toBytes_front c.front c.body)

end Contents

namespace Graph

variable {g : Graph} {o : Options} {positions : Positions} {ends : List (Nat × Nat)}

/-- The file of the graph, once its identifiers are resolved. -/
def file (g : Graph) (o : Options) (positions : Positions) (ends : List (Nat × Nat)) :
    ByteArray := (g.contents o positions.isDense ends).bytes

/-- The byte at which the payloads of the file start. -/
def payloadStart (g : Graph) (o : Options) (positions : Positions) : Nat :=
  (g.layout o positions.isDense).payload

theorem roomy_layout (g : Graph) (o : Options) (dense : Bool) :
    (g.layout o dense).Roomy o dense g.nodes.size g.edges.size (payloadsSize g.payloads) :=
  Layout.roomy_plan _ _ _ _ _

theorem headerOf_file : headerOf (g.file o positions ends) =
    (g.contents o positions.isDense ends).sealed := Contents.headerOf_bytes _

theorem flags_file : (headerOf (g.file o positions ends)).flags =
    o.flags ||| flagIf (!positions.isDense) Flag.sparseIds := by
  rw [headerOf_file]
  rfl

theorem hasFlag_file (g : Graph) (o : Options) (positions : Positions) (ends : List (Nat × Nat)) :
    (headerOf (g.file o positions ends)).flags &&& ~~~Flag.known = 0 ∧
      (headerOf (g.file o positions ends)).hasFlag Flag.offsetIndex = o.offsetIndex ∧
      (headerOf (g.file o positions ends)).hasFlag Flag.weightedEdges = o.weightedEdges ∧
      (headerOf (g.file o positions ends)).hasFlag Flag.statistics = o.statistics ∧
      (headerOf (g.file o positions ends)).hasFlag Flag.sparseIds = !positions.isDense :=
  Header.hasFlag_written flags_file

theorem offsetIndex_file : (headerOf (g.file o positions ends)).offsetIndex =
    rawOffset (g.layout o positions.isDense).offsetIndex := by
  rw [headerOf_file]
  rfl

theorem statistics_file : (headerOf (g.file o positions ends)).statistics =
    rawOffset (g.layout o positions.isDense).statistics := by
  rw [headerOf_file]
  rfl

namespace Writable

variable (h : g.Writable o positions ends)
include h

theorem resolved : g.Resolved ends := by
  refine ⟨length_endpoints h.endpoints_eq, fun e he => ?_⟩
  obtain ⟨i, hi, rfl⟩ := List.getElem_of_mem he
  have hlength := length_endpoints h.endpoints_eq
  obtain ⟨⟨hsource, -⟩, ⟨htarget, -⟩⟩ :=
    Graph.endpoints_eq h.positions_eq h.endpoints_eq (hlength ▸ hi) hi
  exact ⟨hsource, htarget⟩

theorem placed : Placed (g.file o positions ends) (g.contents o positions.isDense ends)
    (g.layout o positions.isDense) :=
  placed_contents g o positions.isDense h.resolved.1 (Contents.size_front _)

/-! ### The preamble -/

theorem metadataOf_file :
    metadataOf (g.file o positions ends) = (g.contents o positions.isDense ends).metadata :=
  LawfulRecord.readAt_bytes _ h.placed.metadata

theorem weights_file : (metadataOf (g.file o positions ends)).weights =
    rawOffset (g.layout o positions.isDense).weights := by
  rw [h.metadataOf_file]
  rfl

theorem idIndex_file : (metadataOf (g.file o positions ends)).idIndex =
    rawOffset (g.layout o positions.isDense).idIndex := by
  rw [h.metadataOf_file]
  rfl

theorem nodeCount : (headerOf (g.file o positions ends)).nodeCount.toNat = g.nodes.size := by
  rw [headerOf_file]
  exact toNat_ofNat_of_le h.nodes

theorem edgeCount : (headerOf (g.file o positions ends)).edgeCount.toNat = g.edges.size := by
  rw [headerOf_file]
  exact toNat_ofNat_of_le h.edges

theorem nodeTable_file : (headerOf (g.file o positions ends)).nodeTable.toNat =
    (g.layout o positions.isDense).nodeTable := by
  have := h.total
  have := (roomy_layout g o positions.isDense).nodeTable.2
  rw [headerOf_file]
  exact toNat_offset (by omega)

theorem edgeTable_file : (headerOf (g.file o positions ends)).edgeTable.toNat =
    (g.layout o positions.isDense).edgeTable := by
  have := h.total
  have := (roomy_layout g o positions.isDense).edgeTable.2
  rw [headerOf_file]
  exact toNat_offset (by omega)

theorem payload_file : (metadataOf (g.file o positions ends)).payload.toNat =
      g.payloadStart o positions ∧
    (metadataOf (g.file o positions ends)).payloadLength.toNat = payloadsSize g.payloads := by
  have := h.total
  have hfits := (roomy_layout g o positions.isDense).payload.2
  rw [h.metadataOf_file]
  exact ⟨toNat_offset (by omega), toNat_offset (by
    show payloadsSize g.payloads < sizeBound
    omega)⟩

/-- **All sections fit.** -/
theorem sectionsFit : SectionsFit (headerOf (g.file o positions ends))
    (metadataOf (g.file o positions ends)) (g.file o positions ends).size := by
  have hroomy := roomy_layout g o positions.isDense
  obtain ⟨-, hoffsets, hweights, hstatistics, hids⟩ := hasFlag_file g o positions ends
  have hpayload := hroomy.payload
  rw [h.placed.size]
  constructor
  case nodes =>
    rw [h.nodeTable_file, h.nodeCount]
    exact hroomy.nodeTable
  case edges =>
    rw [h.edgeTable_file, h.edgeCount]
    exact hroomy.edgeTable
  case weights =>
    rw [hweights, h.weights_file, h.edgeCount]
    exact hroomy.weights.fitsIf h.total
  case payloads =>
    rw [h.payload_file.1, h.payload_file.2]
    exact hroomy.payload
  case offsetIndex =>
    rw [hoffsets, offsetIndex_file, h.nodeCount]
    exact hroomy.offsetIndex.fitsIf h.total
  case idIndex =>
    rw [hids, h.idIndex_file, h.nodeCount]
    exact hroomy.idIndex.fitsIf h.total
  case statistics =>
    rw [hstatistics, statistics_file]
    exact hroomy.statistics.fitsIf h.total

/-! ### Tables -/

theorem nodesOf_file : nodesOf (g.file o positions ends) =
    (g.nodeRecords ends (g.payloadStart o positions)).toArray := by
  have hat := h.placed.nodes.readAt_table
  rw [nodesOf, h.nodeTable_file, h.nodeCount, ← length_nodeRecords g ends]
  exact hat

theorem edgesOf_file : edgesOf (g.file o positions ends) =
    (g.edgeRecords ends (g.payloadStart o positions)).toArray := by
  have hat := h.placed.edges.readAt_table
  rw [edgesOf, h.edgeTable_file, h.edgeCount, ← length_edgeRecords g h.resolved.1]
  exact hat

/-- An optional table is read back from where the preamble says it is. -/
theorem readAt_holds {α : Type} [Record α] [LawfulRecord α] {records : List α}
    {offset : Option Nat} {wanted : Bool} {length : Nat}
    (hb : Holds (g.file o positions ends) (some records) offset)
    (hfits : Layout.FitsWanted (g.layout o positions.isDense).total offset wanted length) :
    rawOffset offset ≠ 0 ∧
      Table.readAt (g.file o positions ends) (rawOffset offset).toNat records.length =
        records.toArray := by
  have ht := h.total
  cases hb with
  | @present _ i bytes =>
    have hi := (hfits.within i rfl).2
    refine ⟨rawOffset_ne_zero hfits ht, ?_⟩
    rw [toNat_rawOffset (by omega)]
    exact bytes.readAt_table

theorem offsetSlotsOf_file (hw : o.offsetIndex = true) : offsetSlotsOf (g.file o positions ends) =
    (nodesOf (g.file o positions ends)).map (·.payload) := by
  have hholds := h.placed.offsetIndex
  have hslots : (g.contents o positions.isDense ends).offsetIndex =
      some ((g.nodeRecords ends (g.payloadStart o positions)).map (·.payload)) := if_pos hw
  rw [hslots] at hholds
  have hread := (h.readAt_holds hholds (roomy_layout g o positions.isDense).offsetIndex).2
  rw [List.length_map, length_nodeRecords] at hread
  rw [offsetSlotsOf, h.nodeCount, offsetIndex_file, hread, h.nodesOf_file]
  exact (List.map_toArray).symm

theorem idEntriesOf_file (hw : positions.isDense = false) :
    idEntriesOf (g.file o positions ends) = g.idEntries.toArray := by
  have hholds := h.placed.idIndex
  have hentries : (g.contents o positions.isDense ends).idIndex = some g.idEntries := by
    rw [hw]
    rfl
  rw [hentries] at hholds
  have hread := (h.readAt_holds hholds (roomy_layout g o positions.isDense).idIndex).2
  rw [length_idEntries] at hread
  rw [idEntriesOf, h.nodeCount, h.idIndex_file, hread]

theorem id_nodesOf {p : Nat} (hp : p < g.nodes.size) :
    (nodesOf (g.file o positions ends))[p]?.map (·.id) = some g.nodes[p].id := by
  obtain ⟨head, offset, -, -, hrecord⟩ := nodeRecord_eq ends (g.payloadStart o positions) hp
  rw [h.nodesOf_file, List.getElem?_toArray, hrecord]
  rfl

theorem size_nodes : (nodesOf (g.file o positions ends)).size = g.nodes.size := by
  rw [Image.size_nodesOf, h.nodeCount]

theorem size_edges : (edgesOf (g.file o positions ends)).size = g.edges.size := by
  rw [edgesOf, Table.size_readAt, h.edgeCount]

theorem ids_nodesOf :
    (nodesOf (g.file o positions ends)).map NodeRecord.id = g.nodes.map Node.id := by
  refine Array.ext_getElem? fun p => ?_
  rw [Array.getElem?_map, Array.getElem?_map]
  by_cases hp : p < g.nodes.size
  · rw [Array.getElem?_eq_getElem hp]
    exact h.id_nodesOf hp
  · have hsize := h.size_nodes
    rw [Array.getElem?_eq_none (by omega), Array.getElem?_eq_none (by omega)]
    rfl

/-- The index of identifiers, if there is one, ascends and names the nodes. -/
theorem sparse_file (hd : positions.isDense = false) :
    Ascending (idEntriesOf (g.file o positions ends)) ∧
      ∀ e ∈ idEntriesOf (g.file o positions ends),
        (nodesOf (g.file o positions ends))[e.position.toNat]?.map (·.id) = some e.id := by
  rw [h.idEntriesOf_file hd]
  refine ⟨ascending_idEntries h.positions_eq, fun e he => ?_⟩
  rw [List.mem_toArray] at he
  obtain ⟨p, hp, rfl⟩ := mem_idEntries.mp he
  show (nodesOf _)[(UInt32.ofNat p).toNat]?.map _ = _
  rw [toNat_ofNat_of_lt hp h.nodes]
  exact h.id_nodesOf hp

/-- **What is written is a graph file.** -/
theorem isGraphFile : IsGraphFile (g.file o positions ends) := by
  obtain ⟨hknown, hoffsets, -, -, hids⟩ := hasFlag_file g o positions ends
  constructor
  case size =>
    have hfits := (roomy_layout g o positions.isDense).nodeTable
    rw [h.placed.size]
    exact Nat.le_trans hfits.1 (Nat.le_trans (Nat.le_add_right _ _) hfits.2)
  case magic =>
    rw [headerOf_file]
    rfl
  case version =>
    rw [headerOf_file]
    rfl
  case flags => exact hknown
  case checksum =>
    rw [headerOf_file]
    exact (Contents.checksum_bytes _).symm
  case nodeCount =>
    rw [h.nodeCount]
    exact h.nodes
  case edgeCount =>
    rw [h.edgeCount]
    exact h.edges
  case sections => exact h.sectionsFit
  case ends =>
    rw [h.size_nodes, h.edgesOf_file]
    intro i hi
    have hi' : i < ends.length := by
      rwa [List.size_toArray, length_edgeRecords g h.resolved.1, ← h.resolved.1] at hi
    obtain ⟨hsource, htarget⟩ := ends_edgeRecord h.resolved h.nodes hi hi'
    rw [hsource, htarget]
    exact h.resolved.2 _ (List.getElem_mem hi')
  case threaded =>
    rw [h.nodesOf_file, h.edgesOf_file]
    exact threaded_records h.resolved h.nodes h.edges
  case offsets =>
    intro hw
    rw [hoffsets] at hw
    exact h.offsetSlotsOf_file hw
  case dense =>
    intro hd p hp
    rw [hids, Bool.not_eq_false', isDense_positions h.positions_eq, isDense_iff] at hd
    have hp' : p < g.nodes.size := by rwa [h.size_nodes] at hp
    have hid := h.id_nodesOf hp'
    rw [Array.getElem?_eq_getElem hp, Option.map_some, Option.some.injEq] at hid
    rw [hid]
    exact hd p hp'
  case sparse =>
    intro hd
    rw [hids, Bool.not_eq_true'] at hd
    exact h.sparse_file hd

/-- The written file is accepted, with the tables that its preamble names. -/
theorem parse_eq : Image.parse (g.file o positions ends) =
    .ok (Image.ofFile (g.file o positions ends)) :=
  Image.parse_eq_ok_iff.mpr ⟨h.isGraphFile, rfl⟩

end Writable

end Graph

/-! ### A small graph -/

/-- Two nodes whose identifiers are not their positions, one of them with an empty payload, and two
edges out of one of them. -/
def Graph.sample : Graph where
  nodes := #[{ id := 7, kind := 1, payload := some ByteArray.empty }, { id := 3 }]
  edges := #[{ source := 7, target := 3, payload := some (ByteArray.mk #[5]) },
    { source := 7, target := 7, kind := 2 }]

/-- All that a file can hold besides the graph. -/
def Options.sample : Options := { offsetIndex := true, weightedEdges := true }

theorem Graph.writable_sample : Graph.sample.Writable Options.sample
    (.sparse ((Std.HashMap.emptyWithCapacity.insert 7 0).insert 3 1)) [(0, 1), (0, 0)] where
  nodes := by decide
  edges := by decide
  inhabited := rfl
  positions_eq := by
    have hdense : Graph.sample.isDense = false := by decide
    rw [Graph.positions, hdense]
    simp [Graph.sample, Positions.enter, Except.map]
    rfl
  endpoints_eq := by
    simp [Graph.endpoints, Graph.sample, Positions.resolve, Positions.find?, Except.map,
      Std.HashMap.getElem_insert]
  total := by
    simp [Graph.layout, Graph.sample, Layout.plan, Layout.place, Graph.payloads, payloadsSize,
      entrySize, Varint.encodedLength, Options.sample, Positions.isDense, preambleSize, headerSize,
      Record.width, align, sizeBound, ByteArray.size]

theorem Graph.exists_write_sample : ∃ b, Graph.sample.write Options.sample = .ok b :=
  ⟨_, Graph.write_eq_ok_iff.mpr ⟨_, _, Graph.writable_sample, rfl⟩⟩

/-- The file of the small graph is accepted, with its two nodes and two edges. -/
theorem Graph.exists_parse_sample : ∃ b image, Image.parse b = .ok image ∧
    image.nodes.size = 2 ∧ image.edges.size = 2 := by
  refine ⟨_, _, Graph.writable_sample.parse_eq, ?_, ?_⟩
  · rw [Image.ofFile_nodes]
    exact Graph.writable_sample.size_nodes
  · rw [Image.ofFile_edges]
    exact Graph.writable_sample.size_edges

theorem Graph.exists_parse_sample_ids : ∃ b image, Image.parse b = .ok image ∧
    image.nodes.map NodeRecord.id = #[7, 3] := by
  refine ⟨_, _, Graph.writable_sample.parse_eq, ?_⟩
  rw [Image.ofFile_nodes, Graph.writable_sample.ids_nodesOf]
  simp [Graph.sample]

end FlatGraph
