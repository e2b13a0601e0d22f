import FlatGraph.Proofs.Written.Draft

/-! # The sections of a written file tile it

Where the sections are is computed three times: when the file is laid out, when the offsets of the
payloads go into the records, and when the bytes are appended. All agree, and no byte is left over.

* `Tiled`: sections lie one behind the other up to the end of the file, on multiples of eight bytes,
  with nothing but zeros between them.
* `Packed`: the entries that the stored offsets of payloads lead to lie one behind the other.
* `Graph.planned_of_write`: both hold of every file that is written, and it is written in place
  without a slip. -/

namespace FlatGraph

open Bytes

/-! ### Runs of sections -/

/-- **The bytes between two places** are fewer than eight zeros, up to a multiple of eight bytes. -/
structure Gap (b : ByteArray) (i j : Nat) : Prop where
  le : i ≤ j
  lt : j < i + 8
  aligned : j % 8 = 0
  zeros : At b i (List.replicate (j - i) 0)

/-- **The sections lie one behind the other** from byte `i` up to the end of the file, but for the
gaps between them. -/
inductive Tiled (b : ByteArray) : (i : Nat) → List Section → Prop
  | done {i : Nat} (gap : Gap b i b.size) : Tiled b i []
  | next {i : Nat} {s : Section} {rest : List Section} (gap : Gap b i s.start)
      (tiled : Tiled b s.stop rest) : Tiled b i (s :: rest)

theorem Gap.refl {b : ByteArray} {i : Nat} (h : i % 8 = 0) : Gap b i i := by
  refine ⟨Nat.le_refl i, by omega, h, ?_⟩
  rw [Nat.sub_self]
  exact List.nil_prefix

theorem Gap.mono {b c : ByteArray} {i j : Nat} (h : Gap b i j) (hbc : toBytes b <+: toBytes c) :
    Gap c i j := ⟨h.le, h.lt, h.aligned, h.zeros.mono hbc⟩

theorem gap_appendAligned (front b : ByteArray) (hfront : front.size % 8 = 0) :
    Gap (front ++ appendAligned b) (front.size + b.size) (align (front.size + b.size)) := by
  refine ⟨le_align _, align_lt _, Nat.mul_mod_left _ 8, ?_⟩
  rw [align_add hfront, Nat.add_sub_add_left]
  exact At.behind front (.of_toBytes_eq (toBytes_appendZeros b _))

theorem gap_pushSection {α : Type} [Record α] (front b : ByteArray) (hfront : front.size % 8 = 0)
    {wanted : Bool} {records : List α} {table : Option (List α)}
    (ht : table = if wanted then some records else none) (hw : wanted = true) :
    Gap (front ++ Contents.pushSection b table) (front.size + b.size)
      (align (front.size + b.size)) := by
  rw [ht, if_pos hw]
  exact (gap_appendAligned front b hfront).mono (prefix_behind front (prefix_table _ records))

namespace Tiled

variable {b : ByteArray} {i : Nat} {sections : List Section}

theorem size_mod (h : Tiled b i sections) : b.size % 8 = 0 := by
  induction h with
  | done gap => exact gap.aligned
  | next _ _ ih => exact ih

theorem of_mem (h : Tiled b i sections) :
    i ≤ b.size ∧ ∀ s ∈ sections, i ≤ s.start ∧ s.start % 8 = 0 ∧ s.stop ≤ b.size := by
  induction h with
  | done gap => exact ⟨gap.le, fun s hs => by cases hs⟩
  | @next i s rest gap _ ih =>
    have hle := gap.le
    have hstart : s.start ≤ s.stop := Nat.le_add_right _ _
    obtain ⟨hstop, hrest⟩ := ih
    refine ⟨by omega, fun t ht => ?_⟩
    rcases List.mem_cons.mp ht with rfl | ht
    · exact ⟨hle, gap.aligned, hstop⟩
    · obtain ⟨hfront, haligned, hback⟩ := hrest t ht
      exact ⟨by omega, haligned, hback⟩

/-- **No two sections overlap**, and they are in order. -/
theorem pairwise (h : Tiled b i sections) : sections.Pairwise fun s t => s.stop ≤ t.start := by
  induction h with
  | done => exact .nil
  | next _ tiled ih => exact .cons (fun t ht => (tiled.of_mem.2 t ht).1) ih

theorem flush {length : Nat} (hi : i % 8 = 0) (h : Tiled b (i + length) sections) :
    Tiled b i (⟨i, length⟩ :: sections) := .next (.refl hi) h

theorem flushIf {wanted : Bool} {length : Nat} (hi : i % 8 = 0)
    (h : Tiled b (if wanted then i + length else i) sections) :
    Tiled b i (((if wanted then some i else none).map fun j => ⟨j, length⟩).toList ++ sections) := by
  cases wanted with
  | false => exact h
  | true => exact h.flush hi

theorem place {wanted : Bool} {length : Nat} (hgap : wanted = true → Gap b i (align i))
    (h : Tiled b (Layout.place i wanted length).2 sections) :
    Tiled b i (((Layout.place i wanted length).1.map fun j => ⟨j, length⟩).toList ++ sections) := by
  cases wanted with
  | false => exact h
  | true => exact .next (hgap rfl) h

end Tiled

/-! ### What a file stores of its layout -/

/-- The sections of a layout in their order, for as many nodes and edges. -/
def Layout.sections (l : Layout) (nodes edges : Nat) : List Section :=
  ⟨l.nodeTable, nodes * Record.width NodeRecord⟩ ::
    ⟨l.edgeTable, edges * Record.width EdgeRecord⟩ ::
      ((l.weights.map fun i => ⟨i, edges * Record.width UInt64⟩).toList ++
        ⟨l.payload, l.payloadLength⟩ ::
          ((l.offsetIndex.map fun i => ⟨i, nodes * Record.width UInt64⟩).toList ++
            ((l.idIndex.map fun i => ⟨i, nodes * Record.width IdEntry⟩).toList ++
              ((l.statistics.map fun i => ⟨i, Record.width Statistics⟩).toList ++ []))))

/-- The sections in front of the aligned ones take multiples of eight bytes. -/
theorem Layout.aligned_plan (o : Options) (dense : Bool) (nodes edges length : Nat) :
    (plan o dense nodes edges length).nodeTable % 8 = 0 ∧
      (plan o dense nodes edges length).edgeTable % 8 = 0 ∧
      ((plan o dense nodes edges length).edgeTable + edges * Record.width EdgeRecord) % 8 = 0 ∧
      (plan o dense nodes edges length).payload % 8 = 0 := by
  have hnodes : (plan o dense nodes edges length).nodeTable = 128 := rfl
  have hedges : (plan o dense nodes edges length).edgeTable = 128 + nodes * 24 := rfl
  have hweights : (plan o dense nodes edges length).edgeTable + edges * Record.width EdgeRecord =
      128 + nodes * 24 + edges * 24 := rfl
  have hpayload : (plan o dense nodes edges length).payload = if o.weightedEdges then
      128 + nodes * 24 + edges * 24 + edges * 8 else 128 + nodes * 24 + edges * 24 := rfl
  refine ⟨by omega, by omega, by omega, ?_⟩
  rw [hpayload]
  split_ifs <;> omega

/-- The layout that the preamble of a file stores. The file ends where its bytes do. -/
def layoutOf (b : ByteArray) : Layout where
  nodeTable := (headerOf b).nodeTable.toNat
  edgeTable := (headerOf b).edgeTable.toNat
  weights := (offset? (metadataOf b).weights).map UInt64.toNat
  payload := (metadataOf b).payload.toNat
  payloadLength := (metadataOf b).payloadLength.toNat
  offsetIndex := (offset? (headerOf b).offsetIndex).map UInt64.toNat
  idIndex := (offset? (metadataOf b).idIndex).map UInt64.toNat
  statistics := (offset? (headerOf b).statistics).map UInt64.toNat
  total := b.size

/-- The sections that the preamble of a file names. -/
def sectionsOf (b : ByteArray) : List Section :=
  (layoutOf b).sections (headerOf b).nodeCount.toNat (headerOf b).edgeCount.toNat

/-- The stored offsets of the payloads: those of the nodes, then those of the edges. -/
def offsetsOf (b : ByteArray) : List (Option UInt64) :=
  (nodesOf b).toList.map (payload? ·.payload) ++ (edgesOf b).toList.map (payload? ·.payload)

/-- **Every reserved word is zero**: in the header, in the metadata block, in each entry of the
index of identifiers and in the block of statistics. -/
structure ReservedZero (b : ByteArray) : Prop where
  header : At b 20 (List.replicate 4 0)
  metadata : At b (headerSize + 32) (List.replicate 32 0)
  idIndex : ∀ i, (layoutOf b).idIndex = some i → ∀ k < (headerOf b).nodeCount.toNat,
    At b (i + k * Record.width IdEntry + 12) (List.replicate 4 0)
  statistics : ∀ i, (layoutOf b).statistics = some i → At b (i + 36) (List.replicate 4 0)

/-- **The entries of the payloads lie one behind the other** between two places: each that is
present is where its stored offset says, its length in front of its bytes. -/
inductive Packed (b : ByteArray) (stop : Nat) :
    (i : Nat) → List (Option ByteArray) → List (Option UInt64) → Prop
  | done : Packed b stop stop [] []
  | absent {i : Nat} {payloads : List (Option ByteArray)} {offsets : List (Option UInt64)}
      (packed : Packed b stop i payloads offsets) :
      Packed b stop i (none :: payloads) (none :: offsets)
  | present {i : Nat} {payload : ByteArray} {offset : UInt64}
      {payloads : List (Option ByteArray)} {offsets : List (Option UInt64)}
      (start : offset.toNat = i)
      (bytes : At b i (Varint.encode payload.size ++ toBytes payload))
      (packed : Packed b stop (i + (Varint.encodedLength payload.size + payload.size))
        payloads offsets) :
      Packed b stop i (some payload :: payloads) (some offset :: offsets)

theorem packed_payloadOffsets {b : ByteArray} {start stop : Nat}
    {payloads : List (Option ByteArray)} (hbytes : At b start (payloads.flatMap payloadBytes))
    (hstop : start + payloadsSize payloads = stop) (hbound : stop < sizeBound) :
    Packed b stop start payloads
      ((payloadOffsets start payloads).map fun offset => payload? (rawPayload offset)) := by
  fun_induction payloadOffsets start payloads with
  | case1 start =>
    obtain rfl : start = stop := hstop
    exact .done
  | case2 start rest ih => exact .absent (ih hbytes hstop)
  | case3 start payload rest ih =>
    rw [List.flatMap_cons] at hbytes
    obtain ⟨hfirst, hrest⟩ := At.append_iff.mp hbytes
    rw [length_payloadBytes] at hrest
    have hstop' : start + entrySize payload + payloadsSize rest = stop := by
      rw [← hstop, Nat.add_assoc]
      rfl
    have hentry : 0 < entrySize payload :=
      Nat.lt_of_lt_of_le (Varint.encodedLength_pos _) (Nat.le_add_right _ _)
    have hnone : noPayload.toNat + 1 = sizeBound := rfl
    obtain ⟨hraw, hto⟩ := payload?_rawPayload start (by omega)
    rw [List.map_cons, hraw]
    exact .present hto hfirst (ih hrest hstop')

/-! ### Reserved words -/

section

variable {b : ByteArray} {i : Nat}

theorem Header.reserved_at {h : Header} (hat : At b i (Record.bytes h)) :
    At b (i + 20) (List.replicate 4 0) := by
  simp only [Record.bytes, At.append_iff, List.length_append, length_wordBytes,
    Nat.reduceAdd] at hat
  obtain ⟨⟨⟨⟨⟨⟨-, hreserved⟩, -⟩, -⟩, -⟩, -⟩, -⟩ := hat
  exact hreserved

theorem Metadata.reserved_at {m : Metadata} (hat : At b i (Record.bytes m)) :
    At b (i + 32) (List.replicate 32 0) := by
  simp only [Record.bytes, At.append_iff, List.length_append, length_wordBytes,
    Nat.reduceAdd] at hat
  exact hat.2

theorem IdEntry.reserved_at {e : IdEntry} (hat : At b i (Record.bytes e)) :
    At b (i + 12) (List.replicate 4 0) := by
  simp only [Record.bytes, At.append_iff, List.length_append, length_wordBytes,
    Nat.reduceAdd] at hat
  exact hat.2

theorem Statistics.reserved_at {s : Statistics} (hat : At b i (Record.bytes s)) :
    At b (i + 36) (List.replicate 4 0) := by
  simp only [Record.bytes, At.append_iff, List.length_append, length_wordBytes,
    Nat.reduceAdd] at hat
  exact hat.2

end

/-! ### The file of a graph -/

theorem Holds.exists_at {α : Type} [Record α] {b : ByteArray} {table : Option (List α)} {i : Nat}
    (h : Holds b table (some i)) : ∃ records, table = some records ∧ At b i (tableBytes records) := by
  cases h with
  | present bytes => exact ⟨_, rfl, bytes⟩

theorem Layout.FitsWanted.offset?_rawOffset {total length : Nat} {offset : Option Nat}
    {wanted : Bool} (h : FitsWanted total offset wanted length) (ht : total < sizeBound) :
    (offset? (rawOffset offset)).map UInt64.toNat = offset := by
  cases offset with
  | none => rfl
  | some i =>
    have hin := (h.within i rfl).2
    rw [offset?, if_neg (rawOffset_ne_zero h ht), Option.map_some, toNat_rawOffset (by omega)]

namespace Graph

variable {g : Graph} {o : Options} {positions : Positions} {ends : List (Nat × Nat)}

theorem payloads_nodeRecords (ends : List (Nat × Nat)) (start : Nat) :
    (g.nodeRecords ends start).map (·.payload) =
      ((payloadOffsets start g.payloads).take g.nodes.size).map rawPayload := by
  refine List.ext_getElem? fun p => ?_
  rw [List.getElem?_map, List.getElem?_map]
  by_cases hp : p < g.nodes.size
  · obtain ⟨head, offset, -, hoffset, hrecord⟩ := nodeRecord_eq ends start hp
    rw [hrecord, List.getElem?_take_of_lt hp, hoffset]
    rfl
  · have hlength := length_nodeRecords g ends start
    rw [List.getElem?_eq_none (by omega), List.getElem?_take_eq_none (by omega)]
    rfl

theorem payloads_edgeRecords (hends : ends.length = g.edges.size) (start : Nat) :
    (g.edgeRecords ends start).map (·.payload) =
      ((payloadOffsets start g.payloads).drop g.nodes.size).map rawPayload := by
  refine List.ext_getElem? fun i => ?_
  rw [List.getElem?_map, List.getElem?_map, List.getElem?_drop]
  by_cases hi : i < g.edges.size
  · obtain ⟨link, offset, -, hoffset, hrecord⟩ := edgeRecord_eq start hi (hends ▸ hi)
    rw [hrecord, hoffset]
    rfl
  · have hlength := length_edgeRecords g hends start
    have hoffsets := length_payloadOffsets start g.payloads
    rw [length_payloads] at hoffsets
    rw [List.getElem?_eq_none (by omega), List.getElem?_eq_none (by omega)]
    rfl

namespace Writable

variable (h : g.Writable o positions ends)
include h

/-- **The preamble stores the layout.** -/
theorem layoutOf_file : layoutOf (g.file o positions ends) = g.layout o positions.isDense := by
  have hroomy := roomy_layout g o positions.isDense
  have htotal := h.total
  obtain ⟨hpayload, hlength⟩ := h.payload_file
  unfold layoutOf
  rw [h.nodeTable_file, h.edgeTable_file, h.weights_file, hpayload, hlength, offsetIndex_file,
    h.idIndex_file, statistics_file, hroomy.weights.offset?_rawOffset htotal,
    hroomy.offsetIndex.offset?_rawOffset htotal, hroomy.idIndex.offset?_rawOffset htotal,
    hroomy.statistics.offset?_rawOffset htotal, h.placed.size]
  rfl

theorem offsetsOf_file : offsetsOf (g.file o positions ends) =
    (payloadOffsets (g.payloadStart o positions) g.payloads).map
      fun offset => payload? (rawPayload offset) := by
  have hnodes := payloads_nodeRecords (g := g) ends (g.payloadStart o positions)
  have hedges := payloads_edgeRecords h.resolved.1 (g.payloadStart o positions)
  unfold offsetsOf
  rw [h.nodesOf_file, h.edgesOf_file]
  calc (g.nodeRecords ends (g.payloadStart o positions)).map (payload? ·.payload) ++
        (g.edgeRecords ends (g.payloadStart o positions)).map (payload? ·.payload)
      = ((g.nodeRecords ends (g.payloadStart o positions)).map (·.payload) ++
          (g.edgeRecords ends (g.payloadStart o positions)).map (·.payload)).map payload? := by
        rw [List.map_append, List.map_map, List.map_map]
        rfl
    _ = ((payloadOffsets (g.payloadStart o positions) g.payloads).map rawPayload).map payload? := by
        rw [hnodes, hedges, ← List.map_append, List.take_append_drop]
    _ = _ := List.map_map

theorem reservedZero : ReservedZero (g.file o positions ends) where
  header := Header.reserved_at (Contents.at_sealed _)
  metadata := Metadata.reserved_at h.placed.metadata
  idIndex i hi k hk := by
    rw [h.layoutOf_file] at hi
    rw [h.nodeCount] at hk
    have hholds := h.placed.idIndex
    rw [idIndex_contents, hi] at hholds
    obtain ⟨records, hrecords, hbytes⟩ := hholds.exists_at
    split_ifs at hrecords
    cases hrecords
    rw [← length_idEntries g] at hk
    exact IdEntry.reserved_at (hbytes.getElem LawfulRecord.length_bytes hk)
  statistics i hi := by
    rw [h.layoutOf_file] at hi
    have hholds := h.placed.statistics
    rw [statistics_contents, hi] at hholds
    obtain ⟨records, hrecords, hbytes⟩ := hholds.exists_at
    split_ifs at hrecords
    cases hrecords
    have hat := hbytes.getElem Statistics.length_bytes (show 0 < 1 by decide)
    rw [Nat.zero_mul, Nat.add_zero] at hat
    exact Statistics.reserved_at hat

theorem packed : Packed (g.file o positions ends)
    (g.payloadStart o positions + payloadsSize g.payloads) (g.payloadStart o positions) g.payloads
    (offsetsOf (g.file o positions ends)) := by
  rw [h.offsetsOf_file]
  have hstop := (roomy_layout g o positions.isDense).payload.2
  have htotal := h.total
  exact packed_payloadOffsets h.placed.payloads rfl (by
    rw [payloadStart]
    omega)

/-- There are gaps in front of the sections on multiples of eight bytes, as far as they are wanted,
and one at the end of the file. -/
theorem gaps :
    (o.offsetIndex = true → Gap (g.file o positions ends)
      (Layout.afterPayloads o positions.isDense g.nodes.size g.edges.size (payloadsSize g.payloads))
      (align (Layout.afterPayloads o positions.isDense g.nodes.size g.edges.size
        (payloadsSize g.payloads)))) ∧
    ((!positions.isDense) = true → Gap (g.file o positions ends)
      (Layout.afterOffsetIndex o positions.isDense g.nodes.size g.edges.size
        (payloadsSize g.payloads))
      (align (Layout.afterOffsetIndex o positions.isDense g.nodes.size g.edges.size
        (payloadsSize g.payloads)))) ∧
    (o.statistics = true → Gap (g.file o positions ends)
      (Layout.afterIdIndex o positions.isDense g.nodes.size g.edges.size (payloadsSize g.payloads))
      (align (Layout.afterIdIndex o positions.isDense g.nodes.size g.edges.size
        (payloadsSize g.payloads)))) ∧
    Gap (g.file o positions ends)
      (Layout.afterStatistics o positions.isDense g.nodes.size g.edges.size
        (payloadsSize g.payloads)) (g.layout o positions.isDense).total := by
  set c := g.contents o positions.isDense ends with hc
  obtain ⟨-, hcursor, hcursor₁, hcursor₂, hcursor₃⟩ :=
    places_contents h.resolved.1 c.size_front o positions.isDense hc
  have hmod : c.front.size % 8 = 0 := by
    rw [c.size_front]
    rfl
  have hfile : g.file o positions ends = c.front ++ appendAligned c.indices := by
    rw [file, ← hc, c.bytes_eq, c.body_eq]
  rw [hfile]
  have hindices : toBytes (c.front ++ c.indices) <+:
      toBytes (c.front ++ appendAligned c.indices) :=
    prefix_behind c.front (prefix_appendAligned _)
  have hbehind := (prefix_behind c.front
    (prefix_pushSection (Contents.pushSection (Contents.pushSection c.entries c.offsetIndex)
      c.idIndex) (c.statistics.map fun s => [s]))).trans hindices
  have hbetween := (prefix_behind c.front
    (prefix_pushSection (Contents.pushSection c.entries c.offsetIndex) c.idIndex)).trans hbehind
  rw [hcursor, hcursor₁, hcursor₂]
  refine ⟨fun hw => ?_, fun hw => ?_, fun hw => ?_, ?_⟩
  · have hslots : c.offsetIndex =
        if o.offsetIndex then some (c.nodes.map NodeRecord.payload) else none := rfl
    exact (gap_pushSection c.front c.entries hmod hslots hw).mono hbetween
  · exact (gap_pushSection c.front _ hmod (idIndex_contents g o _) hw).mono hbehind
  · exact (gap_pushSection c.front _ hmod (statistics_contents g o _) hw).mono hindices
  · have hend := gap_appendAligned c.front c.indices hmod
    rwa [← hcursor₃] at hend

/-- **The sections tile the file.** -/
theorem tiled : Tiled (g.file o positions ends) preambleSize
    ((g.layout o positions.isDense).sections g.nodes.size g.edges.size) := by
  obtain ⟨hgap₁, hgap₂, hgap₃, hend⟩ := h.gaps
  rw [← h.placed.size] at hend
  obtain ⟨hpreamble, hedges, hweights, hpayload⟩ := Layout.aligned_plan o positions.isDense
    g.nodes.size g.edges.size (payloadsSize g.payloads)
  refine .flush hpreamble ?_
  refine .flush hedges ?_
  refine .flushIf hweights ?_
  refine .flush hpayload ?_
  exact .place hgap₁ (.place hgap₂ (.place hgap₃ (.done hend)))

end Writable

/-- **The file is what was planned** for a graph whose identifiers are resolved. -/
structure Planned (g : Graph) (o : Options) (positions : Positions) (ends : List (Nat × Nat))
    (b : ByteArray) : Prop where
  /-- Written in place, the file comes out the same, whether slips are reported or ignored. -/
  emitted : ∀ checked, g.emit checked o positions.isDense ends = .ok b
  /-- The preamble stores the layout, and the file has the size that was laid out. -/
  layout : layoutOf b = g.layout o positions.isDense
  contents : Placed b (g.contents o positions.isDense ends) (layoutOf b)
  nodeTable : (layoutOf b).nodeTable = 128
  tiled : Tiled b 128 (sectionsOf b)
  /-- No two sections overlap, and each is within the file, on a multiple of eight bytes. -/
  ordered : (sectionsOf b).Pairwise fun s t => s.stop ≤ t.start
  within : ∀ s ∈ sectionsOf b, s.start % 8 = 0 ∧ s.stop ≤ b.size
  aligned : b.size % 8 = 0
  reserved : ReservedZero b
  packed : Packed b ((layoutOf b).payload + (layoutOf b).payloadLength) (layoutOf b).payload
    g.payloads (offsetsOf b)

theorem Writable.planned (h : g.Writable o positions ends) :
    g.Planned o positions ends (g.file o positions ends) := by
  have hlayout := h.layoutOf_file
  have htiled : Tiled (g.file o positions ends) 128 (sectionsOf (g.file o positions ends)) := by
    rw [sectionsOf, hlayout, h.nodeCount, h.edgeCount]
    exact h.tiled
  constructor
  case emitted => exact h.emit_eq
  case layout => exact hlayout
  case contents =>
    rw [hlayout]
    exact h.placed
  case nodeTable =>
    rw [hlayout]
    rfl
  case tiled => exact htiled
  case ordered => exact htiled.pairwise
  case within => exact fun s hs => (htiled.of_mem.2 s hs).2
  case aligned => exact htiled.size_mod
  case reserved => exact h.reservedZero
  case packed =>
    rw [hlayout]
    exact h.packed

/-- **Every file that is written is what was planned**: it is written in place without a slip, its
sections tile it at the offsets that its preamble stores, its reserved words are zero, and the
entries that the stored offsets lead to fill the payload section. -/
theorem planned_of_write {b : ByteArray} (h : g.write o = .ok b) :
    ∃ positions ends, g.positions = .ok positions ∧ g.endpoints positions = .ok ends ∧
      g.Planned o positions ends b := by
  obtain ⟨positions, ends, hw, rfl⟩ := write_eq_ok_iff.mp h
  exact ⟨positions, ends, hw.positions_eq, hw.endpoints_eq, hw.planned⟩

theorem planned_of_write_sample : ∃ b, sample.write Options.sample = .ok b ∧
    ∃ positions ends, sample.positions = .ok positions ∧ sample.endpoints positions = .ok ends ∧
      sample.Planned Options.sample positions ends b := by
  obtain ⟨b, hb⟩ := exists_write_sample
  exact ⟨b, hb, planned_of_write hb⟩

end Graph

end FlatGraph
