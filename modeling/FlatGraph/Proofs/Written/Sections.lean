import FlatGraph.Proofs.Format.Record
import FlatGraph.Proofs.Written.Layout
import FlatGraph.Proofs.Written.Payloads
import FlatGraph.Proofs.Written.Positions
import FlatGraph.Proofs.Written.Threads

/-! # The sections of a written file

A file is written by appending, and its layout is computed beforehand. Both agree: what the layout
says of a section is where its bytes are.

* `Holds`: an optional table is where its offset says.
* `Placed`: all sections are where a layout says.
* `Graph.placed_contents`: they are, in the file of a graph. -/

namespace FlatGraph

open Bytes

/-- The optional table is where its offset says, and has no offset if it is absent. -/
inductive Holds {α : Type} [Record α] (b : ByteArray) : Option (List α) → Option Nat → Prop
  | absent : Holds b none none
  | present {records : List α} {i : Nat} (bytes : At b i (tableBytes records)) :
      Holds b (some records) (some i)

theorem Holds.mono {α : Type} [Record α] {b c : ByteArray} {table : Option (List α)}
    {offset : Option Nat} (h : Holds b table offset) (hbc : toBytes b <+: toBytes c) :
    Holds c table offset := by
  cases h with
  | absent => exact .absent
  | present bytes => exact .present (bytes.mono hbc)

/-- **All sections are where the layout says**, and the file ends where it says. -/
structure Placed (b : ByteArray) (c : Contents) (l : Layout) : Prop where
  metadata : At b headerSize (Record.bytes c.metadata)
  nodes : At b l.nodeTable (tableBytes c.nodes)
  edges : At b l.edgeTable (tableBytes c.edges)
  weights : Holds b c.weights l.weights
  payloads : At b l.payload (c.payloads.flatMap payloadBytes)
  offsetIndex : Holds b c.offsetIndex l.offsetIndex
  idIndex : Holds b c.idIndex l.idIndex
  statistics : Holds b (c.statistics.map fun s => [s]) l.statistics
  size : b.size = l.total

/-! ### Bytes in front -/

section

variable (front : ByteArray) {b c : ByteArray}

theorem toBytes_front (b : ByteArray) : toBytes (front ++ b) = toBytes front ++ toBytes b :=
  ByteArray.toList_data_append

theorem At.behind {i : Nat} {bytes : List UInt8} (h : At b i bytes) :
    At (front ++ b) (front.size + i) bytes := h.shift (toBytes_front front b)

theorem prefix_behind (h : toBytes b <+: toBytes c) :
    toBytes (front ++ b) <+: toBytes (front ++ c) := by
  rw [toBytes_front, toBytes_front]
  exact (List.prefix_append_right_inj _).mpr h

theorem align_add {n : Nat} (h : n % 8 = 0) (m : Nat) : align (n + m) = n + align m := by
  unfold align
  omega

end

/-! ### Sections on multiples of eight bytes -/

section

variable {α : Type} [Record α]

theorem prefix_pushSection (b : ByteArray) (table : Option (List α)) :
    toBytes b <+: toBytes (Contents.pushSection b table) := by
  cases table with
  | none => exact List.prefix_rfl
  | some records => exact (prefix_appendAligned b).trans (prefix_table _ records)

theorem size_table (hw : ∀ r : α, (Record.bytes r).length = Record.width α) (b : ByteArray)
    (records : List α) :
    (Table.push b records).size = b.size + records.length * Record.width α := by
  rw [← length_toBytes, toBytes_table, List.length_append, length_toBytes, length_tableBytes hw]

/-- **A section that is wanted** is where the layout places it, and the next one behind it. -/
theorem place_pushSection (hw : ∀ r : α, (Record.bytes r).length = Record.width α)
    (front b : ByteArray) (hfront : front.size % 8 = 0) (wanted : Bool) (records : List α) :
    Holds (front ++ Contents.pushSection b (if wanted then some records else none))
        (if wanted then some records else none)
        (Layout.place (front.size + b.size) wanted (records.length * Record.width α)).1 ∧
      (Layout.place (front.size + b.size) wanted (records.length * Record.width α)).2 =
        front.size + (Contents.pushSection b (if wanted then some records else none)).size := by
  cases wanted with
  | false => exact ⟨.absent, rfl⟩
  | true =>
    have hat := At.behind front (At.pushed (appendAligned b) records)
    rw [size_appendAligned, ← align_add hfront] at hat
    refine ⟨.present hat, ?_⟩
    show align (front.size + b.size) + _ = front.size + (Table.push (appendAligned b) records).size
    rw [size_table hw, size_appendAligned, align_add hfront, Nat.add_assoc]

end

/-! ### The body of a file -/

namespace Contents

/-- The metadata block and the tables of nodes and edges. -/
def tables (c : Contents) : ByteArray :=
  Table.push (Table.push (append ByteArray.empty (Record.bytes c.metadata)) c.nodes) c.edges

/-- The weights behind the tables. -/
def columns (c : Contents) : ByteArray :=
  match c.weights with
  | none => c.tables
  | some weights => Table.push c.tables weights

/-- The payloads behind the weights. -/
def entries (c : Contents) : ByteArray := c.payloads.foldl pushPayload c.columns

/-- The three sections on multiples of eight bytes behind the payloads. -/
def indices (c : Contents) : ByteArray :=
  pushSection (pushSection (pushSection c.entries c.offsetIndex) c.idIndex)
    (c.statistics.map fun s => [s])

theorem body_eq (c : Contents) : c.body = appendAligned c.indices := rfl

variable (c : Contents)

theorem size_tables : c.tables.size = headerSize + c.nodes.length * Record.width NodeRecord +
    c.edges.length * Record.width EdgeRecord := by
  rw [tables, size_table LawfulRecord.length_bytes, size_table LawfulRecord.length_bytes,
    size_append, LawfulRecord.length_bytes, ByteArray.size_empty, Nat.zero_add]
  rfl

theorem at_tables (front : ByteArray) :
    At (front ++ c.tables) front.size (Record.bytes c.metadata) ∧
      At (front ++ c.tables) (front.size + headerSize) (tableBytes c.nodes) ∧
      At (front ++ c.tables)
        (front.size + headerSize + c.nodes.length * Record.width NodeRecord)
        (tableBytes c.edges) := by
  have hsize : (append ByteArray.empty (Record.bytes c.metadata)).size = headerSize := by
    rw [size_append, LawfulRecord.length_bytes]
    rfl
  have hnodes := At.pushed (append ByteArray.empty (Record.bytes c.metadata)) c.nodes
  have hedges := At.pushed
    (Table.push (append ByteArray.empty (Record.bytes c.metadata)) c.nodes) c.edges
  rw [hsize] at hnodes
  rw [size_table LawfulRecord.length_bytes, hsize] at hedges
  have hprefix : toBytes (Table.push (append ByteArray.empty (Record.bytes c.metadata)) c.nodes) <+:
    toBytes c.tables := prefix_table _ _
  have hmetadata := (At.appended ByteArray.empty (Record.bytes c.metadata)).mono
    ((prefix_table _ c.nodes).trans hprefix)
  refine ⟨At.behind front hmetadata, At.behind front (hnodes.mono hprefix), ?_⟩
  rw [Nat.add_assoc]
  exact At.behind front hedges

theorem prefix_columns : toBytes c.tables <+: toBytes c.columns := by
  unfold columns
  cases c.weights with
  | none => exact List.prefix_rfl
  | some weights => exact prefix_table _ weights

theorem holds_columns {c : Contents} {wanted : Bool} {weights : List UInt64}
    (hw : c.weights = if wanted then some weights else none) (front : ByteArray) :
    Holds (front ++ c.columns) c.weights
        (if wanted then some (front.size + c.tables.size) else none) ∧
      c.columns.size = c.tables.size +
        if wanted then weights.length * Record.width UInt64 else 0 := by
  rw [columns, hw]
  cases wanted with
  | false => exact ⟨.absent, rfl⟩
  | true =>
    refine ⟨.present (At.behind front (At.pushed c.tables weights)), ?_⟩
    exact size_table LawfulRecord.length_bytes c.tables weights

theorem at_entries (front : ByteArray) :
    At (front ++ c.entries) (front.size + c.columns.size) (c.payloads.flatMap payloadBytes) :=
  At.behind front (.of_toBytes_eq (toBytes_foldl_pushPayload c.columns c.payloads))

theorem prefix_entries : toBytes c.columns <+: toBytes c.entries :=
  ⟨_, (toBytes_foldl_pushPayload c.columns c.payloads).symm⟩

theorem size_entries : c.entries.size = c.columns.size + payloadsSize c.payloads := by
  rw [← length_toBytes, entries, toBytes_foldl_pushPayload, List.length_append,
    length_flatMap_payloadBytes, length_toBytes]

theorem prefix_indices : toBytes c.entries <+: toBytes c.indices :=
  ((prefix_pushSection _ _).trans (prefix_pushSection _ _)).trans (prefix_pushSection _ _)

theorem prefix_body : toBytes c.indices <+: toBytes c.body := prefix_appendAligned _

end Contents

/-! ### The file of a graph -/

namespace Graph

variable (g : Graph) (o : Options) (dense : Bool) {ends : List (Nat × Nat)}

theorem length_payloads : g.payloads.length = g.nodes.size + g.edges.size := by
  simp [payloads]

theorem length_nodeRecords (ends : List (Nat × Nat)) (start : Nat) :
    (g.nodeRecords ends start).length = g.nodes.size := by
  simp only [nodeRecords, List.length_zipWith, List.length_zip, Array.length_toList,
    (g.sized_threads ends).heads, length_payloadOffsets, length_payloads]
  omega

theorem length_edgeRecords (hends : ends.length = g.edges.size) (start : Nat) :
    (g.edgeRecords ends start).length = g.edges.size := by
  simp only [edgeRecords, List.length_zipWith, List.length_zip, Array.length_toList,
    List.length_drop, (g.sized_threads ends).links, length_payloadOffsets, length_payloads]
  omega

theorem idIndex_contents : (g.contents o dense ends).idIndex =
    if !dense then some g.idEntries else none := by
  cases dense <;> rfl

theorem statistics_contents : (g.contents o dense ends).statistics.map (fun s => [s]) =
    if o.statistics then some [Statistics.compute g.nodes.size ends] else none := by
  show Option.map _ (if o.statistics then some _ else none) = _
  split_ifs <;> rfl

section

variable {g o dense} (hends : ends.length = g.edges.size) {front : ByteArray}
  (hfront : front.size = headerSize)
include hends hfront

theorem tables_contents (o : Options) (dense : Bool) :
    front.size + (g.contents o dense ends).tables.size =
      (g.layout o dense).edgeTable + g.edges.size * Record.width EdgeRecord := by
  have hnodes : (g.contents o dense ends).nodes.length = g.nodes.size :=
    length_nodeRecords g ends _
  have hedges : (g.contents o dense ends).edges.length = g.edges.size :=
    length_edgeRecords g hends _
  rw [Contents.size_tables, hnodes, hedges, hfront, ← Nat.add_assoc, ← Nat.add_assoc]
  rfl

theorem columns_contents (o : Options) (dense : Bool) :
    Holds (front ++ (g.contents o dense ends).columns) (g.contents o dense ends).weights
        (g.layout o dense).weights ∧
      (g.layout o dense).payload = front.size + (g.contents o dense ends).columns.size := by
  have hend := tables_contents hends hfront o dense
  obtain ⟨hweights, hsize⟩ := Contents.holds_columns (c := g.contents o dense ends) rfl front
  rw [hend] at hweights
  refine ⟨hweights, ?_⟩
  rw [hsize, List.length_map, Array.length_toList, ← Nat.add_assoc, hend]
  show (if o.weightedEdges then _ else _) = _
  split_ifs <;> rfl

/-- The sections on multiples of eight bytes are where the layout says at the time they are pushed,
and its cursors are behind them. -/
theorem places_contents (o : Options) (dense : Bool) {c : Contents}
    (hc : c = g.contents o dense ends) :
    (Holds (front ++ Contents.pushSection c.entries c.offsetIndex) c.offsetIndex
        (g.layout o dense).offsetIndex ∧
      Holds (front ++ Contents.pushSection (Contents.pushSection c.entries c.offsetIndex) c.idIndex)
        c.idIndex (g.layout o dense).idIndex ∧
      Holds (front ++ c.indices) (c.statistics.map fun s => [s]) (g.layout o dense).statistics) ∧
    Layout.afterPayloads o dense g.nodes.size g.edges.size (payloadsSize g.payloads) =
      front.size + c.entries.size ∧
    Layout.afterOffsetIndex o dense g.nodes.size g.edges.size (payloadsSize g.payloads) =
      front.size + (Contents.pushSection c.entries c.offsetIndex).size ∧
    Layout.afterIdIndex o dense g.nodes.size g.edges.size (payloadsSize g.payloads) =
      front.size +
        (Contents.pushSection (Contents.pushSection c.entries c.offsetIndex) c.idIndex).size ∧
    Layout.afterStatistics o dense g.nodes.size g.edges.size (payloadsSize g.payloads) =
      front.size + c.indices.size := by
  have hmod : front.size % 8 = 0 := by
    rw [hfront]
    rfl
  have hn : c.nodes.length = g.nodes.size := by
    rw [hc]
    exact length_nodeRecords g ends _
  have hcursor : Layout.afterPayloads o dense g.nodes.size g.edges.size (payloadsSize g.payloads) =
      front.size + c.entries.size := by
    rw [c.size_entries, ← Nat.add_assoc, hc, ← (columns_contents hends hfront o dense).2]
    rfl
  have hslots : c.offsetIndex =
      if o.offsetIndex then some (c.nodes.map NodeRecord.payload) else none := by
    rw [hc]
    rfl
  have hids : c.idIndex = if !dense then some g.idEntries else none := by
    rw [hc, idIndex_contents]
  have hblock : c.statistics.map (fun s => [s]) =
      if o.statistics then some [Statistics.compute g.nodes.size ends] else none := by
    rw [hc, statistics_contents]
  -- each section is placed at the cursor behind the one before
  obtain ⟨hoffsetIndex, hcursor₁⟩ := place_pushSection LawfulRecord.length_bytes front c.entries
    hmod o.offsetIndex (c.nodes.map NodeRecord.payload)
  rw [List.length_map, hn, ← hcursor, ← hslots] at hoffsetIndex hcursor₁
  obtain ⟨hidIndex, hcursor₂⟩ := place_pushSection LawfulRecord.length_bytes front
    (Contents.pushSection c.entries c.offsetIndex) hmod (!dense) g.idEntries
  rw [length_idEntries, ← hcursor₁, ← hids] at hidIndex hcursor₂
  obtain ⟨hstatistics, hcursor₃⟩ := place_pushSection Statistics.length_bytes front
    (Contents.pushSection (Contents.pushSection c.entries c.offsetIndex) c.idIndex) hmod
    o.statistics [Statistics.compute g.nodes.size ends]
  rw [← hcursor₂, ← hblock] at hstatistics hcursor₃
  exact ⟨⟨hoffsetIndex, hidIndex, hstatistics⟩, hcursor, hcursor₁, hcursor₂, hcursor₃⟩

theorem indices_contents (o : Options) (dense : Bool) :
    Holds (front ++ (g.contents o dense ends).indices) (g.contents o dense ends).offsetIndex
        (g.layout o dense).offsetIndex ∧
      Holds (front ++ (g.contents o dense ends).indices) (g.contents o dense ends).idIndex
        (g.layout o dense).idIndex ∧
      Holds (front ++ (g.contents o dense ends).indices)
        ((g.contents o dense ends).statistics.map fun s => [s]) (g.layout o dense).statistics ∧
      Layout.afterStatistics o dense g.nodes.size g.edges.size (payloadsSize g.payloads) =
        front.size + (g.contents o dense ends).indices.size := by
  set c := g.contents o dense ends with hc
  obtain ⟨⟨hoffsetIndex, hidIndex, hstatistics⟩, -, -, -, hcursor⟩ :=
    places_contents hends hfront o dense hc
  have hbehind := prefix_behind front
    (prefix_pushSection (Contents.pushSection (Contents.pushSection c.entries c.offsetIndex)
      c.idIndex) (c.statistics.map fun s => [s]))
  have hbetween := prefix_behind front
    (prefix_pushSection (Contents.pushSection c.entries c.offsetIndex) c.idIndex)
  exact ⟨hoffsetIndex.mono (hbetween.trans hbehind), hidIndex.mono hbehind, hstatistics, hcursor⟩

end

/-- **The sections of the file of a graph** are where its layout says. -/
theorem placed_contents (hends : ends.length = g.edges.size) {front : ByteArray}
    (hfront : front.size = headerSize) :
    Placed (front ++ (g.contents o dense ends).body) (g.contents o dense ends)
      (g.layout o dense) := by
  obtain ⟨hweights, hpayload⟩ := columns_contents hends hfront o dense
  obtain ⟨hoffsetIndex, hidIndex, hstatistics, hcursor⟩ := indices_contents hends hfront o dense
  set c := g.contents o dense ends
  have hn : c.nodes.length = g.nodes.size := length_nodeRecords g ends _
  have hmod : front.size % 8 = 0 := by
    rw [hfront]
    rfl
  obtain ⟨hmetadata, hnodes, hedges⟩ := c.at_tables front
  rw [hn, hfront] at hedges
  rw [hfront] at hmetadata hnodes
  have hpayloads := c.at_entries front
  rw [← hpayload] at hpayloads
  have hindices := prefix_behind front c.prefix_body
  have hentries := (prefix_behind front c.prefix_indices).trans hindices
  have hcolumns := (prefix_behind front c.prefix_entries).trans hentries
  have htables := (prefix_behind front c.prefix_columns).trans hcolumns
  exact {
    metadata := hmetadata.mono htables
    nodes := hnodes.mono htables
    edges := hedges.mono htables
    weights := hweights.mono hcolumns
    payloads := hpayloads.mono hentries
    offsetIndex := hoffsetIndex.mono hindices
    idIndex := hidIndex.mono hindices
    statistics := hstatistics.mono hindices
    size := by
      rw [Contents.body_eq, ByteArray.size_append, size_appendAligned, ← align_add hmod]
      exact congrArg align hcursor.symm }

end Graph

end FlatGraph
