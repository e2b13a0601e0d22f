import FlatGraph.Proofs.Format.Record
import FlatGraph.Proofs.Image.Lookup

/-! # Sections are placed exactly

Sections are placed with 64-bit words, whose sums and products might wrap around, and a table is the
slice of the file that its section names, or the empty table if there is no such slice. Nothing
wraps around unnoticed, and every section that is placed has its slice.

* `Section.placeWords_eq`: placed with words, a section is where it is in unbounded arithmetic.
* `Image.slices`: the tables of a file by their slices. `Image.Whole.slices_eq`: they are the same.
* `Image.whole_load`: every table is whole once the sections are found.
* `Image.sections_exact`: what follows for all that is read from an accepted file. -/

namespace FlatGraph

open Bytes

/-! ### Placing with words -/

namespace Section

variable {size offset count width : UInt64} {what : SectionName}

/-- Where `count` records of `width` bytes start, and how many bytes they take. None if a product or
a sum of words wraps around, or if the records do not fit. -/
def bounds? (size offset count width : UInt64) : Option (UInt64 × UInt64) := do
  let start ← (if UInt64.ofNat preambleSize ≤ offset then some offset else none)
  let length ← checkedMul count width
  let stop ← checkedAdd start length
  if stop ≤ size then some (start, length) else none

/-- The section of `count` records of `width` bytes at `offset`, placed with words. -/
def placeWords (size : UInt64) (what : SectionName) (offset count width : UInt64) :
    Except Damage Section :=
  match bounds? size offset count width with
  | some (start, length) => .ok ⟨start.toNat, length.toNat⟩
  | none => .error (.misplaced what offset.toNat count.toNat width.toNat size.toNat)

theorem bounds?_eq_some_iff {start length : UInt64} :
    bounds? size offset count width = some (start, length) ↔
      Fits size.toNat offset.toNat count.toNat width.toNat ∧ start = offset ∧
        length.toNat = count.toNat * width.toNat := by
  have hpreamble : (UInt64.ofNat preambleSize).toNat = preambleSize := rfl
  simp only [bounds?, Option.bind_eq_bind, Option.bind_eq_some_iff, Option.ite_none_right_eq_some,
    Option.some.injEq, Prod.mk.injEq, checkedMul_eq_some_iff, checkedAdd_eq_some_iff,
    UInt64.le_iff_toNat_le, hpreamble, Fits]
  constructor
  · rintro ⟨_, ⟨hfront, rfl⟩, _, hlength, stop, hstop, hle, rfl, rfl⟩
    exact ⟨⟨hfront, by omega⟩, rfl, hlength⟩
  · rintro ⟨⟨hfront, hback⟩, rfl, hlength⟩
    have hsize : size.toNat < sizeBound := size.toNat_lt
    have hstop : (UInt64.ofNat (start.toNat + length.toNat)).toNat = start.toNat + length.toNat :=
      toNat_offset (by omega)
    exact ⟨_, ⟨hfront, rfl⟩, _, hlength, _, hstop, by omega, rfl, rfl⟩

/-- **Placed with words, a section is found** exactly if it fits in unbounded arithmetic. -/
theorem placeWords_eq_ok_iff {s : Section} : placeWords size what offset count width = .ok s ↔
    Fits size.toNat offset.toNat count.toNat width.toNat ∧
      s = ⟨offset.toNat, count.toNat * width.toNat⟩ := by
  unfold placeWords
  cases hb : bounds? size offset count width with
  | some bounds =>
    obtain ⟨start, length⟩ := bounds
    obtain ⟨hfits, rfl, hlength⟩ := bounds?_eq_some_iff.mp hb
    rw [Except.ok.injEq, hlength, eq_comm]
    exact ⟨fun hs => ⟨hfits, hs⟩, And.right⟩
  | none =>
    simp only [reduceCtorEq, false_iff]
    rintro ⟨hfits, -⟩
    have hsize : size.toNat < sizeBound := size.toNat_lt
    have hback := hfits.2
    rw [bounds?_eq_some_iff.mpr ⟨hfits, rfl, toNat_offset (by omega)⟩] at hb
    cases hb

/-- What does not fit is refused with all its numbers, in words and in unbounded arithmetic. -/
theorem placeWords_eq (hw : 0 < width.toNat) : placeWords size what offset count width =
    place size.toNat what offset.toNat count.toNat width.toNat := by
  by_cases hf : Fits size.toNat offset.toNat count.toNat width.toNat
  · rw [placeWords_eq_ok_iff.mpr ⟨hf, rfl⟩, (place_eq_ok_iff hw).mpr ⟨hf, rfl⟩]
  · have hwords : ∀ s, placeWords size what offset count width ≠ .ok s := fun s hs =>
      hf (placeWords_eq_ok_iff.mp hs).1
    have hplace : ∀ s, place size.toNat what offset.toNat count.toNat width.toNat ≠ .ok s :=
      fun s hs => hf ((place_eq_ok_iff hw).mp hs).1
    unfold placeWords at hwords ⊢
    unfold place at hplace ⊢
    split_ifs at hplace ⊢ with hfit
    · exact absurd rfl (hplace _)
    · split at hwords
      · exact absurd rfl (hwords _)
      · rfl

/-! ### Slices of sections -/

/-- The table that fills the section, none if the file has no such slice or the slice is no whole
number of records. -/
def table? (α : Type) [Record α] (b : ByteArray) (s : Section) : Option (Array α) :=
  (slice? b s.start s.stop).bind (Table.ofBytes? α)

/-- The one record that fills the section, none if the file has no such slice or the slice has
another width. -/
def record? (α : Type) [Record α] (b : ByteArray) (s : Section) : Option α :=
  (slice? b s.start s.stop).bind (Record.ofBytes? α)

theorem table?_of_fits {α : Type} [Record α] [LocalRecord α] (hw : 0 < Record.width α)
    {b : ByteArray} {i n : Nat} (hf : Fits b.size i n (Record.width α)) :
    table? α b ⟨i, n * Record.width α⟩ = some (Table.readAt b i n) := Table.ofBytes?_slice hw hf.2

theorem record?_of_fits {α : Type} [Record α] [LocalRecord α] {b : ByteArray} {i : Nat}
    (hf : Fits b.size i 1 (Record.width α)) :
    record? α b ⟨i, 1 * Record.width α⟩ = some (Record.readAt b i) := by
  obtain ⟨-, hback⟩ := hf
  rw [Nat.one_mul] at hback ⊢
  exact Record.ofBytes?_slice hback

end Section

/-- The entries of an index of identifiers, none if the identifiers are the positions. -/
def IdIndex.entries? : IdIndex → Option (Array IdEntry)
  | dense _ => none
  | sparse entries => some entries

namespace Image

variable {image : Image} {b : ByteArray} {h : Header} {m : Metadata}

/-- **The tables of a file by their slices.** A table that has no slice is empty, so is a column, and
a block that has no slice is absent. -/
def slices (b : ByteArray) (h : Header) (m : Metadata) (s : Sections) : Image :=
  { bytes := b
    header := h
    metadata := m
    sections := s
    nodes := (s.nodes.table? NodeRecord b).getD #[]
    edges := (s.edges.table? EdgeRecord b).getD #[]
    weights := s.weights.map fun column => (column.table? UInt64 b).getD #[]
    offsetIndex := s.offsetIndex.map fun column => (column.table? UInt64 b).getD #[]
    ids := match s.idIndex with
      | some table => .sparse ((table.table? IdEntry b).getD #[])
      | none => .dense h.nodeCount.toNat
    statistics := s.statistics.bind fun block => block.record? Statistics b }

/-- **Every table is whole**: each section that there is has its slice, and the table is read from
it. -/
structure Whole (image : Image) : Prop where
  nodes : image.sections.nodes.table? NodeRecord image.bytes = some image.nodes
  edges : image.sections.edges.table? EdgeRecord image.bytes = some image.edges
  weights : image.sections.weights.map (Section.table? UInt64 image.bytes) =
    image.weights.map some
  offsetIndex : image.sections.offsetIndex.map (Section.table? UInt64 image.bytes) =
    image.offsetIndex.map some
  entries : image.sections.idIndex.map (Section.table? IdEntry image.bytes) =
    image.ids.entries?.map some
  statistics : image.sections.statistics.map (Section.record? Statistics image.bytes) =
    image.statistics.map some

theorem map_sectionAt? {α : Type} {raw : UInt64} {count width : Nat} {read? : Section → Option α}
    {read : Section → α}
    (hr : raw ≠ 0 → read? ⟨raw.toNat, count * width⟩ = some (read ⟨raw.toNat, count * width⟩)) :
    (sectionAt? raw count width).map read? = ((sectionAt? raw count width).map read).map some := by
  by_cases hz : raw = 0
  · rw [hz, sectionAt?_zero]
    rfl
  · rw [sectionAt?_of_ne hz, Option.map_some, hr hz]
    rfl

theorem entries?_load (b : ByteArray) (h : Header) (m : Metadata) (s : Sections) :
    (load b h m s).ids.entries? =
      s.idIndex.map fun table => Table.readAt b table.start h.nodeCount.toNat := by
  unfold load
  cases s.idIndex <;> rfl

/-- **Every table is whole** once the sections are found. -/
theorem whole_load (hf : SectionsFit h m b.size) : (load b h m (Sections.named h m)).Whole where
  nodes := Section.table?_of_fits (by decide) hf.nodes
  edges := Section.table?_of_fits (by decide) hf.edges
  weights := map_sectionAt? fun hr => Section.table?_of_fits (by decide) (hf.weights.2 hr)
  offsetIndex := map_sectionAt? fun hr => Section.table?_of_fits (by decide) (hf.offsetIndex.2 hr)
  entries := by
    rw [entries?_load]
    exact map_sectionAt? fun hr => Section.table?_of_fits (by decide) (hf.idIndex.2 hr)
  statistics := map_sectionAt? fun hr => Section.record?_of_fits (hf.statistics.2 hr)

/-- **Reading by slices** never falls back to an empty table if every table is whole. -/
theorem Whole.slices_eq {s : Sections} (hw : (load b h m s).Whole) :
    slices b h m s = load b h m s := by
  have hnodes : (s.nodes.table? NodeRecord b).getD #[] = (load b h m s).nodes :=
    congrArg (Option.getD · #[]) hw.nodes
  have hedges : (s.edges.table? EdgeRecord b).getD #[] = (load b h m s).edges :=
    congrArg (Option.getD · #[]) hw.edges
  have hcolumn : ∀ {column : Option Section} {table : Option (Array UInt64)},
      column.map (Section.table? UInt64 b) = table.map some →
        column.map (fun column => (column.table? UInt64 b).getD #[]) = table := by
    intro column table h
    have hget := congrArg (Option.map fun table? => table?.getD #[]) h
    rw [Option.map_map, Option.map_map] at hget
    exact hget.trans Option.map_id'
  have hids : (slices b h m s).ids = (load b h m s).ids := by
    have hentries := hw.entries
    unfold slices load at *
    cases hi : s.idIndex with
    | none => rfl
    | some table =>
      simp only [hi, Option.map_some, IdIndex.entries?, Option.some.injEq] at hentries ⊢
      rw [hentries, Option.getD_some]
  have hstatistics : s.statistics.bind (Section.record? Statistics b) =
      (load b h m s).statistics := by
    have hblock := hw.statistics
    unfold load at *
    cases hi : s.statistics with
    | none => rfl
    | some block =>
      simp only [hi, Option.map_some, Option.some.injEq] at hblock
      exact hblock
  exact (Image.mk.injEq ..).mpr ⟨rfl, rfl, rfl, rfl, hnodes, hedges, hcolumn hw.weights,
    hcolumn hw.offsetIndex, hids, hstatistics⟩

/-! ### Accepted files -/

theorem sections_of_parse (hp : parse b = .ok image) :
    SectionsFit image.header image.metadata b.size ∧
      image = load b image.header image.metadata (Sections.named image.header image.metadata) := by
  obtain ⟨hb, rfl⟩ := parse_eq_ok_iff.mp hp
  exact ⟨hb.sections, rfl⟩

theorem isSome_sectionAt? {size count width : Nat} {flagged : Bool} {raw : UInt64}
    (hf : FitsIf size flagged raw count width) :
    (sectionAt? raw count width).isSome = flagged := by
  rw [Bool.eq_iff_iff, hf.1]
  by_cases hr : raw = 0
  · simp [hr, sectionAt?_zero]
  · simp [hr, sectionAt?_of_ne hr]

/-- **As much is read as the preamble says**: all records that it counts, and exactly if it has the
flag a weight for each edge, a slot for each node, an entry for each node, and statistics. -/
structure Full (image : Image) : Prop where
  nodeCount : image.nodes.size = image.header.nodeCount.toNat
  edgeCount : image.edges.size = image.header.edgeCount.toNat
  weight : ∀ i < image.edges.size, ∃ weight, image.weight i = .ok weight ∧
    weight.isSome = image.header.hasFlag Flag.weightedEdges
  hasSlots : image.offsetIndex.isSome = image.header.hasFlag Flag.offsetIndex
  slots : ∀ slots, image.offsetIndex = some slots → slots.size = image.nodes.size
  hasEntries : image.ids.entries?.isSome = image.header.hasFlag Flag.sparseIds
  entries : image.ids.size = image.nodes.size
  statistics : image.statistics.isSome = image.header.hasFlag Flag.statistics

theorem size_columns_of_parse (hp : parse b = .ok image) :
    (∀ column, image.weights = some column → column.size = image.edges.size) ∧
      ∀ slots, image.offsetIndex = some slots → slots.size = image.nodes.size := by
  obtain ⟨-, rfl⟩ := parse_eq_ok_iff.mp hp
  refine ⟨fun column hc => ?_, size_offsetIndex_ofFile b⟩
  rw [ofFile_weights] at hc
  split_ifs at hc
  cases hc
  rw [Table.size_readAt, ofFile_edges, edgesOf, Table.size_readAt]

theorem full_of_parse (hp : parse b = .ok image) : image.Full := by
  have hs := Sound.of_parse hp
  obtain ⟨hf, hload⟩ := sections_of_parse hp
  obtain ⟨hcolumn, hslots⟩ := size_columns_of_parse hp
  have hweights : image.weights.isSome = image.header.hasFlag Flag.weightedEdges := by
    rw [← isSome_sectionAt? hf.weights, hload]
    exact Option.isSome_map
  constructor
  case nodeCount => exact size_nodes_of_parse hp
  case edgeCount => exact size_edges_of_parse hp
  case weight =>
    intro i hi
    refine ⟨_, weight_of_edge (edge_of_lt hi), ?_⟩
    rw [← hweights]
    cases hw : image.weights with
    | none => rfl
    | some column =>
      rw [Option.bind_some, Array.getElem?_eq_getElem (by rw [hcolumn column hw]; exact hi)]
      rfl
  case hasSlots =>
    rw [← isSome_sectionAt? hf.offsetIndex, hload]
    exact Option.isSome_map
  case slots => exact hslots
  case hasEntries =>
    rw [← isSome_sectionAt? hf.idIndex, hload, entries?_load]
    exact Option.isSome_map
  case entries => exact hs.size_ids
  case statistics =>
    rw [← isSome_sectionAt? hf.statistics, hload]
    exact Option.isSome_map

/-- **Sections are placed exactly, and no table falls back to an empty one.** With words of 64 bits,
whatever the offset, the count and the size, a section is found exactly if it lies behind the
preamble and ends within the file in unbounded arithmetic, and so are all sections that a preamble
names. Once they are found, each table is read from its slice. Of an accepted file as much is read
as its preamble says. -/
theorem sections_exact :
    (∀ (what : SectionName) (size offset count width : UInt64),
      ((∃ s, Section.placeWords size what offset count width = .ok s) ↔
        128 ≤ offset.toNat ∧ offset.toNat + count.toNat * width.toNat ≤ size.toNat) ∧
      (∀ s, Section.placeWords size what offset count width = .ok s →
        s.start = offset.toNat ∧ s.length = count.toNat * width.toNat) ∧
      (0 < width.toNat → Section.placeWords size what offset count width =
        Section.place size.toNat what offset.toNat count.toNat width.toNat)) ∧
    (∀ (b : ByteArray) (h : Header) (m : Metadata),
      ((∃ s, Sections.locate h m b.size = .ok s) ↔ SectionsFit h m b.size) ∧
      ∀ s, Sections.locate h m b.size = .ok s →
        (load b h m s).Whole ∧ slices b h m s = load b h m s) ∧
    ∀ (b : ByteArray) (image : Image), parse b = .ok image → image.Whole ∧ image.Full := by
  refine ⟨fun what size offset count width => ⟨?_, ?_, Section.placeWords_eq⟩,
    fun b h m => ⟨?_, ?_⟩, fun b image hp => ?_⟩
  · simp only [Section.placeWords_eq_ok_iff, exists_and_left, exists_eq, and_true]
    exact Iff.rfl
  · intro s hs
    obtain ⟨-, rfl⟩ := Section.placeWords_eq_ok_iff.mp hs
    exact ⟨rfl, rfl⟩
  · simp only [Sections.locate_eq_ok_iff, exists_and_left, exists_eq, and_true]
  · intro s hs
    obtain ⟨hf, rfl⟩ := Sections.locate_eq_ok_iff.mp hs
    exact ⟨whole_load hf, (whole_load hf).slices_eq⟩
  · obtain ⟨hf, hload⟩ := sections_of_parse hp
    refine ⟨?_, full_of_parse hp⟩
    rw [hload]
    exact whole_load hf

/-- Records whose number of bytes wraps around to eight are refused. In the file of the small graph
every edge has a weight, every node an entry, and the statistics are there. -/
theorem sections_exact_sample :
    (¬ ∃ s, Section.placeWords 4096 .edgeTable 136 768614336404564651 24 = .ok s) ∧
    ∃ b image, parse b = .ok image ∧ image.nodes.size = 2 ∧ image.edges.size = 2 ∧ image.Whole ∧
      (∃ weight, image.weight 1 = .ok (some weight)) ∧ image.ids.entries?.isSome = true ∧
      image.ids.size = 2 ∧ image.statistics.isSome = true := by
  obtain ⟨hplace, -, hread⟩ := sections_exact
  have hw := Graph.writable_sample
  obtain ⟨hwhole, hfull⟩ := hread _ _ hw.parse_eq
  obtain ⟨-, -, hweights, hstatistics, hids⟩ := Graph.hasFlag_file Graph.sample Options.sample
    (.sparse ((Std.HashMap.emptyWithCapacity.insert 7 0).insert 3 1)) [(0, 1), (0, 0)]
  have hnodes := hfull.nodeCount.trans hw.nodeCount
  have hedges := hfull.edgeCount.trans hw.edgeCount
  refine ⟨fun hs => ?_, _, _, hw.parse_eq, hnodes, hedges, hwhole, ?_,
    hfull.hasEntries.trans hids, hfull.entries.trans hnodes, hfull.statistics.trans hstatistics⟩
  · exact absurd ((hplace .edgeTable 4096 136 768614336404564651 24).1.mp hs).2 (by decide)
  · obtain ⟨weight, hweight, hsome⟩ := hfull.weight 1 (by rw [hedges]; decide)
    rw [ofFile_header, hweights] at hsome
    obtain ⟨bits, rfl⟩ := Option.isSome_iff_exists.mp hsome
    exact ⟨bits, hweight⟩

end Image

end FlatGraph
