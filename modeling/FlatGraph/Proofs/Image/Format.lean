import FlatGraph.Proofs.Image.Identifiers
import FlatGraph.Proofs.Image.Threading

/-! # The files that are accepted

What a graph file is, without a reader: a sound preamble, sections that fit, ends of edges that are
positions of nodes, the one threading of the edges, an index of payload offsets that repeats the
records, and identifiers that fit the positions (`IsGraphFile`).

* `Sections.locate_eq_ok_iff`: the sections are found exactly if each of them fits.
* `Image.damage?_eq_none_iff`: the tables agree with each other exactly if they are `Sound`.
* `Image.parse_eq_ok_iff`: a file is accepted exactly if it is a graph file, and then its tables are
  those that its preamble names. -/

namespace FlatGraph

/-! ### Sections that fit -/

theorem bind_eq_ok_iff {ε α β : Type} {x : Except ε α} {f : α → Except ε β} {b : β} :
    (x >>= f) = .ok b ↔ ∃ a, x = .ok a ∧ f a = .ok b := by
  cases x with
  | error e => simp [bind, Except.bind]
  | ok a => simp [bind, Except.bind]

/-- As many records of the width as counted lie behind the preamble and within the file. -/
def Fits (size offset count width : Nat) : Prop :=
  preambleSize ≤ offset ∧ offset + count * width ≤ size

/-- An optional section is flagged exactly if it has an offset, and then it fits. -/
def FitsIf (size : Nat) (flagged : Bool) (raw : UInt64) (count width : Nat) : Prop :=
  (flagged = true ↔ raw ≠ 0) ∧ (raw ≠ 0 → Fits size raw.toNat count width)

/-- An optional section at the place its offset names. -/
def sectionAt? (raw : UInt64) (count width : Nat) : Option Section :=
  (offset? raw).map fun offset => ⟨offset.toNat, count * width⟩

namespace Section

variable {size : Nat} {what : SectionName} {count width : Nat}

theorem place_eq_ok_iff {offset : Nat} (hw : 0 < width) {s : Section} :
    place size what offset count width = .ok s ↔
      Fits size offset count width ∧ s = ⟨offset, count * width⟩ := by
  have hd := Nat.le_div_iff_mul_le hw (x := count) (y := size - offset)
  unfold place Fits
  by_cases h : preambleSize ≤ offset ∧ offset ≤ size ∧ count ≤ (size - offset) / width
  · rw [if_pos h, Except.ok.injEq, eq_comm]
    have := hd.mp h.2.2
    exact ⟨fun hs => ⟨⟨h.1, by omega⟩, hs⟩, And.right⟩
  · rw [if_neg h]
    simp only [reduceCtorEq, false_iff]
    rintro ⟨⟨h1, h2⟩, -⟩
    exact h ⟨h1, by omega, hd.mpr (by omega)⟩

theorem placeIf_eq_ok_iff {flagged : Bool} {raw : UInt64} (hw : 0 < width) {s : Option Section} :
    placeIf size what flagged (offset? raw) count width = .ok s ↔
      FitsIf size flagged raw count width ∧ s = sectionAt? raw count width := by
  unfold placeIf FitsIf sectionAt? offset?
  by_cases hr : raw = 0
  · cases flagged <;> simp [hr, eq_comm]
  · cases flagged with
    | false => simp [hr]
    | true =>
      simp only [hr, if_false, Option.map_some]
      cases hp : place size what raw.toNat count width with
      | error damage =>
        have hn : ¬ Fits size raw.toNat count width := fun hf => by
          have hok : place size what raw.toNat count width = .ok _ :=
            (place_eq_ok_iff hw).mpr ⟨hf, rfl⟩
          rw [hp] at hok
          cases hok
        simp [Except.map, hn]
      | ok found =>
        obtain ⟨hf, rfl⟩ := (place_eq_ok_iff hw).mp hp
        simp [Except.map, hr, hf, eq_comm]

end Section

/-- All sections fit. -/
structure SectionsFit (h : Header) (m : Metadata) (size : Nat) : Prop where
  nodes : Fits size h.nodeTable.toNat h.nodeCount.toNat (Record.width NodeRecord)
  edges : Fits size h.edgeTable.toNat h.edgeCount.toNat (Record.width EdgeRecord)
  weights : FitsIf size (h.hasFlag Flag.weightedEdges) m.weights h.edgeCount.toNat
    (Record.width UInt64)
  payloads : Fits size m.payload.toNat m.payloadLength.toNat 1
  offsetIndex : FitsIf size (h.hasFlag Flag.offsetIndex) h.offsetIndex h.nodeCount.toNat
    (Record.width UInt64)
  idIndex : FitsIf size (h.hasFlag Flag.sparseIds) m.idIndex h.nodeCount.toNat
    (Record.width IdEntry)
  statistics : FitsIf size (h.hasFlag Flag.statistics) h.statistics 1 (Record.width Statistics)

namespace Sections

/-- The sections at the places that the preamble names. -/
def named (h : Header) (m : Metadata) : Sections where
  nodes := ⟨h.nodeTable.toNat, h.nodeCount.toNat * Record.width NodeRecord⟩
  edges := ⟨h.edgeTable.toNat, h.edgeCount.toNat * Record.width EdgeRecord⟩
  weights := sectionAt? m.weights h.edgeCount.toNat (Record.width UInt64)
  payloads := ⟨m.payload.toNat, m.payloadLength.toNat * 1⟩
  offsetIndex := sectionAt? h.offsetIndex h.nodeCount.toNat (Record.width UInt64)
  idIndex := sectionAt? m.idIndex h.nodeCount.toNat (Record.width IdEntry)
  statistics := sectionAt? h.statistics 1 (Record.width Statistics)

/-- **The sections are found** exactly if they fit, each at the place that the preamble names. -/
theorem locate_eq_ok_iff {h : Header} {m : Metadata} {size : Nat} {s : Sections} :
    locate h m size = .ok s ↔ SectionsFit h m size ∧ s = named h m := by
  have hnode : 0 < Record.width NodeRecord := by decide
  have hedge : 0 < Record.width EdgeRecord := by decide
  have hslot : 0 < Record.width UInt64 := by decide
  have hentry : 0 < Record.width IdEntry := by decide
  have hblock : 0 < Record.width Statistics := by decide
  unfold locate
  simp only [bind_eq_ok_iff, Section.place_eq_ok_iff hnode, Section.place_eq_ok_iff hedge,
    Section.place_eq_ok_iff Nat.one_pos, Section.placeIf_eq_ok_iff hslot,
    Section.placeIf_eq_ok_iff hentry, Section.placeIf_eq_ok_iff hblock]
  constructor
  · rintro ⟨_, ⟨h1, rfl⟩, _, ⟨h2, rfl⟩, _, ⟨h3, rfl⟩, _, ⟨h4, rfl⟩, _, ⟨h5, rfl⟩, _, ⟨h6, rfl⟩,
      _, ⟨h7, rfl⟩, hs⟩
    cases hs
    exact ⟨⟨h1, h2, h3, h4, h5, h6, h7⟩, rfl⟩
  · rintro ⟨⟨h1, h2, h3, h4, h5, h6, h7⟩, rfl⟩
    exact ⟨_, ⟨h1, rfl⟩, _, ⟨h2, rfl⟩, _, ⟨h3, rfl⟩, _, ⟨h4, rfl⟩, _, ⟨h5, rfl⟩, _, ⟨h6, rfl⟩,
      _, ⟨h7, rfl⟩, rfl⟩

end Sections

/-! ### Tables that agree -/

/-- **The tables agree with each other**: the ends of the edges are positions, the links are those
of the one threading, the index of payload offsets repeats the records, and the identifiers fit. -/
structure Consistent (nodes : Array NodeRecord) (edges : Array EdgeRecord)
    (offsetIndex : Option (Array UInt64)) (ids : IdIndex) : Prop where
  ends : ∀ i (hi : i < edges.size),
    edges[i].source.toNat < nodes.size ∧ edges[i].target.toNat < nodes.size
  threaded : Threaded nodes edges
  offsets : ∀ slots, offsetIndex = some slots → slots = nodes.map (·.payload)
  ids : ids.Fits nodes

/-- The tables of the file agree with each other. -/
abbrev Image.Sound (image : Image) : Prop :=
  Consistent image.nodes image.edges image.offsetIndex image.ids

namespace Image

variable {image : Image}

theorem edgeDamage?_eq_none_iff {i : Nat} {e : EdgeRecord} : image.edgeDamage? i e = none ↔
    (e.source.toNat < image.nodes.size ∧ e.target.toNat < image.nodes.size) ∧
      (e.next = noEdge ∨ (i < e.next.toNat ∧ e.next.toNat < image.edges.size)) := by
  unfold edgeDamage?
  by_cases h : image.nodes.size ≤ e.source.toNat ∨ image.nodes.size ≤ e.target.toNat
  · simp only [if_pos h, reduceCtorEq, false_iff]
    rintro ⟨h', -⟩
    omega
  · simp only [if_neg h]
    by_cases hn : e.next = noEdge
    · simp only [hn, ne_eq, not_true, false_and, if_false, true_or, and_true, true_iff]
      omega
    · simp only [ne_eq, hn, not_false_eq_true, true_and, false_or]
      split_ifs with hl
      · simp only [false_iff]
        rintro ⟨-, h'⟩
        omega
      · simp only [true_iff]
        omega

theorem chainDamage?_eq_none_iff {p : Nat} {n : NodeRecord} : image.chainDamage? p n = none ↔
    (n.first = noEdge ∨ n.first.toNat < image.edges.size) ∧
      ∀ i ∈ chain image.edges n.first.toNat, sourceAt image.edges i = some p := by
  unfold chainDamage?
  split_ifs with h
  · simp only [false_iff]
    rintro ⟨h' | h', -⟩
    · exact h.1 h'
    · omega
  · have hh : n.first = noEdge ∨ n.first.toNat < image.edges.size := by
      by_cases hn : n.first = noEdge
      · exact Or.inl hn
      · exact Or.inr (Nat.lt_of_not_le fun hle => h ⟨hn, hle⟩)
    simp only [List.findSome?_eq_none_iff, chainEdges, List.mem_filterMap, hh, true_and]
    constructor
    · intro hc i hi
      have he := Array.getElem?_eq_getElem (chain_lt hi)
      have := hc _ ⟨i, hi, he⟩
      rw [sourceAt_getElem (chain_lt hi)]
      by_contra hne
      rw [if_pos fun heq => hne (by rw [heq])] at this
      cases this
    · rintro hc e ⟨i, hi, he⟩
      have := hc i hi
      rw [sourceAt, he, Option.map_some, Option.some.injEq] at this
      rw [if_neg (by simpa using this)]

theorem coverageDamage?_eq_none_iff :
    image.coverageDamage? = none ↔ chainedEdges image.nodes image.edges = image.edges.size := by
  unfold coverageDamage? chained
  split_ifs with h
  · simp [h]
  · simpa using h

theorem offsetDamage?_eq_none_iff
    (hs : ∀ slots, image.offsetIndex = some slots → slots.size = image.nodes.size) :
    image.offsetDamage? = none ↔
      ∀ slots, image.offsetIndex = some slots → slots = image.nodes.map (·.payload) := by
  unfold offsetDamage?
  cases ho : image.offsetIndex with
  | none => simp
  | some slots =>
    have hsize := hs slots ho
    simp only [Option.some.injEq, forall_eq', findSome?_zipIdx_eq_none_iff, Array.size_zip,
      Array.getElem_zip, ite_eq_right_iff, reduceCtorEq, imp_false, ne_eq, not_not]
    constructor
    · intro h
      refine Array.ext (by simp [hsize]) fun p hp _ => ?_
      rw [Array.getElem_map]
      exact h p (by omega)
    · rintro rfl p hp
      rw [Array.getElem_map]

/-- **The checks pass exactly on sound tables.** -/
theorem damage?_eq_none_iff (hs : image.ids.size = image.nodes.size)
    (ho : ∀ slots, image.offsetIndex = some slots → slots.size = image.nodes.size) :
    image.damage? = none ↔ image.Sound := by
  unfold damage?
  simp only [Option.orElse_eq_none, findSome?_zipIdx_eq_none_iff, edgeDamage?_eq_none_iff,
    chainDamage?_eq_none_iff, coverageDamage?_eq_none_iff,
    offsetDamage?_eq_none_iff ho, idDamage?_eq_none_iff hs]
  constructor
  · rintro ⟨hedges, hnodes, hcover, hoffsets, hids⟩
    refine ⟨fun i hi => (hedges i hi).1, Checked.threaded ?_, hoffsets, hids⟩
    exact ⟨fun i hi => (hedges i hi).2, fun p hp => (hnodes p hp).1,
      fun p hp => (hnodes p hp).2, hcover⟩
  · rintro ⟨hends, hthreaded, hoffsets, hids⟩
    have hc := hthreaded.checked fun i hi => (hends i hi).1
    exact ⟨fun i hi => ⟨hends i hi, hc.link i hi⟩, fun p hp => ⟨hc.head p hp, hc.walk p hp⟩,
      hc.cover, hoffsets, hids⟩

end Image

/-! ### Files -/

/-- The header of a file. -/
def headerOf (b : ByteArray) : Header := Record.readAt b 0

/-- The metadata block of a file. -/
def metadataOf (b : ByteArray) : Metadata := Record.readAt b headerSize

/-- The node table of a file, where the header says it is. -/
def nodesOf (b : ByteArray) : Array NodeRecord :=
  Table.readAt b (headerOf b).nodeTable.toNat (headerOf b).nodeCount.toNat

/-- The edge table of a file, where the header says it is. -/
def edgesOf (b : ByteArray) : Array EdgeRecord :=
  Table.readAt b (headerOf b).edgeTable.toNat (headerOf b).edgeCount.toNat

/-- The index of payload offsets of a file, where the header says it is. -/
def offsetSlotsOf (b : ByteArray) : Array UInt64 :=
  Table.readAt b (headerOf b).offsetIndex.toNat (headerOf b).nodeCount.toNat

/-- The index of identifiers of a file, where the metadata block says it is. -/
def idEntriesOf (b : ByteArray) : Array IdEntry :=
  Table.readAt b (metadataOf b).idIndex.toNat (headerOf b).nodeCount.toNat

/-- **The bytes are those of a graph file.** -/
structure IsGraphFile (b : ByteArray) : Prop where
  size : preambleSize ≤ b.size
  magic : (headerOf b).magic = magicWord
  version : (headerOf b).version = formatVersion
  flags : (headerOf b).flags &&& ~~~Flag.known = 0
  checksum : (headerOf b).checksum = checksum b
  nodeCount : (headerOf b).nodeCount.toNat ≤ maxElements
  edgeCount : (headerOf b).edgeCount.toNat ≤ maxElements
  sections : SectionsFit (headerOf b) (metadataOf b) b.size
  ends : ∀ i (hi : i < (edgesOf b).size), (edgesOf b)[i].source.toNat < (nodesOf b).size ∧
    (edgesOf b)[i].target.toNat < (nodesOf b).size
  threaded : Threaded (nodesOf b) (edgesOf b)
  offsets : (headerOf b).hasFlag Flag.offsetIndex = true →
    offsetSlotsOf b = (nodesOf b).map (·.payload)
  dense : (headerOf b).hasFlag Flag.sparseIds = false →
    ∀ p (hp : p < (nodesOf b).size), (nodesOf b)[p].id.toNat = p
  sparse : (headerOf b).hasFlag Flag.sparseIds = true →
    Ascending (idEntriesOf b) ∧
      ∀ e ∈ idEntriesOf b, (nodesOf b)[e.position.toNat]?.map (·.id) = some e.id

/-- The tables of a file, where its preamble says they are. -/
def Image.ofFile (b : ByteArray) : Image :=
  Image.load b (headerOf b) (metadataOf b) (Sections.named (headerOf b) (metadataOf b))

theorem Header.damage?_eq_none_iff {h : Header} : h.damage? = none ↔
    h.magic = magicWord ∧ h.version = formatVersion ∧ h.flags &&& ~~~Flag.known = 0 := by
  unfold damage?
  by_cases hm : h.magic = magicWord
  · by_cases hv : h.version = formatVersion
    · by_cases hf : h.flags &&& ~~~Flag.known = 0 <;> simp [hm, hv, hf]
    · simp [hm, hv]
  · simp [hm]

theorem sectionAt?_eq_some_iff {raw : UInt64} {count width : Nat} {s : Section} :
    sectionAt? raw count width = some s ↔ raw ≠ 0 ∧ s = ⟨raw.toNat, count * width⟩ := by
  unfold sectionAt? offset?
  by_cases h : raw = 0 <;> simp [h, eq_comm]

theorem sectionAt?_zero (count width : Nat) : sectionAt? 0 count width = none := by
  simp [sectionAt?, offset?]

theorem sectionAt?_of_ne {raw : UInt64} (h : raw ≠ 0) (count width : Nat) :
    sectionAt? raw count width = some ⟨raw.toNat, count * width⟩ :=
  sectionAt?_eq_some_iff.mpr ⟨h, rfl⟩

namespace Image

theorem ofFile_ids (b : ByteArray) : (ofFile b).ids =
    if (metadataOf b).idIndex = 0 then .dense (headerOf b).nodeCount.toNat
    else .sparse (idEntriesOf b) := by
  unfold ofFile load Sections.named
  split_ifs with h
  · simp only [h, sectionAt?_zero]
  · simp only [sectionAt?_of_ne h]
    rfl

theorem ofFile_offsetIndex (b : ByteArray) : (ofFile b).offsetIndex =
    if (headerOf b).offsetIndex = 0 then none else some (offsetSlotsOf b) := by
  unfold ofFile load Sections.named
  split_ifs with h
  · simp only [h, sectionAt?_zero, Option.map_none]
  · simp only [sectionAt?_of_ne h, Option.map_some]
    rfl

theorem ofFile_weights (b : ByteArray) : (ofFile b).weights =
    if (metadataOf b).weights = 0 then none
    else some (Table.readAt b (metadataOf b).weights.toNat (headerOf b).edgeCount.toNat) := by
  unfold ofFile load Sections.named
  split_ifs with h
  · simp only [h, sectionAt?_zero, Option.map_none]
  · simp only [sectionAt?_of_ne h, Option.map_some]

theorem ofFile_statistics (b : ByteArray) : (ofFile b).statistics =
    if (headerOf b).statistics = 0 then none
    else some (Record.readAt b (headerOf b).statistics.toNat) := by
  unfold ofFile load Sections.named
  split_ifs with h
  · simp only [h, sectionAt?_zero, Option.map_none]
  · simp only [sectionAt?_of_ne h, Option.map_some]

theorem isSome_statistics_ofFile (b : ByteArray) :
    (ofFile b).statistics.isSome = true ↔ (headerOf b).statistics ≠ 0 := by
  rw [ofFile_statistics]
  split_ifs with h <;> simp [h]

theorem size_ids_ofFile (b : ByteArray) : (ofFile b).ids.size = (ofFile b).nodes.size := by
  have hn : (ofFile b).nodes.size = (headerOf b).nodeCount.toNat := Table.size_readAt _ _ _
  rw [hn, ofFile_ids]
  split_ifs with h
  · rfl
  · exact Table.size_readAt _ _ _

theorem size_offsetIndex_ofFile (b : ByteArray) (slots : Array UInt64)
    (h : (ofFile b).offsetIndex = some slots) : slots.size = (ofFile b).nodes.size := by
  have hn : (ofFile b).nodes.size = (headerOf b).nodeCount.toNat := Table.size_readAt _ _ _
  rw [ofFile_offsetIndex] at h
  split_ifs at h
  cases h
  rw [hn]
  exact Table.size_readAt _ _ _

theorem ofFile_header (b : ByteArray) : (ofFile b).header = headerOf b := rfl

theorem ofFile_nodes (b : ByteArray) : (ofFile b).nodes = nodesOf b := rfl

theorem ofFile_edges (b : ByteArray) : (ofFile b).edges = edgesOf b := rfl

theorem size_nodesOf (b : ByteArray) : (nodesOf b).size = (headerOf b).nodeCount.toNat :=
  Table.size_readAt _ _ _

theorem offsets_ofFile_iff {b : ByteArray}
    (hf : SectionsFit (headerOf b) (metadataOf b) b.size) :
    (∀ slots, (ofFile b).offsetIndex = some slots → slots = (nodesOf b).map (·.payload)) ↔
      ((headerOf b).hasFlag Flag.offsetIndex = true →
        offsetSlotsOf b = (nodesOf b).map (·.payload)) := by
  rw [hf.offsetIndex.1, ofFile_offsetIndex]
  split_ifs with h <;> simp [h]

theorem ids_ofFile_iff {b : ByteArray} (hf : SectionsFit (headerOf b) (metadataOf b) b.size) :
    (ofFile b).ids.Fits (nodesOf b) ↔
      ((headerOf b).hasFlag Flag.sparseIds = false →
        ∀ p (hp : p < (nodesOf b).size), (nodesOf b)[p].id.toNat = p) ∧
      ((headerOf b).hasFlag Flag.sparseIds = true → Ascending (idEntriesOf b) ∧
        ∀ e ∈ idEntriesOf b, (nodesOf b)[e.position.toNat]?.map (·.id) = some e.id) := by
  have hentries : (idEntriesOf b).size = (nodesOf b).size := by
    rw [size_nodesOf]; exact Table.size_readAt _ _ _
  rw [← Bool.not_eq_true, hf.idIndex.1, ofFile_ids]
  split_ifs with h
  · simp [h, IdIndex.fits_dense_iff, size_nodesOf]
  · simp [h, IdIndex.fits_sparse_iff, hentries]

/-- **A file is accepted exactly if it is a graph file**, and its tables are where its preamble says
they are. -/
theorem parse_eq_ok_iff {b : ByteArray} {image : Image} :
    parse b = .ok image ↔ IsGraphFile b ∧ image = ofFile b := by
  have hdamage := damage?_eq_none_iff (size_ids_ofFile b) (size_offsetIndex_ofFile b)
  rw [Sound, ofFile_nodes, ofFile_edges] at hdamage
  unfold parse
  split_ifs with hsize
  · simp only [false_iff]
    rintro ⟨h, -⟩
    exact absurd h.size (by omega)
  extract_lets header
  have hheader : header = headerOf b := rfl
  rw [hheader]
  cases hh : (headerOf b).damage? with
  | some damage =>
    simp only [reduceCtorEq, false_iff]
    rintro ⟨h, -⟩
    rw [Header.damage?_eq_none_iff.mpr ⟨h.magic, h.version, h.flags⟩] at hh
    cases hh
  | none =>
    obtain ⟨hmagic, hversion, hflags⟩ := Header.damage?_eq_none_iff.mp hh
    dsimp only
    split_ifs with hsum hcount
    · simp only [false_iff]
      rintro ⟨h, -⟩
      exact hsum h.checksum
    · simp only [false_iff]
      rintro ⟨h, -⟩
      have := h.nodeCount
      have := h.edgeCount
      omega
    next metadata =>
    have hmetadata : metadata = metadataOf b := rfl
    rw [hmetadata]
    simp only [bind_eq_ok_iff, Sections.locate_eq_ok_iff]
    constructor
    · rintro ⟨_, ⟨hf, rfl⟩, hd⟩
      have hload : load b (headerOf b) (metadataOf b)
          (Sections.named (headerOf b) (metadataOf b)) = ofFile b := rfl
      rw [hload] at hd
      rcases Option.eq_none_or_eq_some (ofFile b).damage? with hn | ⟨damage, hn⟩
      · rw [hn] at hd
        cases hd
        have hs := hdamage.mp hn
        have hids := (ids_ofFile_iff hf).mp hs.ids
        have hoffsets := (offsets_ofFile_iff hf).mp hs.offsets
        exact ⟨⟨by omega, hmagic, hversion, hflags, by simpa using hsum, by omega, by omega, hf,
          hs.ends, hs.threaded, hoffsets, hids.1, hids.2⟩, rfl⟩
      · rw [hn] at hd
        cases hd
    · rintro ⟨h, rfl⟩
      refine ⟨_, ⟨h.sections, rfl⟩, ?_⟩
      have hload : load b (headerOf b) (metadataOf b)
          (Sections.named (headerOf b) (metadataOf b)) = ofFile b := rfl
      rw [hload, hdamage.mpr ⟨h.ends, h.threaded, (offsets_ofFile_iff h.sections).mpr h.offsets,
        (ids_ofFile_iff h.sections).mpr ⟨h.dense, h.sparse⟩⟩]

/-- **Exactly the graph files are accepted**, and all other bytes are called corrupt. -/
theorem parse_accepts_iff (b : ByteArray) :
    ((∃ image, (parse b).mapError Fault.corrupt = .ok image) ↔ IsGraphFile b) ∧
      ((∃ fault, (parse b).mapError Fault.corrupt = .error fault ∧ fault.isCorrupt = true) ↔
        ¬ IsGraphFile b) := by
  cases hp : parse b with
  | ok image =>
    have hb := (parse_eq_ok_iff.mp hp).1
    simp [Except.mapError, hb]
  | error damage =>
    have hb : ¬ IsGraphFile b := fun hb => by
      have hok := parse_eq_ok_iff.mpr ⟨hb, rfl⟩
      rw [hp] at hok
      cases hok
    simp [Except.mapError, hb, Fault.isCorrupt]

end Image

end FlatGraph
