import FlatGraph.Proofs.Written.Draft
import FlatGraph.Proofs.Written.Statistics

/-! # Altered counts

The counts of the nodes and the edges are in the header, which the checksum leaves out. A file whose
counts were altered may still be accepted: it is if both were set to zero. The statistics are behind
the header, and tell.

* `SameOutside.headerOf_eq`: what the header of a file says whose counts were altered.
* `SameOutside.isGraphFile`: with no nodes and no edges it is accepted.
* `Image.checkStatistics_of_altered`: if it is accepted, the statistics do not agree.
* `Graph.altered_counts_detected`: altered counts of a written file are refused or found. -/

namespace FlatGraph

open Bytes

/-! ### Counts in a preamble -/

theorem toNat_u32At (b : ByteArray) (i : Nat) : (u32At b i).toNat = wordAt b i 4 := by
  rw [u32At, UInt32.toNat_ofNat']
  exact Nat.mod_eq_of_lt (wordAt_lt b i 4)

theorem byteAt_eq_of_u32At {b c : ByteArray} {i : Nat} (h : u32At c i = u32At b i) {k : Nat}
    (hk : k < 4) : byteAt c (i + k) = byteAt b (i + k) := by
  refine byteAt_eq_of_wordAt ?_ hk
  rw [← toNat_u32At, ← toNat_u32At, h]

theorem Fits.fewer {size offset count fewer width : Nat} (h : Fits size offset count width)
    (hc : fewer ≤ count) : Fits size offset fewer width :=
  ⟨h.1, (Nat.add_le_add_left (Nat.mul_le_mul_right _ hc) _).trans h.2⟩

theorem FitsIf.fewer {size count fewer width : Nat} {flagged : Bool} {raw : UInt64}
    (h : FitsIf size flagged raw count width) (hc : fewer ≤ count) :
    FitsIf size flagged raw fewer width := ⟨h.1, fun hr => (h.2 hr).fewer hc⟩

/-- Sections with fewer nodes and edges fit where sections with more of them do. -/
theorem SectionsFit.fewer {h : Header} {m : Metadata} {size : Nat} {nodes edges : UInt32}
    (hf : SectionsFit h m size) (hn : nodes.toNat ≤ h.nodeCount.toNat)
    (he : edges.toNat ≤ h.edgeCount.toNat) :
    SectionsFit { h with nodeCount := nodes, edgeCount := edges } m size where
  nodes := hf.nodes.fewer hn
  edges := hf.edges.fewer he
  weights := hf.weights.fewer he
  payloads := hf.payloads
  offsetIndex := hf.offsetIndex.fewer hn
  idIndex := hf.idIndex.fewer hn
  statistics := hf.statistics

namespace Bytes.SameOutside

variable {b c : ByteArray} (h : SameOutside b c 12 20)
include h

/-- **The header with altered counts** says all else as before. -/
theorem headerOf_eq : headerOf c =
    { headerOf b with nodeCount := (headerOf c).nodeCount, edgeCount := (headerOf c).edgeCount } :=
  (Header.mk.injEq ..).mpr
    ⟨congrArg UInt64.ofNat (h.wordAt_eq (.inl (by decide))),
      congrArg UInt16.ofNat (h.wordAt_eq (.inl (by decide))),
      congrArg UInt16.ofNat (h.wordAt_eq (.inl (by decide))), rfl, rfl,
      congrArg UInt64.ofNat (h.wordAt_eq (.inr (by decide))),
      congrArg UInt64.ofNat (h.wordAt_eq (.inr (by decide))),
      congrArg UInt64.ofNat (h.wordAt_eq (.inr (by decide))),
      congrArg UInt64.ofNat (h.wordAt_eq (.inr (by decide))),
      congrArg UInt64.ofNat (h.wordAt_eq (.inr (by decide)))⟩

theorem metadataOf_eq : metadataOf c = metadataOf b := h.readAt_eq (.inr (by decide))

theorem checksum_eq : checksum c = checksum b :=
  congrArg Digest.xxh3 (h.extract_eq (by decide))

theorem eq_of_counts (hn : (headerOf c).nodeCount = (headerOf b).nodeCount)
    (he : (headerOf c).edgeCount = (headerOf b).edgeCount) : c = b := by
  refine h.eq_of_bytes fun i hlo hhi => ?_
  rcases Nat.lt_or_ge i 16 with hi | hi
  · obtain ⟨k, rfl⟩ := Nat.exists_eq_add_of_le hlo
    exact byteAt_eq_of_u32At hn (by omega)
  · obtain ⟨k, rfl⟩ := Nat.exists_eq_add_of_le hi
    exact byteAt_eq_of_u32At he (by omega)

theorem statistics_eq (hb : SectionsFit (headerOf b) (metadataOf b) b.size) :
    (Image.ofFile c).statistics = (Image.ofFile b).statistics := by
  have hoffset : (headerOf c).statistics = (headerOf b).statistics := by
    rw [h.headerOf_eq]
  rw [Image.ofFile_statistics, Image.ofFile_statistics, hoffset]
  split_ifs with hs
  · rfl
  · have hfront := (hb.statistics.2 hs).1
    have hstop : 20 ≤ preambleSize := by decide
    rw [h.readAt_eq (.inr (by omega))]

/-- **A file whose counts were set to zero is accepted**: its tables are empty. -/
theorem isGraphFile (hb : IsGraphFile b) (hn : (headerOf c).nodeCount = 0)
    (he : (headerOf c).edgeCount = 0) : IsGraphFile c := by
  have hheader := h.headerOf_eq
  rw [hn, he] at hheader
  have hzero : (0 : UInt32).toNat = 0 := rfl
  have hnodes : nodesOf c = #[] := by rw [nodesOf, hn]; rfl
  have hedges : edgesOf c = #[] := by rw [edgesOf, he]; rfl
  have hslots : offsetSlotsOf c = #[] := by rw [offsetSlotsOf, hn]; rfl
  have hentries : idEntriesOf c = #[] := by rw [idEntriesOf, hn]; rfl
  constructor
  case size =>
    rw [h.size]
    exact hb.size
  case magic =>
    rw [hheader]
    exact hb.magic
  case version =>
    rw [hheader]
    exact hb.version
  case flags =>
    rw [hheader]
    exact hb.flags
  case checksum =>
    rw [h.checksum_eq, hheader]
    exact hb.checksum
  case nodeCount =>
    rw [hn]
    exact Nat.zero_le _
  case edgeCount =>
    rw [he]
    exact Nat.zero_le _
  case sections =>
    rw [hheader, h.metadataOf_eq, h.size]
    exact hb.sections.fewer (Nat.zero_le _) (Nat.zero_le _)
  case ends =>
    rw [hedges]
    exact fun i hi => absurd hi (Nat.not_lt_zero i)
  case threaded =>
    rw [hnodes, hedges]
    exact ⟨fun p hp => absurd hp (Nat.not_lt_zero p), fun i hi => absurd hi (Nat.not_lt_zero i)⟩
  case offsets =>
    rw [hslots, hnodes]
    exact fun _ => Array.map_empty.symm
  case dense =>
    rw [hnodes]
    exact fun _ p hp => absurd hp (Nat.not_lt_zero p)
  case sparse =>
    rw [hentries]
    exact fun _ => ⟨List.Pairwise.nil, fun e he => absurd he (Array.not_mem_empty e)⟩

end Bytes.SameOutside

/-! ### Statistics that do not agree -/

theorem Statistics.counts_of_agrees {s t : Statistics} (h : s.agrees t = true) :
    s.nodes = t.nodes ∧ s.edges = t.edges := by
  unfold agrees at h
  rw [Bool.and_eq_true, beq_iff_eq] at h
  obtain ⟨hnodes, hedges, -⟩ := (Statistics.mk.injEq ..).mp h.1
  exact ⟨hnodes, hedges⟩

namespace Image

variable {b c : ByteArray} {image other : Image}

theorem counts_recount (hp : parse b = .ok image) :
    image.recount.nodes = (headerOf b).nodeCount.toNat ∧
      image.recount.edges = (headerOf b).edgeCount.toNat := by
  have hs := Sound.of_parse hp
  have hnodes := size_nodes_of_parse hp
  have hedges := hs.recount_edges.trans (size_edges_of_parse hp)
  obtain ⟨-, rfl⟩ := parse_eq_ok_iff.mp hp
  exact ⟨hnodes, hedges⟩

/-- **Altered counts are found.** If the statistics of a file agree, and the file is still accepted
after its counts were altered, then its statistics do not agree any more: those that are stored are
as they were. -/
theorem checkStatistics_of_altered (hb : parse b = .ok image)
    (ha : image.checkStatistics = .agreement) (h : SameOutside b c 12 20) (hne : c ≠ b)
    (hc : parse c = .ok other) : ∃ stored, image.statistics = some stored ∧
      stored.agrees image.recount = true ∧
        other.checkStatistics = .mismatch stored other.recount := by
  obtain ⟨stored, hstored, hagrees⟩ := checkStatistics_eq_agreement_iff.mp ha
  refine ⟨stored, hstored, hagrees, ?_⟩
  have hsame : other.statistics = some stored := by
    obtain ⟨hfile, rfl⟩ := parse_eq_ok_iff.mp hb
    obtain ⟨-, rfl⟩ := parse_eq_ok_iff.mp hc
    rw [h.statistics_eq hfile.sections, hstored]
  -- Statistics that agreed with both headers would make the counts, and so the files, the same.
  have hnot : ¬ stored.agrees other.recount = true := fun hother => hne <| by
    obtain ⟨hnodes, hedges⟩ := Statistics.counts_of_agrees hagrees
    obtain ⟨hnodes', hedges'⟩ := Statistics.counts_of_agrees hother
    rw [(counts_recount hb).1] at hnodes
    rw [(counts_recount hb).2] at hedges
    rw [(counts_recount hc).1] at hnodes'
    rw [(counts_recount hc).2] at hedges'
    exact h.eq_of_counts (UInt32.toNat_inj.mp (hnodes'.symm.trans hnodes))
      (UInt32.toNat_inj.mp (hedges'.symm.trans hedges))
  unfold checkStatistics
  rw [hsame]
  exact if_neg hnot

end Image

/-- **Damage to the counts cannot pass unnoticed.** If the counts in the header of a file that was
written with statistics are altered, and nothing else, then the file is refused, or its statistics
do not agree: those that are stored have the counts of the graph, which are those that the header
had, and those that are counted afresh have the altered ones. -/
theorem Graph.altered_counts_detected {g : Graph} {o : Options} {b c : ByteArray}
    (ho : o.statistics = true) (hb : g.write o = .ok b) (hc : SameOutside b c 12 20)
    (hne : c ≠ b) :
    (∃ damage, (Image.parse c).mapError Fault.corrupt = .error (.corrupt damage)) ∨
      ∃ image stored actual, (Image.parse c).mapError Fault.corrupt = .ok image ∧
        image.checkStatistics = .mismatch stored actual ∧
        (stored.nodes = g.nodes.size ∧ stored.edges = g.edges.size) ∧
        (stored.nodes = (headerOf b).nodeCount.toNat ∧
          stored.edges = (headerOf b).edgeCount.toNat) ∧
        (actual.nodes = (headerOf c).nodeCount.toNat ∧
          actual.edges = (headerOf c).edgeCount.toNat) := by
  cases hp : Image.parse c with
  | error damage => exact .inl ⟨damage, rfl⟩
  | ok image =>
    obtain ⟨positions, ends, hw, rfl⟩ := write_eq_ok_iff.mp hb
    have hcheck := hw.checkStatistics_file
    rw [ho, if_pos rfl] at hcheck
    obtain ⟨stored, -, hagrees, hmismatch⟩ :=
      Image.checkStatistics_of_altered hw.parse_eq hcheck hc hne hp
    obtain ⟨hnodes, hedges⟩ := Statistics.counts_of_agrees hagrees
    rw [(Image.counts_recount hw.parse_eq).1] at hnodes
    rw [(Image.counts_recount hw.parse_eq).2] at hedges
    exact .inr ⟨image, stored, _, rfl, hmismatch,
      ⟨hnodes.trans hw.nodeCount, hedges.trans hw.edgeCount⟩, ⟨hnodes, hedges⟩,
      Image.counts_recount hp⟩

/-- The file of the small graph is still accepted with no nodes and no edges in its header, and its
statistics tell. -/
theorem Graph.altered_counts_detected_sample : ∃ b c image stored actual,
    sample.write Options.sample = .ok b ∧ SameOutside b c 12 20 ∧ c ≠ b ∧
      Image.parse c = .ok image ∧ image.checkStatistics = .mismatch stored actual ∧
      stored.nodes = 2 ∧ stored.edges = 2 ∧ actual.nodes = 0 ∧ actual.edges = 0 := by
  have hw := writable_sample
  have hb := write_eq_ok_iff.mpr ⟨_, _, hw, rfl⟩
  obtain ⟨c, hpatch⟩ : ∃ c, Draft.patch true (sample.file _ _ _) 12 (List.replicate 8 0) = .ok c :=
    ⟨_, if_pos (le_trans (by decide) hw.isGraphFile.size)⟩
  obtain ⟨hc, hzeros⟩ := Draft.sameOutside_of_patch hpatch
  obtain ⟨hfirst, hlast⟩ := At.append_iff.mp
    (show At c 12 (wordBytes 4 (0 : UInt32).toNat ++ wordBytes 4 (0 : UInt32).toNat) from hzeros)
  have hnodes : (headerOf c).nodeCount = 0 := hfirst.u32At
  have hedges : (headerOf c).edgeCount = 0 := hlast.u32At
  have hne : c ≠ sample.file _ _ _ := fun heq => by
    have hcount := hw.nodeCount
    rw [← heq, hnodes] at hcount
    cases hcount
  have hp : Image.parse c = .ok _ :=
    Image.parse_eq_ok_iff.mpr ⟨hc.isGraphFile hw.isGraphFile hnodes hedges, rfl⟩
  rcases altered_counts_detected rfl hb hc hne with ⟨damage, hdamage⟩ | ⟨image, stored, actual,
    hparse, hcheck, ⟨hn, he⟩, -, hn', he'⟩
  · rw [hp] at hdamage
    cases hdamage
  · rw [hp] at hparse
    cases hparse
    rw [hnodes] at hn'
    rw [hedges] at he'
    exact ⟨_, c, _, stored, actual, hb, hc, hne, hp, hcheck, hn, he, hn', he'⟩

end FlatGraph
