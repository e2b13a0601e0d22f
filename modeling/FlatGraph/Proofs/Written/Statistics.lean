import FlatGraph.Proofs.Image.Alike
import FlatGraph.Proofs.Written.Accepted

/-! # The statistics of a written file

The statistics are counted three times: over the ends that are found when a graph is written, over
the records of the file, and, as far as degrees go, along the walks of its nodes. All agree.

* `Graph.Writable.ends_file`: the records of a written file have the ends that were found.
* `Graph.Writable.statistics_eq`: the block of statistics is read back.
* `Image.statistics_agree`: what a written file stores agrees with what is counted afresh, and what
  is counted afresh of an accepted file agrees with its walks. -/

namespace FlatGraph

open Bytes

namespace Graph.Writable

variable {g : Graph} {o : Options} {positions : Positions} {ends : List (Nat × Nat)}
  (h : g.Writable o positions ends)
include h

/-- **The ends of the edges** in the file are those that were found. -/
theorem ends_file : (Image.ofFile (g.file o positions ends)).ends = ends := by
  have hresolved := h.resolved
  rw [Image.ends, Image.ofFile_edges, h.edgesOf_file]
  refine List.ext_getElem ?_ fun i hi hi' => ?_
  · rw [List.length_map, Array.length_toList, List.size_toArray,
      length_edgeRecords g hresolved.1, hresolved.1]
  · rw [List.length_map, Array.length_toList] at hi
    obtain ⟨hsource, htarget⟩ := ends_edgeRecord hresolved h.nodes hi hi'
    rw [List.getElem_map, Array.getElem_toList, hsource, htarget]

theorem inside : Inside g.nodes.size ends := h.resolved.2

theorem length_ends_le : ends.length ≤ maxElements := by
  rw [h.resolved.1]
  exact h.edges

/-- **The block of statistics** is read back, if the options ask for one. -/
theorem statistics_eq : (Image.ofFile (g.file o positions ends)).statistics =
    if o.statistics then some (Statistics.compute g.nodes.size ends) else none := by
  have hholds := h.placed.statistics
  have hfits := (roomy_layout g o positions.isDense).statistics
  have htotal := h.total
  rw [Image.ofFile_statistics, statistics_file]
  cases hw : o.statistics with
  | false =>
    rw [hw] at hfits
    have hnone := Option.isNone_iff_eq_none.mp (Option.isSome_eq_false_iff.mp hfits.isSome)
    rw [hnone]
    rfl
  | true =>
    have hblock : (g.contents o positions.isDense ends).statistics =
        some (Statistics.compute g.nodes.size ends) := if_pos hw
    rw [hblock, Option.map_some] at hholds
    cases hl : (g.layout o positions.isDense).statistics with
    | none =>
      rw [hl] at hholds
      cases hholds
    | some i =>
      rw [hl] at hholds hfits
      have hin := (hfits.within i rfl).2
      cases hholds with
      | present bytes =>
        obtain ⟨hbytes, -⟩ := At.append_iff.mp (show At _ i (Record.bytes _ ++ []) from bytes)
        have hbound : maxElements < 256 ^ 4 := by decide
        have hrange := Statistics.inRange_compute h.inside (h.nodes.trans_lt hbound)
          (h.length_ends_le.trans_lt hbound)
        rw [if_neg (rawOffset_ne_zero hfits htotal), toNat_rawOffset (by omega),
          hrange.readAt_bytes hbytes]
        rfl

/-- **What is stored agrees** with what is counted afresh. -/
theorem checkStatistics_file : (Image.ofFile (g.file o positions ends)).checkStatistics =
    if o.statistics then .agreement else .absent := by
  have hrecount : (Image.ofFile (g.file o positions ends)).recount =
      Statistics.compute g.nodes.size ends := by
    rw [Image.recount, h.ends_file, Image.ofFile_nodes, h.size_nodes]
  unfold Image.checkStatistics
  rw [h.statistics_eq, hrecount]
  cases o.statistics with
  | false => rfl
  | true =>
    have hmean := Statistics.isNaN_meanOutDegree h.inside h.length_ends_le
    exact if_pos (Statistics.agrees_self hmean)

/-- **The targets that a search sees** in the file are those of the ends that were found. -/
theorem out_file {p : Nat} (hp : p < g.nodes.size) :
    (Image.ofFile (g.file o positions ends)).adjacency.out p =
      (ends.filter fun e => e.1 = p).map Prod.snd := by
  have hlt : p < (Image.ofFile (g.file o positions ends)).nodes.size := by
    rwa [Image.ofFile_nodes, h.size_nodes]
  rw [(Image.Sound.of_parse h.parse_eq).out_ends hlt, h.ends_file]

end Graph.Writable

/-- The file of the small graph is accepted. Both of its edges leave the first node, for the second
node and for the first node itself. -/
theorem Graph.exists_parse_sample_out : ∃ b image, Image.parse b = .ok image ∧
    image.nodes.size = 2 ∧ image.adjacency.out 0 = [1, 0] ∧ image.adjacency.out 1 = [] := by
  have hw := writable_sample
  refine ⟨_, _, hw.parse_eq, ?_, hw.out_file (show 0 < 2 by decide),
    hw.out_file (show 1 < 2 by decide)⟩
  rw [Image.ofFile_nodes]
  exact hw.size_nodes

namespace Image

theorem checkStatistics_eq_agreement_iff {image : Image} : image.checkStatistics = .agreement ↔
    ∃ stored, image.statistics = some stored ∧ stored.agrees image.recount = true := by
  unfold checkStatistics
  cases image.statistics with
  | none => simp
  | some stored =>
    cases hs : stored.agrees image.recount <;> simp [hs]

theorem checkStatistics_eq_absent_iff {image : Image} :
    image.checkStatistics = .absent ↔ image.statistics = none := by
  unfold checkStatistics
  cases image.statistics with
  | none => simp
  | some stored => cases hs : stored.agrees image.recount <;> simp [hs]

end Image

/-- **The statistics agree.** Those that a written file stores are the ones counted afresh, and a
file stores none exactly if none were asked for. The counts of an accepted file are those of its
preamble, its degrees are those of the walks, which add up to its edges, its components are counted
as the weak ones are, and its mean is a number. -/
theorem Image.statistics_agree :
    (∀ (g : Graph) (o : Options) (b : ByteArray), g.write o = .ok b → ∃ image,
      parse b = .ok image ∧
        image.checkStatistics = (if o.statistics then .agreement else .absent) ∧
        (o.statistics = true →
          ∃ stored, image.statistics = some stored ∧ stored.agrees image.recount = true) ∧
        (o.statistics = false → image.statistics = none)) ∧
    (∀ (b : ByteArray) (image : Image), parse b = .ok image →
      image.recount.nodes = image.header.nodeCount.toNat ∧
      image.recount.edges = image.header.edgeCount.toNat ∧
      image.recount.minOutDegree = image.degreeDistribution.min?.getD 0 ∧
      image.recount.maxOutDegree = image.degreeDistribution.max?.getD 0 ∧
      image.degreeDistribution.sum = image.recount.edges ∧
      image.componentCount .weak = .ok image.recount.weakComponents ∧
      Binary64.isNaN image.recount.meanOutDegree = false) := by
  refine ⟨fun g o b hb => ?_, fun b image hb => ?_⟩
  · obtain ⟨positions, ends, hw, rfl⟩ := Graph.write_eq_ok_iff.mp hb
    have hcheck := hw.checkStatistics_file
    refine ⟨_, hw.parse_eq, hcheck, fun hkept => ?_, fun hleft => ?_⟩
    · rw [hkept, if_pos rfl] at hcheck
      exact checkStatistics_eq_agreement_iff.mp hcheck
    · rw [hleft, if_neg Bool.false_ne_true] at hcheck
      exact checkStatistics_eq_absent_iff.mp hcheck
  · have hs := Sound.of_parse hb
    have hedges := hs.recount_edges
    obtain ⟨hmin, hmax⟩ := hs.recount_degrees
    refine ⟨size_nodes_of_parse hb, hedges.trans (size_edges_of_parse hb), hmin, hmax,
      hs.sum_degreeDistribution.trans hedges.symm, hs.componentCount_weak, ?_⟩
    refine Statistics.isNaN_meanOutDegree hs.inside_ends ?_
    rw [length_ends]
    exact (size_le_of_parse hb).2

theorem Image.statistics_agree_sample : ∃ b, Graph.sample.write Options.sample = .ok b ∧
    ∃ image, parse b = .ok image ∧ image.checkStatistics = .agreement ∧
      image.recount.edges = 2 ∧ image.degreeDistribution.sum = 2 := by
  have hw := Graph.writable_sample
  have hb := Graph.write_eq_ok_iff.mpr ⟨_, _, hw, rfl⟩
  obtain ⟨image, h, hcheck, -⟩ := statistics_agree.1 _ _ _ hb
  obtain ⟨-, hedges, -, -, hsum, -⟩ := statistics_agree.2 _ image h
  have hcount : image.header.edgeCount.toNat = 2 := by
    obtain ⟨-, rfl⟩ := parse_eq_ok_iff.mp h
    exact hw.edgeCount
  exact ⟨_, hb, image, h, hcheck, hedges.trans hcount, hsum.trans (hedges.trans hcount)⟩

end FlatGraph
