import FlatGraph.Proofs.Image.Lookup
import FlatGraph.Proofs.Statistics.Counts

/-! # Degrees and statistics of an accepted file

The degrees of an accepted file are counted twice, along the walks of its nodes and in one pass over
its edge table. Both count the edges that leave each position, since the walks hold exactly these.

* `Image.Sound.degreeDistribution_eq`: the lengths of the walks are the counts of the pass.
* `Image.Sound.recount_degrees`, `Image.Sound.componentCount_weak`: what the statistics say that are
  counted afresh. -/

namespace FlatGraph.Image

variable {image : Image}

theorem length_ends (image : Image) : image.ends.length = image.edges.size := by
  rw [ends, List.length_map, Array.length_toList]

theorem outCount_ends (image : Image) (p : Nat) :
    outCount image.ends p = (image.edgesFrom p).length := by
  rw [outCount, ends, List.countP_map, edgesFrom, ← List.countP_eq_length_filter]
  rfl

namespace Sound

variable (hs : image.Sound)
include hs

theorem inside_ends : Inside image.nodes.size image.ends := by
  intro e he
  obtain ⟨r, hr, rfl⟩ := List.mem_map.mp he
  obtain ⟨i, hi, rfl⟩ := Array.mem_iff_getElem.mp (Array.mem_toList_iff.mp hr)
  exact hs.ends i hi

/-- **The lengths of the walks** are the numbers of edges out of the positions. -/
theorem degreeDistribution_eq :
    image.degreeDistribution = (List.range image.nodes.size).map (outCount image.ends) := by
  refine List.map_congr_left fun p hp => ?_
  have hp := List.mem_range.mp hp
  rw [outCount_ends, hs.targets_eq hp, List.length_map]

theorem recount_edges : image.recount.edges = image.edges.size :=
  (Statistics.edges_compute hs.inside_ends).trans (length_ends image)

/-- **The least and the greatest out-degree** that are counted afresh are those of the walks. -/
theorem recount_degrees :
    image.recount.minOutDegree = image.degreeDistribution.min?.getD 0 ∧
      image.recount.maxOutDegree = image.degreeDistribution.max?.getD 0 := by
  rw [hs.degreeDistribution_eq]
  exact Statistics.outDegrees_compute hs.inside_ends

theorem componentCount_weak :
    image.componentCount .weak = .ok image.recount.weakComponents :=
  congrArg Except.ok (Statistics.weakComponents_compute hs.inside_ends).symm

end Sound

end FlatGraph.Image
