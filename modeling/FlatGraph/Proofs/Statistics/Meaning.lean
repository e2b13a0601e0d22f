import Mathlib.Order.Bounds.Basic
import FlatGraph.Proofs.Container.BitSet
import FlatGraph.Proofs.Statistics.Counts

/-! # What the statistics mean

The edges with an end past the positions are skipped, and the others are all counted. Each count is
what it is said to be of them, which determines it: so it does not depend on their order.

* `Statistics.Means`: what each count is of some edges, with `Statistics.Means.unique` and
  `Statistics.Means.perm`.
* `Statistics.meaning_of_compute`: the statistics of any edges. -/

namespace FlatGraph

variable {count : Nat} {edges other : List (Nat × Nat)}

/-- The edges both ends of which are positions below `count`. -/
def kept (count : Nat) (edges : List (Nat × Nat)) : List (Nat × Nat) :=
  edges.filter fun e => e.1 < count ∧ e.2 < count

theorem mem_kept {e : Nat × Nat} :
    e ∈ kept count edges ↔ e ∈ edges ∧ e.1 < count ∧ e.2 < count := by
  rw [kept, List.mem_filter, decide_eq_true_eq]

theorem inside_kept (count : Nat) (edges : List (Nat × Nat)) : Inside count (kept count edges) :=
  fun _ he => (mem_kept.mp he).2

/-! ### The count of some edges -/

namespace Tally

theorem step_of_not_lt (t : Tally) {e : Nat × Nat} (he : ¬ (e.1 < count ∧ e.2 < count)) :
    t.step count e = t := if_neg he

theorem foldl_kept (count : Nat) (edges : List (Nat × Nat)) (t : Tally) :
    (kept count edges).foldl (Tally.step count) t = edges.foldl (Tally.step count) t := by
  rw [kept, List.foldl_filter]
  refine congrArg (fun step => edges.foldl step t) (funext fun t => funext fun e => ?_)
  by_cases he : e.1 < count ∧ e.2 < count
  · simp [he]
  · simp [he, step_of_not_lt t he]

theorem entered_foldl (hin : Inside count edges) (t : Tally) :
    (edges.foldl (Tally.step count) t).entered =
      (edges.map Prod.snd).foldl BitSet.set t.entered := by
  induction edges generalizing t with
  | nil => rfl
  | cons e rest ih =>
    have hrest : Inside count rest := fun f hf => hin f (List.mem_cons_of_mem e hf)
    rw [List.foldl_cons, ih hrest, step_of_lt t (hin e List.mem_cons_self)]
    rfl

/-- **A position is isolated** if it is no end of an edge. -/
theorem After.isIsolated_iff {t : Tally} (h : After count edges t)
    (hentered : t.entered = (edges.map Prod.snd).foldl BitSet.set (BitSet.empty count)) {p : Nat}
    (hp : p < count) : t.isIsolated p = true ↔ ∀ e ∈ edges, e.1 ≠ p ∧ e.2 ≠ p := by
  have hlt : p < t.outDegrees.size := by rw [h.size]; exact hp
  have hdegree : t.outDegrees.getD p 0 = outCount edges p := by
    rw [Array.getD_eq_getD_getElem?, Array.getElem?_eq_getElem hlt, Option.getD_some,
      h.outDegrees p hlt]
  have htest : t.entered.test p = true ↔ ∃ e ∈ edges, e.2 = p := by
    rw [hentered, BitSet.test_foldl_set, BitSet.test_empty, List.mem_map]
    simp [BitSet.empty, hp]
  have hzero : outCount edges p = 0 ↔ ∀ e ∈ edges, e.1 ≠ p := by
    simp [outCount, List.countP_eq_zero]
  rw [isIsolated, hdegree, Bool.and_eq_true, beq_iff_eq, hzero, Bool.not_eq_true',
    Bool.eq_false_iff, ne_eq, htest]
  constructor
  · rintro ⟨hsource, htarget⟩ e he
    exact ⟨hsource e he, fun heq => htarget ⟨e, he, heq⟩⟩
  · intro hends
    refine ⟨fun e he => (hends e he).1, ?_⟩
    rintro ⟨e, he, heq⟩
    exact (hends e he).2 heq

/-- No count needs more than 32 bits. -/
structure InRange (t : Tally) : Prop where
  outDegrees : ∀ d ∈ t.outDegrees, d < 256 ^ 4
  sizes : ∀ x < t.components.size, t.components.sizes.getD x 0 < 256 ^ 4
  edges : t.edges < 256 ^ 4
  selfLoops : t.selfLoops < 256 ^ 4

/-- **No count overflows** on the way. -/
theorem After.inRange {t : Tally} (h : After count edges t) (hc : count < 256 ^ 4)
    (he : edges.length < 256 ^ 4) : t.InRange := by
  constructor
  case outDegrees =>
    intro d hd
    obtain ⟨p, hp, rfl⟩ := Array.mem_iff_getElem.mp hd
    rw [h.outDegrees p hp]
    exact (outCount_le edges p).trans_lt he
  case sizes =>
    intro x hx
    obtain ⟨label, hlabel⟩ := Partition.exists_joinAll count edges
    rw [h.components] at hx ⊢
    exact (hlabel.labelled.size_le x hx).trans_lt (by rwa [hlabel.size_eq])
  case edges =>
    rw [h.edges]
    exact he
  case selfLoops =>
    rw [h.selfLoops]
    exact List.countP_le_length.trans_lt he

end Tally

/-! ### The statistics -/

namespace Statistics

/-- **What the counts are of some edges**, whose ends are positions below `count`. -/
structure Means (count : Nat) (counted : List (Nat × Nat)) (s : Statistics) : Prop where
  nodes : s.nodes = count
  edges : s.edges = counted.length
  minOutDegree : 0 < count → IsLeast {d | ∃ p < count, outCount counted p = d} s.minOutDegree
  maxOutDegree : 0 < count → IsGreatest {d | ∃ p < count, outCount counted p = d} s.maxOutDegree
  outDegree_zero : count = 0 → s.minOutDegree = 0 ∧ s.maxOutDegree = 0
  meanOutDegree : s.meanOutDegree =
    if count = 0 then 0 else Binary64.quotient counted.length count
  weakComponents : s.weakComponents = Nat.card (Quotient (component count counted))
  isolatedNodes : s.isolatedNodes =
    ((Finset.range count).filter fun p => ∀ e ∈ counted, e.1 ≠ p ∧ e.2 ≠ p).card
  selfLoops : s.selfLoops = counted.countP fun e => e.1 = e.2

theorem isLeast_minOutDegree (hin : Inside count edges) (hc : 0 < count) :
    IsLeast {d | ∃ p < count, outCount edges p = d} (compute count edges).minOutDegree ∧
      IsGreatest {d | ∃ p < count, outCount edges p = d} (compute count edges).maxOutDegree := by
  obtain ⟨hmin, hmax⟩ := outDegrees_compute hin
  have hmem : ∀ d, d ∈ (List.range count).map (outCount edges) ↔
      d ∈ {d | ∃ p < count, outCount edges p = d} := by
    intro d
    simp [List.mem_map]
  have hne : (List.range count).map (outCount edges) ≠ [] := by
    simp [Nat.ne_of_gt hc]
  obtain ⟨least, hleast⟩ := Option.isSome_iff_exists.mp (List.isSome_min?_of_ne_nil hne)
  obtain ⟨most, hmost⟩ := Option.isSome_iff_exists.mp (List.isSome_max?_of_ne_nil hne)
  rw [hmin, hmax, hleast, hmost, Option.getD_some, Option.getD_some]
  obtain ⟨hleast, hle⟩ := List.min?_eq_some_iff.mp hleast
  obtain ⟨hmost, hge⟩ := List.max?_eq_some_iff.mp hmost
  exact ⟨⟨(hmem _).mp hleast, fun d hd => hle d ((hmem d).mpr hd)⟩,
    ⟨(hmem _).mp hmost, fun d hd => hge d ((hmem d).mpr hd)⟩⟩

/-- **The statistics of edges inside** are what they are said to mean. -/
theorem means_of_inside (hin : Inside count edges) : Means count edges (compute count edges) := by
  have hafter := after_foldl hin
  constructor
  case nodes => rfl
  case edges => exact edges_compute hin
  case minOutDegree => exact fun hc => (isLeast_minOutDegree hin hc).1
  case maxOutDegree => exact fun hc => (isLeast_minOutDegree hin hc).2
  case outDegree_zero =>
    rintro rfl
    exact outDegrees_compute hin
  case meanOutDegree =>
    show Binary64.quotient (compute count edges).edges count = _
    rw [edges_compute hin]
    split_ifs with hc
    · rw [hc, Binary64.quotient, if_pos (Or.inr rfl)]
    · rfl
  case weakComponents =>
    rw [weakComponents_compute hin, weakComponents_eq, Partition.classes_joinAll]
  case isolatedNodes =>
    show (List.range count).countP _ = _
    rw [List.countP_eq_length_filter,
      ← List.toFinset_card_of_nodup (List.nodup_range.filter _)]
    refine congrArg Finset.card (Finset.ext fun p => ?_)
    rw [List.mem_toFinset, List.mem_filter, Finset.mem_filter, List.mem_range, Finset.mem_range]
    exact and_congr_right fun hp => hafter.isIsolated_iff (Tally.entered_foldl hin _) hp
  case selfLoops => exact hafter.selfLoops

namespace Means

variable {s t : Statistics}

theorem unique (hs : Means count edges s) (ht : Means count edges t) : s = t := by
  have hdegrees : s.minOutDegree = t.minOutDegree ∧ s.maxOutDegree = t.maxOutDegree := by
    rcases Nat.eq_zero_or_pos count with hc | hc
    · obtain ⟨hmin, hmax⟩ := hs.outDegree_zero hc
      obtain ⟨hmin', hmax'⟩ := ht.outDegree_zero hc
      exact ⟨hmin.trans hmin'.symm, hmax.trans hmax'.symm⟩
    · exact ⟨(hs.minOutDegree hc).unique (ht.minOutDegree hc),
        (hs.maxOutDegree hc).unique (ht.maxOutDegree hc)⟩
  obtain ⟨hmin, hmax⟩ := hdegrees
  have hnodes := hs.nodes.trans ht.nodes.symm
  have hedges := hs.edges.trans ht.edges.symm
  have hmean := hs.meanOutDegree.trans ht.meanOutDegree.symm
  have hweak := hs.weakComponents.trans ht.weakComponents.symm
  have hisolated := hs.isolatedNodes.trans ht.isolatedNodes.symm
  have hloops := hs.selfLoops.trans ht.selfLoops.symm
  cases s
  cases t
  simp only [mk.injEq]
  exact ⟨hnodes, hedges, hmin, hmax, hmean, hweak, hisolated, hloops⟩

/-- The components and the isolated positions are those of any other edges that have the same ends,
in whatever direction and however often. -/
theorem congr (hs : Means count edges s) (ht : Means count other t)
    (h : ∀ u v, (u, v) ∈ edges ∨ (v, u) ∈ edges ↔ (u, v) ∈ other ∨ (v, u) ∈ other) :
    s.weakComponents = t.weakComponents ∧ s.isolatedNodes = t.isolatedNodes := by
  rw [hs.weakComponents, ht.weakComponents, component_congr h, hs.isolatedNodes, ht.isolatedNodes]
  refine ⟨rfl, congrArg Finset.card (Finset.filter_congr fun p _ => ?_)⟩
  constructor
  · rintro hends ⟨u, v⟩ he
    rcases (h u v).mpr (Or.inl he) with he | he
    · exact hends _ he
    · exact (hends _ he).symm
  · rintro hends ⟨u, v⟩ he
    rcases (h u v).mp (Or.inl he) with he | he
    · exact hends _ he
    · exact (hends _ he).symm

theorem perm (hs : Means count edges s) (h : edges.Perm other) : Means count other s := by
  have hmem : ∀ u v, (u, v) ∈ edges ∨ (v, u) ∈ edges ↔ (u, v) ∈ other ∨ (v, u) ∈ other :=
    fun u v => or_congr h.mem_iff h.mem_iff
  have hout : ∀ p, outCount edges p = outCount other p := fun p => h.countP_eq _
  obtain ⟨hnodes, hedges, hmin, hmax, hzero, hmean, hweak, hisolated, hloops⟩ := hs
  rw [component_congr hmem] at hweak
  rw [h.length_eq] at hedges hmean
  rw [h.countP_eq] at hloops
  simp only [hout] at hmin hmax
  simp only [h.mem_iff] at hisolated
  exact ⟨hnodes, hedges, hmin, hmax, hzero, hmean, hweak, hisolated, hloops⟩

end Means

theorem compute_kept (count : Nat) (edges : List (Nat × Nat)) :
    compute count (kept count edges) = compute count edges := by
  unfold compute
  rw [Tally.foldl_kept]

/-- **The statistics of any edges** are what they mean of those edges both ends of which are
positions, and the others are skipped. The order of the edges does not matter, and the components
and the isolated positions do not depend on their direction and number. No count overflows on the
way. -/
theorem meaning_of_compute (count : Nat) (edges : List (Nat × Nat)) :
    Means count (kept count edges) (compute count edges) ∧
    compute count (kept count edges) = compute count edges ∧
    (∀ other, edges.Perm other → compute count other = compute count edges) ∧
    (∀ other, (∀ u v, (u, v) ∈ edges ∨ (v, u) ∈ edges ↔ (u, v) ∈ other ∨ (v, u) ∈ other) →
      (compute count other).weakComponents = (compute count edges).weakComponents ∧
      (compute count other).isolatedNodes = (compute count edges).isolatedNodes) ∧
    (count < 256 ^ 4 → edges.length < 256 ^ 4 → (compute count edges).InRange ∧
      ∀ passed, passed <+: edges →
        (passed.foldl (Tally.step count) (Tally.start count)).InRange) := by
  have hmeans : ∀ edges, Means count (kept count edges) (compute count edges) := by
    intro edges
    rw [← compute_kept]
    exact means_of_inside (inside_kept count edges)
  refine ⟨hmeans edges, compute_kept count edges, fun other h => ?_, fun other h => ?_,
    fun hc he => ⟨?_, fun passed hpassed => ?_⟩⟩
  · exact (hmeans other).unique ((hmeans edges).perm (h.filter _))
  · refine (hmeans other).congr (hmeans edges) fun u v => ?_
    simp only [mem_kept, and_comm (a := v < count), ← or_and_right, h u v]
  · have hlength : (kept count edges).length ≤ edges.length := List.length_filter_le _ _
    rw [← compute_kept]
    exact inRange_compute (inside_kept count edges) hc (hlength.trans_lt he)
  · have hlength : (kept count passed).length ≤ edges.length :=
      (List.length_filter_le _ _).trans hpassed.length_le
    rw [← Tally.foldl_kept]
    exact (after_foldl (inside_kept count passed)).inRange hc (hlength.trans_lt he)

theorem meaning_of_compute_sample :
    Means 3 [(0, 1), (2, 2)] (compute 3 [(0, 1), (4, 0), (2, 2)]) ∧
    compute 3 [(2, 2), (0, 1), (4, 0)] = compute 3 [(0, 1), (4, 0), (2, 2)] ∧
    (compute 3 [(1, 0), (2, 2), (0, 4), (0, 1)]).weakComponents =
      (compute 3 [(0, 1), (4, 0), (2, 2)]).weakComponents ∧
    (compute 3 [(0, 1), (4, 0), (2, 2)]).InRange := by
  obtain ⟨hmeans, -, hperm, hsame, hrange⟩ := meaning_of_compute 3 [(0, 1), (4, 0), (2, 2)]
  refine ⟨hmeans, hperm _ (by decide), (hsame _ fun u v => ?_).1, (hrange (by decide) (by decide)).1⟩
  simp only [List.mem_cons, List.not_mem_nil, Prod.mk.injEq, or_false]
  grind

end Statistics

end FlatGraph
