import Mathlib.Algebra.BigOperators.Group.Finset.Basic
import Mathlib.Order.Bounds.Basic
import FlatGraph.Proofs.Container.BitSet
import FlatGraph.Proofs.Search.Parallel

/-! # What a breadth-first search reaches

A breadth-first search of an accepted file finds the positions to which edges lead from its start,
each at its distance. Distances stay below the number of positions, so none is taken for that of an
unreached position.

* `BreadthState.Counted`: the counters hold what is left of the level and what is found of the
  next one; `BreadthState.Counted.step`: so a level is never counted below zero, and no position
  is refused by the queue.
* `Image.breadth_of_accepted`: what the search of an accepted file answers. -/

namespace FlatGraph

/-! ### Searches that have ended -/

namespace LevelState

variable {a : Adjacency} {start : Nat} {recorded : Bool} {s : LevelState}

theorem reached_answer (s : LevelState) :
    s.answer.reached = s.seen.toBitSet.toList.toFinset.card := by
  rw [List.toFinset_card_of_nodup (BitSet.nodup_toList _), ← BitSet.countOnes_eq_length]
  rfl

theorem Exact.mem_toList_iff (h : Exact a start recorded s) (hf : s.frontier = []) {v : Nat} :
    v ∈ s.seen.toBitSet.toList ↔ ∃ k, a.Hop start v k := by
  have hseen : v ∈ s.seen.toBitSet.toList ↔ ∃ k ≤ s.level, a.Hop start v k :=
    BitSet.mem_toList.trans (h.seen_iff v)
  rw [hseen]
  constructor
  · rintro ⟨k, -, hv⟩
    exact ⟨k, hv⟩
  · rintro ⟨k, hv⟩
    exact ⟨k, h.hop_le hf hv, hv⟩

theorem Exact.exists_greatest (h : Exact a start recorded s) (hf : s.frontier = []) :
    ∃ depth, s.level = depth + 1 ∧ IsGreatest {k | ∃ v, a.Hop start v k} depth := by
  have hnone : ∀ v, ¬ a.Hop start v s.level := fun v hv => by
    have hmem := (h.mem_frontier v).mpr hv
    rw [hf] at hmem
    cases hmem
  cases hlevel : s.level with
  | zero =>
    rw [hlevel] at hnone
    exact absurd (Adjacency.hop_zero_iff.mpr rfl) (hnone start)
  | succ depth =>
    refine ⟨depth, rfl, h.inhabited depth (by omega), ?_⟩
    rintro k ⟨v, hv⟩
    have hle := h.hop_le hf hv
    rcases Nat.lt_or_eq_of_le hle with hlt | rfl
    · omega
    · exact absurd hv (hnone v)

/-- **The distances that were recorded** are those of the positions reached, and the sentinel
elsewhere. -/
theorem Exact.getElem?_distances (h : Exact a start recorded s) (hf : s.frontier = [])
    {d : Array Nat} (hd : s.distances = some d) {v : Nat} (hv : v < a.count) (k : Nat) :
    d[v]? = some k ↔
      a.Hop start v k ∨ (k = unreached ∧ ∀ j, ¬ a.Hop start v j) := by
  have hrow := h.distances d hd
  by_cases hr : ∃ j, a.Hop start v j
  · obtain ⟨j, hj⟩ := hr
    rw [hrow.near v j (h.hop_le hf hj) hj, Option.some.injEq]
    constructor
    · rintro rfl
      exact Or.inl hj
    · rintro (hk | ⟨-, hnone⟩)
      · exact hj.unique hk
      · exact absurd hj (hnone j)
  · push Not at hr
    rw [hrow.far v hv fun j _ => hr j, Option.some.injEq]
    constructor
    · rintro rfl
      exact Or.inr ⟨rfl, hr⟩
    · rintro (hk | ⟨rfl, -⟩)
      · exact absurd hk (hr k)
      · rfl

end LevelState

/-! ### The counters of the queue search -/

namespace BreadthState

/-- The states in which the search looks at its queue, from the state `s` on. -/
inductive Passes (a : Adjacency) (s : BreadthState) : BreadthState → Prop
  | refl : Passes a s s
  | step {t u : BreadthState} {node : Nat} {queue : FrontierQueue} (passes : Passes a s t)
    (pop : t.queue.pop = some (node, queue))
    (expand : (t.leave queue).expand (a.out node) = .ok u) : Passes a s u.settle

/-- **The counters are right**: what remains of the level is in front of the queue, and nothing of
the next level is behind it unless something remains. -/
def Counted (s : BreadthState) : Prop :=
  ∃ b todo seen won, Within b todo seen won s ∧ s.remaining = todo.length ∧
    (todo = [] → won = #[])

variable {a : Adjacency} {b : LevelState} {s t : BreadthState}

theorem Matches.counted (h : Matches b s) : Counted s :=
  ⟨b, b.frontier, b.seen, #[], h.within, h.remaining, fun _ => rfl⟩

/-- **A step of the search**: a position that leaves the queue is one that remains, all its new
targets find room in the queue, and the counters are right again. -/
theorem Counted.step (h : Counted s) {node : Nat} {queue : FrontierQueue}
    (hp : s.queue.pop = some (node, queue)) : 0 < s.remaining ∧
      ∃ t, (s.leave queue).expand (a.out node) = .ok t ∧ Counted t.settle := by
  obtain ⟨b, todo, seen, won, hwithin, hremaining, hnone⟩ := h
  cases todo with
  | nil =>
    have hempty : s.queue.toList = [] := by rw [hwithin.queue, hnone rfl]; rfl
    rw [(s.queue.pop_eq_none_iff).mpr hempty] at hp
    cases hp
  | cons v rest =>
    refine ⟨by rw [hremaining]; exact Nat.succ_pos _, ?_⟩
    obtain ⟨queue', t, hpop, ht, hwithin, hr, -⟩ := hwithin.leave (a := a)
    rw [hp] at hpop
    obtain ⟨rfl, rfl⟩ := Prod.mk.inj (Option.some.inj hpop)
    refine ⟨t, ht, ?_⟩
    rw [hremaining, List.length_cons] at hr
    cases rest with
    | nil => exact (hwithin.settle_last (by rw [hr]; rfl)).counted
    | cons w rest =>
      rw [List.length_cons] at hr
      obtain ⟨hwithin, hr', -⟩ := hwithin.settle_more (by omega)
      refine ⟨b, w :: rest, _, _, hwithin, ?_, fun hnil => by cases hnil⟩
      rw [hr', hr, List.length_cons]
      rfl

theorem Passes.counted (h : Passes a s t) (hs : Counted s) : Counted t := by
  induction h with
  | refl => exact hs
  | step _ hpop hexpand ih =>
    obtain ⟨-, u, hu, hcounted⟩ := ih.step (a := a) hpop
    rw [hexpand] at hu
    rw [Except.ok.inj hu]
    exact hcounted

end BreadthState

/-! ### Accepted files -/

namespace Image

/-- Edges lead from a position to another, one after the other. -/
def Reaches (image : Image) : Nat → Nat → Prop := Relation.ReflTransGen image.Link

variable {image : Image}

theorem Sound.adjacency_reaches (hs : image.Sound) : image.adjacency.Reaches = image.Reaches := by
  have hlink : (fun u v => v ∈ image.adjacency.out u) = image.Link :=
    funext fun u => funext fun v => propext hs.mem_out_iff
  rw [Adjacency.Reaches, Reaches, hlink]

theorem Sound.reaches_iff (hs : image.Sound) {start v : Nat} :
    image.Reaches start v ↔ ∃ k, image.adjacency.Hop start v k := by
  rw [← hs.adjacency_reaches, Adjacency.reaches_iff, Adjacency.exists_hop_iff]

theorem hop_lt_unreached {b : ByteArray} (h : parse b = .ok image) {start v k : Nat}
    (hstart : start < image.nodes.size) (hv : image.adjacency.Hop start v k) : k < unreached := by
  have hk : k < image.nodes.size := hv.level_lt (Sound.of_parse h).closed hstart
  have hsize := (size_le_of_parse h).1
  unfold maxElements at hsize
  unfold unreached
  omega

theorem Sound.exists_reach (hs : image.Sound) {start : Nat} (hstart : start < image.nodes.size)
    (recorded : Bool) : ∃ r, ∃ reach : Finset Nat,
      image.adjacency.breadthFirst start recorded = .ok r ∧
      (∀ v, v ∈ reach ↔ image.Reaches start v) ∧ r.reached = reach.card := by
  obtain ⟨c, hexact, hnil, hbreadth⟩ := Adjacency.exists_breadthFirst hs.closed hstart recorded
  refine ⟨c.answer, c.seen.toBitSet.toList.toFinset, hbreadth, fun v => ?_, c.reached_answer⟩
  rw [List.mem_toFinset, hexact.mem_toList_iff hnil, hs.reaches_iff]

theorem Sound.edges_eq_sum (hs : image.Sound) {start : Nat} (hstart : start < image.nodes.size)
    {recorded : Bool} {c : LevelState} (hc : c.Exact image.adjacency start recorded)
    (hf : c.frontier = []) : c.metrics.edges =
      ∑ v ∈ c.seen.toBitSet.toList.toFinset, (image.edgesFrom v).length := by
  have hedges := hc.edges
  rw [hf] at hedges
  rw [List.sum_toFinset _ (BitSet.nodup_toList _), sum_map_eq_total]
  refine hedges.trans ?_
  unfold Adjacency.edgesOut
  rw [← sum_map_eq_total, ← sum_map_eq_total]
  refine congrArg List.sum (List.map_congr_left fun v hv => ?_)
  obtain ⟨k, hk⟩ := (hc.mem_toList_iff hf).mp hv
  have hlt : v < image.nodes.size := hk.lt_count hs.closed hstart
  show (image.targets v).length = _
  rw [hs.targets_eq hlt, List.length_map]

/-- **Breadth-first search of an accepted file** answers the positions that the start reaches, their
number, their distances on request, and the work done. It fails only for a start past the nodes: its
queue never refuses a position, and what remains of a level is never counted below zero. -/
theorem breadth_of_accepted {b : ByteArray} (h : parse b = .ok image) (start : Nat)
    (recorded : Bool) :
    (∀ u v, v ∈ image.adjacency.out u ↔ image.Link u v) ∧
    (image.nodes.size ≤ start → image.adjacency.breadthFirst start recorded =
      .error (.outOfRange .node start image.nodes.size)) ∧
    (start < image.nodes.size → ∃ r, ∃ reach : Finset Nat, ∃ depth,
      image.adjacency.breadthFirst start recorded = .ok r ∧
      (∀ v, v ∈ reach ↔ image.Reaches start v) ∧
      r.seen.bits = image.nodes.size ∧ (∀ v, r.seen.test v = true ↔ v ∈ reach) ∧
      r.reached = reach.card ∧
      r.distances.isSome = recorded ∧
      (∀ d, r.distances = some d → d.size = image.nodes.size ∧
        ∀ v < image.nodes.size, ∀ k, d[v]? = some k ↔
          image.adjacency.Hop start v k ∨ (k = unreached ∧ ¬ image.Reaches start v)) ∧
      (∀ v k, image.adjacency.Hop start v k → k < unreached) ∧
      r.metrics = { nodes := reach.card, edges := ∑ v ∈ reach, (image.edgesFrom v).length,
                    levels := depth + 1 } ∧
      IsGreatest {k | ∃ v, image.adjacency.Hop start v k} depth ∧
      ∃ first, BreadthState.start image.nodes.size start recorded = .ok first ∧
        ∀ t, BreadthState.Passes image.adjacency first t →
          ∀ node queue, t.queue.pop = some (node, queue) → 0 < t.remaining ∧
            ∃ u, (t.leave queue).expand (image.adjacency.out node) = .ok u) := by
  have hs := Sound.of_parse h
  refine ⟨fun u v => hs.mem_out_iff, fun hstart => ?_, fun hstart => ?_⟩
  · have hcheck : image.adjacency.check start =
        .error (.outOfRange .node start image.nodes.size) := if_neg (Nat.not_lt.mpr hstart)
    unfold Adjacency.breadthFirst
    rw [hcheck]
    rfl
  · obtain ⟨c, hexact, hnil, hbreadth⟩ :=
      Adjacency.exists_breadthFirst hs.closed hstart recorded
    obtain ⟨depth, hlevel, hgreatest⟩ := hexact.exists_greatest hnil
    obtain ⟨first, hfirst, hmatches⟩ := BreadthState.exists_start hstart recorded
    have hnone : ∀ v, (∀ k, ¬ image.adjacency.Hop start v k) ↔ ¬ image.Reaches start v :=
      fun v => by rw [hs.reaches_iff, not_exists]
    have hcard := List.toFinset_card_of_nodup (BitSet.nodup_toList c.seen.toBitSet)
    refine ⟨c.answer, c.seen.toBitSet.toList.toFinset, depth, hbreadth, fun v => ?_, hexact.bits,
      fun v => ?_, c.reached_answer, hexact.recorded_iff,
      fun d hd => ⟨(hexact.distances d hd).size, ?_⟩,
      fun v k hv => hop_lt_unreached h hstart hv, ?_, hgreatest, first, hfirst, ?_⟩
    · rw [List.mem_toFinset, hexact.mem_toList_iff hnil, hs.reaches_iff]
    · rw [List.mem_toFinset, BitSet.mem_toList]
      rfl
    · intro v hv k
      rw [← hnone v]
      exact hexact.getElem?_distances hnil hd hv k
    · have hnodes := hexact.nodes
      rw [hnil] at hnodes
      rw [hcard, ← hnodes, ← hs.edges_eq_sum hstart hexact hnil, ← hlevel, ← hexact.levels]
      rfl
    · intro t ht node queue hp
      obtain ⟨hpos, u, hu, -⟩ := (ht.counted hmatches.counted).step (a := image.adjacency) hp
      exact ⟨hpos, u, hu⟩

theorem breadth_of_accepted_sample : ∃ b image, parse b = .ok image ∧
    image.adjacency.breadthFirst 2 true = .error (.outOfRange .node 2 2) ∧
    ∃ r, image.adjacency.breadthFirst 0 true = .ok r ∧
      ∀ v, r.seen.test v = true ↔ image.Reaches 0 v := by
  obtain ⟨b, image, h, hnodes, -⟩ := Graph.exists_parse_sample
  have hpast := (breadth_of_accepted h 2 true).2.1 (by omega)
  obtain ⟨r, reach, -, hr, hreach, -, htest, -⟩ :=
    (breadth_of_accepted h 0 true).2.2 (by omega)
  rw [hnodes] at hpast
  exact ⟨b, image, h, hpast, r, hr, fun v => (htest v).trans (hreach v)⟩

end Image

end FlatGraph
