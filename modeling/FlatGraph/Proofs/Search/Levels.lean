import FlatGraph.Proofs.Container.BitSet
import FlatGraph.Proofs.Search.Claims
import FlatGraph.Proofs.Search.Distance

/-! # A search level by level

A search by levels finds the positions at each distance, and nothing else. Neither the split of a
level into shares nor the schedule of its claims matters, since `Team.mem_run` says what a level
wins under all of them.

* `LevelState.Exact`: the state at the start of a level, with `LevelState.Exact.initial`,
  `LevelState.Exact.advance` and, once no level is left, `LevelState.Exact.agree`.
* `LevelState.Exact.run`: a search that is not called off ends, and every level on its way is
  exact. -/

namespace FlatGraph

/-! ### Shares -/

theorem flatten_pieces (size : Nat) (positions : List Nat) :
    (pieces size positions).flatten = positions := by
  fun_induction pieces size positions with
  | case1 => rfl
  | case2 first rest ih =>
    rw [List.flatten_cons, ih, List.cons_append, List.take_append_drop]

theorem flatten_shares (workers minFrontier : Nat) (level : List Nat) :
    (shares workers minFrontier level).flatten = level := by
  unfold shares
  split
  · simp
  · exact flatten_pieces _ _

theorem chunkSize_pos {workers : Nat} (hw : 0 < workers) {level : List Nat} (hl : level ≠ []) :
    0 < chunkSize workers level := by
  have := List.length_pos_of_ne_nil hl
  exact Nat.div_pos (by omega) hw

/-! ### Sets -/

theorem Claims.perm_toList {first seen : ClaimSet} {all won pending : List Nat}
    (h : Claims first all seen won pending) :
    seen.toBitSet.toList.Perm (first.toBitSet.toList ++ won) := by
  refine (List.perm_ext_iff_of_nodup (BitSet.nodup_toList _) ?_).mpr fun v => ?_
  · refine List.nodup_append.mpr ⟨BitSet.nodup_toList _, h.nodup, ?_⟩
    rintro v hv w hw rfl
    have hnew := (h.fresh v hw).2
    rw [BitSet.mem_toList] at hv
    rw [ClaimSet.test, hv] at hnew
    cases hnew
  · rw [List.mem_append, BitSet.mem_toList, BitSet.mem_toList]
    exact h.seen_iff v

/-! ### Distances -/

theorem size_foldl_setIfInBounds (positions : List Nat) (distance : Nat) (d : Array Nat) :
    (positions.foldl (fun d p => d.setIfInBounds p distance) d).size = d.size := by
  induction positions generalizing d with
  | nil => rfl
  | cons p rest ih => rw [List.foldl_cons, ih, Array.size_setIfInBounds]

theorem getElem?_foldl_setIfInBounds (positions : List Nat) (distance : Nat) (d : Array Nat)
    {v : Nat} (hv : v < d.size) :
    (positions.foldl (fun d p => d.setIfInBounds p distance) d)[v]? =
      if v ∈ positions then some distance else d[v]? := by
  induction positions generalizing d with
  | nil => simp
  | cons p rest ih =>
    rw [List.foldl_cons, ih _ (by rwa [Array.size_setIfInBounds]), Array.getElem?_setIfInBounds]
    by_cases hr : v ∈ rest
    · rw [if_pos hr, if_pos (List.mem_cons_of_mem p hr)]
    · rw [if_neg hr]
      by_cases hp : p = v
      · subst hp
        rw [if_pos rfl, if_pos hv, if_pos List.mem_cons_self]
      · rw [if_neg hp, if_neg (by simp [hr, Ne.symm hp])]

/-- The row `d` holds the distances up to `level`, and no others. -/
structure DistancesTo (a : Adjacency) (start level : Nat) (d : Array Nat) : Prop where
  size : d.size = a.count
  near : ∀ v k, k ≤ level → a.Hop start v k → d[v]? = some k
  far : ∀ v < a.count, (∀ k ≤ level, ¬ a.Hop start v k) → d[v]? = some unreached

variable {a : Adjacency} {start : Nat}

theorem DistancesTo.zero (hs : start < a.count) :
    DistancesTo a start 0 ((Array.replicate a.count unreached).setIfInBounds start 0) where
  size := by rw [Array.size_setIfInBounds, Array.size_replicate]
  near v k hk hv := by
    obtain rfl : k = 0 := by omega
    rw [Adjacency.hop_zero_iff] at hv
    rw [hv, Array.getElem?_setIfInBounds, if_pos rfl, if_pos (by simpa using hs)]
  far v hv hnot := by
    have hne : start ≠ v := fun h => hnot 0 (Nat.le_refl 0) (Adjacency.hop_zero_iff.mpr h.symm)
    rw [Array.getElem?_setIfInBounds, if_neg hne]
    simp [hv]

theorem DistancesTo.succ {level : Nat} {d : Array Nat} (h : DistancesTo a start level d)
    (hc : a.Closed) (hs : start < a.count) {next : List Nat}
    (hnext : ∀ v, v ∈ next ↔ a.Hop start v (level + 1)) :
    DistancesTo a start (level + 1)
      (next.foldl (fun d p => d.setIfInBounds p (level + 1)) d) where
  size := by rw [size_foldl_setIfInBounds, h.size]
  near v k hk hv := by
    have hlt := hv.lt_count hc hs
    rw [getElem?_foldl_setIfInBounds _ _ _ (by rwa [h.size])]
    split_ifs with hm
    · rw [hv.unique ((hnext v).mp hm)]
    · refine h.near v k ?_ hv
      rcases Nat.lt_or_eq_of_le hk with hk | rfl
      · omega
      · exact absurd ((hnext v).mpr hv) hm
  far v hv hnot := by
    rw [getElem?_foldl_setIfInBounds _ _ _ (by rwa [h.size])]
    rw [if_neg fun hm => hnot (level + 1) (Nat.le_refl _) ((hnext v).mp hm)]
    exact h.far v hv fun k hk => hnot k (by omega)

/-- Two rows hold the same distances if there is none beyond the levels of both. -/
theorem DistancesTo.eq {i j : Nat} {d e : Array Nat} (hd : DistancesTo a start i d)
    (he : DistancesTo a start j e) (hi : ∀ v k, a.Hop start v k → k ≤ i)
    (hj : ∀ v k, a.Hop start v k → k ≤ j) : d = e := by
  refine Array.ext_getElem? fun v => ?_
  by_cases hv : v < a.count
  · by_cases hr : ∃ k, a.Hop start v k
    · obtain ⟨k, hk⟩ := hr
      rw [hd.near v k (hi v k hk) hk, he.near v k (hj v k hk) hk]
    · rw [hd.far v hv fun k _ hk => hr ⟨k, hk⟩, he.far v hv fun k _ hk => hr ⟨k, hk⟩]
  · rw [Array.getElem?_eq_none (by rw [hd.size]; omega),
      Array.getElem?_eq_none (by rw [he.size]; omega)]

/-! ### Levels -/

namespace LevelState

/-- **The state at the start of a level is exact**: it has seen the positions up to this level, the
frontier is the level, each of its positions once, and what was counted covers all that was seen
before. -/
structure Exact (a : Adjacency) (start : Nat) (recorded : Bool) (s : LevelState) : Prop where
  bits : s.seen.bits = a.count
  seen_iff : ∀ v, s.seen.test v = true ↔ ∃ k ≤ s.level, a.Hop start v k
  nodup : s.frontier.Nodup
  mem_frontier : ∀ v, v ∈ s.frontier ↔ a.Hop start v s.level
  inhabited : ∀ k < s.level, ∃ v, a.Hop start v k
  levels : s.metrics.levels = s.level
  nodes : s.metrics.nodes + s.frontier.length = s.seen.toBitSet.toList.length
  edges : s.metrics.edges + a.edgesOut s.frontier = a.edgesOut s.seen.toBitSet.toList
  recorded_iff : s.distances.isSome = recorded
  distances : ∀ d, s.distances = some d → DistancesTo a start s.level d

variable {recorded : Bool} {s t : LevelState}

theorem seen_advance (shares : List (List Nat)) (schedule : List Nat) :
    (s.advance a shares schedule).seen = ((Team.start a s.seen shares).run schedule).1 := rfl

theorem frontier_advance (shares : List (List Nat)) (schedule : List Nat) :
    (s.advance a shares schedule).frontier = ((Team.start a s.seen shares).run schedule).2 := rfl

theorem distances_advance (shares : List (List Nat)) (schedule : List Nat) :
    (s.advance a shares schedule).distances =
      s.distances.map fun d => (s.advance a shares schedule).frontier.foldl
        (fun d p => d.setIfInBounds p (s.level + 1)) d := rfl

theorem testAndSet_empty_fst {count position : Nat} (hp : position < count) :
    ((ClaimSet.empty count).testAndSet position).1 = true := by
  have hnew : (ClaimSet.empty count).test position = false := BitSet.test_empty count position
  rw [ClaimSet.testAndSet_fst_eq, hnew, Bool.not_false, Bool.and_true]
  exact decide_eq_true hp

theorem claims_start (hs : start < a.count) (recorded : Bool) :
    Claims (ClaimSet.empty a.count) [start] (LevelState.start a.count start recorded).seen [start]
      [] := by
  have h := (Claims.start (ClaimSet.empty a.count) [start]).claim
  rwa [if_pos (testAndSet_empty_fst hs)] at h

theorem Exact.initial (hs : start < a.count) (recorded : Bool) :
    Exact a start recorded (LevelState.start a.count start recorded) := by
  have hclaims := claims_start hs recorded
  have hempty : (ClaimSet.empty a.count).toBitSet.toList = [] :=
    List.eq_nil_iff_forall_not_mem.mpr fun v hv => by
      rw [BitSet.mem_toList] at hv
      cases hv.symm.trans (BitSet.test_empty a.count v)
  have hperm := hclaims.perm_toList
  rw [hempty, List.nil_append] at hperm
  constructor
  case bits => exact hclaims.bits
  case seen_iff =>
    intro v
    have hnone := BitSet.test_empty a.count v
    rw [hclaims.seen_iff, List.mem_singleton]
    constructor
    · rintro (hv | rfl)
      · cases hv.symm.trans hnone
      · exact ⟨0, Nat.le_refl 0, Adjacency.hop_zero_iff.mpr rfl⟩
    · rintro ⟨k, hk, hv⟩
      obtain rfl : k = 0 := Nat.le_zero.mp hk
      exact Or.inr (Adjacency.hop_zero_iff.mp hv)
  case nodup => exact List.pairwise_singleton _ start
  case mem_frontier =>
    intro v
    exact List.mem_singleton.trans Adjacency.hop_zero_iff.symm
  case inhabited =>
    intro k hk
    exact absurd hk (Nat.not_lt_zero k)
  case levels => rfl
  case nodes =>
    rw [hperm.length_eq]
    exact Nat.zero_add 1
  case edges =>
    rw [a.edgesOut_perm hperm]
    exact Nat.zero_add _
  case recorded_iff => cases recorded <;> rfl
  case distances =>
    intro d hd
    cases recorded with
    | false => cases hd
    | true =>
      have hd : some ((Array.replicate a.count unreached).setIfInBounds start 0) = some d := hd
      rw [← Option.some.inj hd]
      exact DistancesTo.zero hs

theorem Exact.mem_next (h : Exact a start recorded s) (hc : a.Closed) (hs : start < a.count)
    {shares : List (List Nat)} (hshares : shares.flatten = s.frontier) (schedule : List Nat)
    (v : Nat) : v ∈ (s.advance a shares schedule).frontier ↔ a.Hop start v (s.level + 1) := by
  rw [frontier_advance, Team.mem_run, hshares, h.bits, ← Bool.not_eq_true, h.seen_iff,
    Adjacency.hop_succ_iff]
  constructor
  · rintro ⟨⟨u, hu, he⟩, -, hnew⟩
    exact ⟨⟨u, (h.mem_frontier u).mp hu, he⟩, fun j hj hv => hnew ⟨j, hj, hv⟩⟩
  · rintro ⟨⟨u, hu, he⟩, hnew⟩
    refine ⟨⟨u, (h.mem_frontier u).mpr hu, he⟩, hc u (hu.lt_count hc hs) v he, ?_⟩
    rintro ⟨k, hk, hv⟩
    exact hnew k hk hv

/-- **A level keeps the state exact**, whatever its shares and its schedule. -/
theorem Exact.advance (h : Exact a start recorded s) (hc : a.Closed) (hs : start < a.count)
    {shares : List (List Nat)} (hshares : shares.flatten = s.frontier) (schedule : List Nat)
    (hf : s.frontier ≠ []) : Exact a start recorded (s.advance a shares schedule) := by
  have hclaims := Team.claims_run a s.seen shares schedule
  have hperm := hclaims.perm_toList
  have hnext := h.mem_next hc hs hshares schedule
  constructor
  case bits => exact (Team.bits_run a s.seen shares schedule).trans h.bits
  case seen_iff =>
    intro v
    rw [seen_advance, Team.test_run, ← frontier_advance, hnext, h.seen_iff]
    constructor
    · rintro (⟨k, hk, hv⟩ | hv)
      · exact ⟨k, Nat.le_succ_of_le hk, hv⟩
      · exact ⟨s.level + 1, Nat.le_refl _, hv⟩
    · rintro ⟨k, hk, hv⟩
      rcases Nat.le_or_eq_of_le_succ hk with hk | rfl
      · exact Or.inl ⟨k, hk, hv⟩
      · exact Or.inr hv
  case nodup => exact Team.nodup_run a s.seen shares schedule
  case mem_frontier => exact hnext
  case inhabited =>
    intro k hk
    rcases Nat.lt_or_eq_of_le (Nat.le_of_lt_succ hk) with hk | rfl
    · exact h.inhabited k hk
    · obtain ⟨v, hv⟩ := List.exists_mem_of_ne_nil _ hf
      exact ⟨v, (h.mem_frontier v).mp hv⟩
  case levels => exact congrArg (· + 1) h.levels
  case nodes =>
    have hlength := hperm.length_eq
    rw [List.length_append, ← h.nodes] at hlength
    exact hlength.symm
  case edges =>
    have hedges := a.edgesOut_perm hperm
    rw [Adjacency.edgesOut_append, ← h.edges] at hedges
    exact hedges.symm
  case recorded_iff =>
    rw [← h.recorded_iff]
    exact Option.isSome_map
  case distances =>
    intro d hd
    rw [distances_advance, Option.map_eq_some_iff] at hd
    obtain ⟨e, he, rfl⟩ := hd
    exact (h.distances e he).succ hc hs hnext

/-! ### The end of a search -/

theorem Exact.hop_le (h : Exact a start recorded s) (hf : s.frontier = []) {v k : Nat}
    (hv : a.Hop start v k) : k ≤ s.level := by
  by_contra hk
  refine Adjacency.not_hop_of_le (fun u hu => ?_) (Nat.le_of_not_le hk) v hv
  have := (h.mem_frontier u).mpr hu
  rw [hf] at this
  cases this

theorem Exact.level_le {r : Bool} (h : Exact a start recorded s) (ht : Exact a start r t)
    (hf : s.frontier = []) : t.level ≤ s.level := by
  by_contra hlt
  obtain ⟨v, hv⟩ := ht.inhabited s.level (Nat.lt_of_not_le hlt)
  have := (h.mem_frontier v).mpr hv
  rw [hf] at this
  cases this

/-- **Two searches that have ended agree**: in the set they have seen, in the work they have done
and in the distances that they recorded. -/
theorem Exact.agree {r : Bool} (h : Exact a start recorded s) (ht : Exact a start r t)
    (hf : s.frontier = []) (hft : t.frontier = []) :
    s.seen.toBitSet = t.seen.toBitSet ∧ s.metrics = t.metrics ∧
      ∀ d e, s.distances = some d → t.distances = some e → d = e := by
  have hlevel : s.level = t.level := Nat.le_antisymm (ht.level_le h hft) (h.level_le ht hf)
  have hseen : s.seen.toBitSet = t.seen.toBitSet := by
    refine BitSet.ext_test (h.bits.trans ht.bits.symm) fun v => ?_
    rw [Bool.eq_iff_iff]
    show s.seen.test v = true ↔ t.seen.test v = true
    rw [h.seen_iff, ht.seen_iff, hlevel]
  refine ⟨hseen, ?_, fun d e hd he => ?_⟩
  · have hnodes := h.nodes
    have hedges := h.edges
    rw [hseen, ← ht.nodes, hf, hft] at hnodes
    rw [hseen, ← ht.edges, hf, hft] at hedges
    have hlevels := h.levels
    rw [hlevel, ← ht.levels] at hlevels
    revert hnodes hedges hlevels
    cases s.metrics
    cases t.metrics
    rintro hnodes hedges hlevels
    rw [Metrics.mk.injEq]
    exact ⟨Nat.add_right_cancel hnodes, Nat.add_right_cancel hedges, hlevels⟩
  · exact (h.distances d hd).eq (ht.distances e he) (fun _ _ hv => h.hop_le hf hv)
      fun _ _ hv => ht.hop_le hft hv

/-! ### Whole searches -/

/-- The state after the level of `s`, which is split and scheduled as a search does it. -/
def next (a : Adjacency) (workers minFrontier : Nat) (schedule : Schedule) (s : LevelState) :
    LevelState :=
  s.advance a (shares workers minFrontier s.frontier) (schedule s.level)

/-- The state after `n` levels. -/
def after (a : Adjacency) (workers minFrontier : Nat) (schedule : Schedule) (s : LevelState) :
    (n : Nat) → LevelState
  | 0 => s
  | n + 1 => next a workers minFrontier schedule (after a workers minFrontier schedule s n)

variable {workers minFrontier : Nat} {schedule : Schedule}

theorem after_next (n : Nat) :
    after a workers minFrontier schedule (next a workers minFrontier schedule s) n =
      after a workers minFrontier schedule s (n + 1) := by
  induction n with
  | zero => rfl
  | succ n ih => rw [after, ih]; rfl

theorem run_of_nil {cancelled : Bool} (hf : s.frontier = []) :
    run a workers minFrontier cancelled schedule s = .ok s := by
  unfold run
  rw [dif_pos hf]

theorem run_of_ne_nil (hf : s.frontier ≠ []) :
    run a workers minFrontier false schedule s =
      run a workers minFrontier false schedule (next a workers minFrontier schedule s) := by
  conv_lhs => unfold run
  rw [dif_neg hf, if_neg Bool.false_ne_true]
  rfl

theorem potential_next_lt (hf : s.frontier ≠ []) :
    (next a workers minFrontier schedule s).potential < s.potential := by
  have := List.length_pos_of_ne_nil hf
  rw [next, potential_advance, potential]
  omega

theorem Exact.next (h : Exact a start recorded s) (hc : a.Closed) (hs : start < a.count)
    (hf : s.frontier ≠ []) :
    Exact a start recorded (next a workers minFrontier schedule s) :=
  h.advance hc hs (flatten_shares _ _ _) _ hf

/-- **A search that is not called off ends**, and the state after each of its levels is exact. -/
theorem Exact.run (h : Exact a start recorded s) (hc : a.Closed) (hs : start < a.count)
    (workers minFrontier : Nat) (schedule : Schedule) :
    ∃ depth, run a workers minFrontier false schedule s =
        .ok (after a workers minFrontier schedule s depth) ∧
      (after a workers minFrontier schedule s depth).frontier = [] ∧
      (∀ k ≤ depth, Exact a start recorded (after a workers minFrontier schedule s k)) ∧
      ∀ k < depth, (after a workers minFrontier schedule s k).frontier ≠ [] := by
  -- on the positions still to be expanded: a level that is not empty leaves fewer of them
  induction hn : s.potential using Nat.strong_induction_on generalizing s with
  | h n ih =>
    by_cases hf : s.frontier = []
    · refine ⟨0, run_of_nil hf, hf, fun k hk => ?_, fun k hk => absurd hk (Nat.not_lt_zero k)⟩
      obtain rfl : k = 0 := Nat.le_zero.mp hk
      exact h
    · subst hn
      obtain ⟨depth, hrun, hend, hexact, hne⟩ :=
        ih _ (potential_next_lt hf) (h.next hc hs hf) rfl
      rw [after_next] at hrun hend
      refine ⟨depth + 1, (run_of_ne_nil hf).trans hrun, hend, fun k hk => ?_, fun k hk => ?_⟩
      · cases k with
        | zero => exact h
        | succ k => exact after_next (s := s) k ▸ hexact k (Nat.le_of_succ_le_succ hk)
      · cases k with
        | zero => exact hf
        | succ k => exact after_next (s := s) k ▸ hne k (Nat.lt_of_succ_lt_succ hk)

theorem level_after (n : Nat) :
    (after a workers minFrontier schedule s n).level = s.level + n := by
  induction n with
  | zero => rfl
  | succ n ih => exact congrArg (· + 1) ih

end LevelState

end FlatGraph
