import FlatGraph.Proofs.Image.Adjacency
import FlatGraph.Proofs.Search.Queue

/-! # A team finds what a queue finds

Both searches pass through exact levels, and when no level is left exact states agree.

* `Adjacency.exists_breadthFirst`, `Adjacency.parallelBreadthFirst_eq`: what the two searches
  answer, on any graph whose edges stay inside.
* `Image.parallel_of_accepted`: on an accepted file they answer the same. -/

namespace FlatGraph

/-- A search by a team starts if there is a pool, or if workers are asked for and started. -/
theorem TeamOptions.exists_size {o : TeamOptions} {starter : Starter}
    (h : o.pool = none → 1 ≤ o.workers)
    (hstarts : o.pool = none → ∃ threads, starter o.workers = .ok threads) :
    ∃ workers, o.size? starter = .ok workers ∧ 0 < workers := by
  have hthreads : ∃ threads, o.threads starter = .ok threads := by
    unfold threads
    cases hp : o.pool with
    | some threads => exact ⟨threads, rfl⟩
    | none =>
      obtain ⟨threads, hstarted⟩ := hstarts hp
      dsimp only
      rw [if_neg (Nat.ne_of_gt (h hp)), hstarted]
      exact ⟨threads, rfl⟩
  obtain ⟨threads, hthreads⟩ := hthreads
  refine ⟨max threads 1, ?_, Nat.lt_of_lt_of_le Nat.one_pos (Nat.le_max_right _ _)⟩
  unfold size?
  rw [hthreads]
  rfl

/-- What a search by levels answers when it ends in the state `s`. -/
def LevelState.answer (s : LevelState) : Reach where
  reached := s.seen.toBitSet.countOnes
  seen := s.seen.toBitSet
  distances := s.distances
  metrics := s.metrics

theorem LevelState.Exact.exists_distances {a : Adjacency} {start : Nat} {q r : Bool}
    {s t : LevelState} (hs : Exact a start q s) (ht : Exact a start r t) (hf : s.frontier = [])
    (hft : t.frontier = []) : ∃ d, s.distances = (if q then some d else none) ∧
      t.distances = if r then some d else none := by
  have hagree := (hs.agree ht hf hft).2.2
  have hq := hs.recorded_iff
  have hr := ht.recorded_iff
  cases hd : s.distances with
  | none =>
    rw [hd] at hq
    subst hq
    cases he : t.distances with
    | none =>
      rw [he] at hr
      subst hr
      exact ⟨#[], rfl, rfl⟩
    | some e =>
      rw [he] at hr
      subst hr
      exact ⟨e, rfl, rfl⟩
  | some d =>
    rw [hd] at hq
    subst hq
    refine ⟨d, rfl, ?_⟩
    cases he : t.distances with
    | none =>
      rw [he] at hr
      subst hr
      rfl
    | some e =>
      rw [he] at hr
      subst hr
      rw [hagree d e hd he]
      rfl

namespace Adjacency

variable {a : Adjacency} {start : Nat}

theorem check_of_lt (hs : start < a.count) : a.check start = .ok () := if_pos hs

theorem check_of_ge (hs : a.count ≤ start) :
    a.check start = .error (.outOfRange .node start a.count) := if_neg (Nat.not_lt.mpr hs)

theorem exists_breadthFirst (hc : a.Closed) (hs : start < a.count) (recorded : Bool) :
    ∃ c : LevelState, c.Exact a start recorded ∧ c.frontier = [] ∧
      a.breadthFirst start recorded = .ok c.answer := by
  obtain ⟨s, hstart, hmatches⟩ := BreadthState.exists_start hs recorded
  obtain ⟨t, c, ht, hlevels, hend⟩ := hmatches.run a 0
  obtain ⟨depth, hrun, hnil, hexact, -⟩ :=
    (LevelState.Exact.initial hs recorded).run hc hs 1 0 .inTurn
  rw [hrun] at hlevels
  obtain rfl := Except.ok.inj hlevels
  refine ⟨_, hexact depth (Nat.le_refl depth), hnil, ?_⟩
  have hdistances := hend.within.distances
  rw [List.toList_toArray, BreadthState.record_nil] at hdistances
  unfold breadthFirst LevelState.answer
  rw [check_of_lt hs, hstart]
  show (BreadthState.run a s >>= fun t => pure _) = _
  rw [ht]
  show Except.ok (Reach.mk t.seen.countOnes t.seen t.distances t.metrics) = _
  rw [hend.within.seen_eq, hend.metrics, hdistances]

theorem parallelBreadthFirst_eq (hs : start < a.count) {o : TeamOptions} {starter : Starter}
    {workers : Nat} (hw : o.size? starter = .ok workers) (hcancel : o.cancelled ≠ some true) {schedule : Schedule}
    {c : LevelState} (hrun : LevelState.run a workers o.minFrontier false schedule
      (LevelState.start a.count start o.recordDistances) = .ok c) :
    a.parallelBreadthFirst start o starter schedule = .ok c.answer := by
  have hgo : (o.cancelled == some true) = false := beq_false_of_ne hcancel
  unfold parallelBreadthFirst
  rw [check_of_lt hs, hw, hgo]
  show (LevelState.run a workers o.minFrontier false schedule
    (LevelState.start a.count start o.recordDistances) >>= fun s => pure _) = _
  rw [hrun]
  rfl

end Adjacency

namespace Image

variable {image : Image}

theorem Sound.closed (hs : image.Sound) : image.adjacency.Closed := by
  intro v hv w hw
  have hw : w ∈ image.targets v := hw
  rw [hs.targets_eq hv, List.mem_map] at hw
  obtain ⟨e, he, rfl⟩ := hw
  exact hs.target_lt he

/-- The levels of a search of an accepted file by a team, from the start on. -/
def levels (image : Image) (start workers : Nat) (o : TeamOptions) (schedule : Schedule) :
    (n : Nat) → LevelState :=
  LevelState.after image.adjacency workers o.minFrontier schedule
    (LevelState.start image.nodes.size start o.recordDistances)

/-- **A team finds what a queue finds**, for every accepted file, start, number of workers, least
size of a level that is split, and schedule of the claims, if the system starts the workers. Each
level holds the positions at its distance, each once, and no level is split into pieces of size
zero. The edges that are followed are those of the table. -/
theorem parallel_of_accepted {b : ByteArray} (h : parse b = .ok image) {start : Nat}
    (hstart : start < image.nodes.size) (o : TeamOptions) (hworkers : o.pool = none → 1 ≤ o.workers)
    (starter : Starter) (hstarts : o.pool = none → ∃ threads, starter o.workers = .ok threads)
    (hcancel : o.cancelled ≠ some true) (schedule : Schedule) (recordDistances : Bool) :
    (∀ u v, v ∈ image.adjacency.out u ↔ image.Link u v) ∧ ∃ r t workers depth,
      image.adjacency.breadthFirst start recordDistances = .ok r ∧
      image.adjacency.parallelBreadthFirst start o starter schedule = .ok t ∧
      t.reached = r.reached ∧ t.seen = r.seen ∧ t.metrics = r.metrics ∧
      (∃ d, r.distances = (if recordDistances then some d else none) ∧
        t.distances = if o.recordDistances then some d else none) ∧
      o.size? starter = .ok workers ∧ 1 ≤ workers ∧
      LevelState.run image.adjacency workers o.minFrontier false schedule
          (levels image start workers o schedule 0) =
        .ok (levels image start workers o schedule depth) ∧
      (∀ k ≤ depth, (levels image start workers o schedule k).frontier.Nodup ∧
        ∀ v, v ∈ (levels image start workers o schedule k).frontier ↔
          image.adjacency.Hop start v k) ∧
      ∀ k < depth, 0 < chunkSize workers (levels image start workers o schedule k).frontier := by
  have hsound := Sound.of_parse h
  have hc : image.adjacency.Closed := hsound.closed
  have hs : start < image.adjacency.count := hstart
  obtain ⟨c, hexact, hnil, hbreadth⟩ :=
    Adjacency.exists_breadthFirst hc hs recordDistances
  obtain ⟨workers, hsize, hpos⟩ := TeamOptions.exists_size hworkers hstarts
  obtain ⟨depth, hrun, hend, hlevels, hne⟩ :=
    (LevelState.Exact.initial hs o.recordDistances).run hc hs workers o.minFrontier schedule
  have hlast := hlevels depth (Nat.le_refl depth)
  obtain ⟨hseen, hmetrics, -⟩ := hlast.agree hexact hend hnil
  refine ⟨fun u v => hsound.mem_out_iff, c.answer, _, workers, depth, hbreadth,
    Adjacency.parallelBreadthFirst_eq hs hsize hcancel hrun, ?_, hseen, hmetrics,
    hexact.exists_distances hlast hnil hend, hsize, hpos, hrun, fun k hk => ?_, fun k hk => ?_⟩
  · exact congrArg BitSet.countOnes hseen
  · refine ⟨(hlevels k hk).nodup, fun v => ?_⟩
    have hlevel : (levels image start workers o schedule k).level = k :=
      (LevelState.level_after k).trans (Nat.zero_add k)
    have hmem : v ∈ (levels image start workers o schedule k).frontier ↔
        image.adjacency.Hop start v (levels image start workers o schedule k).level :=
      (hlevels k hk).mem_frontier v
    rwa [hlevel] at hmem
  · exact chunkSize_pos hpos (hne k hk)

theorem parallel_of_accepted_sample : ∃ b image, parse b = .ok image ∧
    ∃ r t, image.adjacency.breadthFirst 0 false = .ok r ∧
      image.adjacency.parallelBreadthFirst 0 { workers := 2, minFrontier := 0 } .full
        (fun _ => [1, 0]) = .ok t ∧ t.seen = r.seen := by
  obtain ⟨b, image, h, hnodes, -⟩ := Graph.exists_parse_sample
  obtain ⟨-, r, t, _, _, hr, ht, -, hseen, -⟩ := parallel_of_accepted h (show 0 < _ by omega)
    { workers := 2, minFrontier := 0 } (fun _ => by decide) .full (fun _ => ⟨2, rfl⟩) (by decide)
    (fun _ => [1, 0]) false
  exact ⟨b, image, h, r, t, hr, ht, hseen⟩

end Image

end FlatGraph
