import FlatGraph.Proofs.Search.Levels

/-! # The search with a queue, level by level

The queue search keeps no levels apart, but it does what a single worker does to a whole level: the
positions of the level leave the queue in order, and the queue behind them fills with what they
claim.

* `BreadthState.Within`: the state of the queue search inside a level.
* `BreadthState.Within.run`: it passes from the start of a level to the start of the next one.
* `BreadthState.Matches.run`: it ends, with the state of the search by levels. -/

namespace FlatGraph

theorem FrontierQueue.exists_push {q : FrontierQueue} (node : Nat) (h : q.length < q.capacity) :
    ∃ r, q.push node = .ok r := by
  have hne : q.length ≠ q.slots.size := Nat.ne_of_lt h
  unfold push
  rw [dif_neg hne]
  exact ⟨_, rfl⟩

theorem FrontierQueue.exists_pop {q : FrontierQueue} {node : Nat} {rest : List Nat}
    (h : q.toList = node :: rest) :
    ∃ r, q.pop = some (node, r) ∧ r.toList = rest ∧ r.capacity = q.capacity := by
  rcases hp : q.pop with _ | ⟨front, r⟩
  · rw [(q.pop_eq_none_iff).mp hp] at h
    cases h
  · have hlist := toList_pop hp
    rw [h] at hlist
    obtain ⟨rfl, rfl⟩ := List.cons.inj hlist
    exact ⟨r, rfl, rfl, capacity_pop hp⟩

namespace BreadthState

/-- **The state inside a level.** The level is that of `b`; its positions `todo` are still queued,
and those before them have claimed `won` and left the set `seen`. There is room for all free
positions. -/
structure Within (b : LevelState) (todo : List Nat) (seen : ClaimSet) (won : Array Nat)
    (s : BreadthState) : Prop where
  seen_eq : s.seen = seen.toBitSet
  queue : s.queue.toList = todo ++ won.toList
  room : seen.absent + (todo.length + won.size) ≤ s.queue.capacity
  distances : s.distances = LevelState.record b.distances won.toList (b.level + 1)
  level : s.level = b.level
  discovered : s.discovered = won.size

variable {a : Adjacency} {b : LevelState} {todo : List Nat} {seen : ClaimSet} {won : Array Nat}
  {s : BreadthState}

theorem record_nil (d : Option (Array Nat)) (distance : Nat) :
    LevelState.record d [] distance = d := by
  cases d <;> rfl

theorem record_push (d : Option (Array Nat)) (won : Array Nat) (target distance : Nat) :
    LevelState.record d (won.push target).toList distance =
      (LevelState.record d won.toList distance).map fun d =>
        d.setIfInBounds target distance := by
  cases d with
  | none => rfl
  | some d => simp [LevelState.record, List.foldl_append]

/-- The state after an edge to a target that was seen before. -/
def pass (s : BreadthState) : BreadthState :=
  { s with metrics := { s.metrics with edges := s.metrics.edges + 1 } }

/-- The state after an edge to a new target, which is queued. -/
def discover (s : BreadthState) (target : Nat) (seen : BitSet) (queue : FrontierQueue) :
    BreadthState where
  seen
  queue
  distances := s.distances.map fun d => d.setIfInBounds target (s.level + 1)
  level := s.level
  remaining := s.remaining
  discovered := s.discovered + 1
  metrics := { s.metrics with edges := s.metrics.edges + 1 }

theorem scan_of_seen {target : Nat} {seen : BitSet} (h : s.seen.testAndSet target = (false, seen)) :
    s.scan target = .ok { s.pass with seen } := by
  simp only [scan, h]
  rfl

theorem scan_of_new {target : Nat} {seen : BitSet} {queue : FrontierQueue}
    (h : s.seen.testAndSet target = (true, seen)) (hq : s.queue.push target = .ok queue) :
    s.scan target = .ok (s.discover target seen queue) := by
  simp only [scan, h, hq]
  rfl

theorem Within.length_queue (h : Within b todo seen won s) :
    s.queue.length = todo.length + won.size := by
  rw [← FrontierQueue.length_toList, h.queue, List.length_append]
  rfl

theorem Within.pass (h : Within b todo seen won s) {target : Nat}
    (hf : (seen.testAndSet target).1 = false) :
    Within b todo (seen.testAndSet target).2 won
      { s.pass with seen := (seen.testAndSet target).2.toBitSet } := by
  have habsent := seen.absent_testAndSet target
  have hroom := h.room
  refine ⟨rfl, h.queue, ?_, h.distances, h.level, h.discovered⟩
  rw [hf, if_neg Bool.false_ne_true, Nat.add_zero] at habsent
  rw [habsent]
  exact hroom

theorem Within.discover (h : Within b todo seen won s) {target : Nat}
    (hf : (seen.testAndSet target).1 = true) : ∃ queue, s.queue.push target = .ok queue ∧
      Within b todo (seen.testAndSet target).2 (won.push target)
        (s.discover target (seen.testAndSet target).2.toBitSet queue) := by
  have habsent := seen.absent_testAndSet target
  have hroom := h.room
  have hlength := h.length_queue
  rw [hf, if_pos rfl] at habsent
  obtain ⟨queue, hpush⟩ := FrontierQueue.exists_push (q := s.queue) target (by omega)
  refine ⟨queue, hpush, rfl, ?_, ?_, ?_, h.level, ?_⟩
  · show queue.toList = _
    rw [FrontierQueue.toList_push hpush, h.queue, Array.toList_push, List.append_assoc]
  · show _ ≤ queue.capacity
    rw [FrontierQueue.capacity_push hpush, Array.size_push]
    omega
  · rw [record_push, ← h.distances, ← h.level]
    rfl
  · rw [Array.size_push, ← h.discovered]
    rfl

theorem Within.scan (h : Within b todo seen won s) (target : Nat) :
    ∃ t, s.scan target = .ok t ∧
      Within b todo (seen.testAndSet target).2
        (if (seen.testAndSet target).1 then won.push target else won) t ∧
      t.remaining = s.remaining ∧
      t.metrics = { s.metrics with edges := s.metrics.edges + 1 } := by
  have hclaim : s.seen.testAndSet target =
      ((seen.testAndSet target).1, (seen.testAndSet target).2.toBitSet) := by
    rw [h.seen_eq, ClaimSet.testAndSet_fst, ClaimSet.toBitSet_testAndSet]
  cases hf : (seen.testAndSet target).1 with
  | false =>
    rw [hf] at hclaim
    exact ⟨_, scan_of_seen hclaim, h.pass hf, rfl, rfl⟩
  | true =>
    rw [hf] at hclaim
    obtain ⟨queue, hpush, hwithin⟩ := h.discover hf
    exact ⟨_, scan_of_new hclaim hpush, hwithin, rfl, rfl⟩

theorem Within.expand (h : Within b todo seen won s) (targets : List Nat) :
    ∃ t, s.expand targets = .ok t ∧
      Within b todo (Worker.finish targets seen won).1 (Worker.finish targets seen won).2 t ∧
      t.remaining = s.remaining ∧
      t.metrics = { s.metrics with edges := s.metrics.edges + targets.length } := by
  induction targets generalizing seen won s with
  | nil => exact ⟨s, rfl, h, rfl, rfl⟩
  | cons target rest ih =>
    obtain ⟨u, hu, hwithin, hremaining, hmetrics⟩ := h.scan target
    obtain ⟨t, ht, hwithin, hr, hm⟩ := ih hwithin
    refine ⟨t, ?_, ?_, hr.trans hremaining, ?_⟩
    · unfold BreadthState.expand at ht ⊢
      rw [List.foldlM_cons, hu]
      exact ht
    · rw [Worker.finish_cons won rest rfl]
      exact hwithin
    · rw [hm, hmetrics, List.length_cons]
      simp only [Metrics.mk.injEq, true_and, and_true]
      omega

/-! ### Levels -/

/-- **The state at the start of a level** is that of the search by levels. -/
structure Matches (b : LevelState) (s : BreadthState) : Prop where
  within : Within b b.frontier b.seen #[] s
  remaining : s.remaining = b.frontier.length
  metrics : s.metrics = b.metrics

/-- The state at the start of the level after that of `b`, of which `next` is the frontier and
`seen` the set. -/
def levelAfter (b : LevelState) (seen : ClaimSet) (next : Array Nat) (metrics : Metrics) :
    LevelState where
  seen
  frontier := next.toList
  distances := LevelState.record b.distances next.toList (b.level + 1)
  level := b.level + 1
  metrics

theorem run_of_nil (h : s.queue.toList = []) : run a s = .ok s := by
  unfold run
  split
  · rfl
  · next hp => rw [(s.queue.pop_eq_none_iff).mpr h] at hp; cases hp

theorem run_of_pop {node : Nat} {queue : FrontierQueue} {t : BreadthState}
    (hp : s.queue.pop = some (node, queue)) (ht : (s.leave queue).expand (a.out node) = .ok t) :
    run a s = run a t.settle := by
  conv_lhs => unfold run
  split
  · next hn => rw [hp] at hn; cases hn
  · next hp' =>
    rw [hp] at hp'
    obtain ⟨rfl, rfl⟩ := Prod.mk.inj (Option.some.inj hp')
    split
    · next he => rw [ht] at he; cases he
    · next he =>
      rw [ht] at he
      cases he
      rfl

theorem Within.leave {v : Nat} (h : Within b (v :: todo) seen won s) :
    ∃ queue t, s.queue.pop = some (v, queue) ∧ (s.leave queue).expand (a.out v) = .ok t ∧
      Within b todo (Worker.finish (a.out v) seen won).1 (Worker.finish (a.out v) seen won).2 t ∧
      t.remaining = s.remaining ∧
      t.metrics = ⟨s.metrics.nodes + 1, s.metrics.edges + (a.out v).length, s.metrics.levels⟩ := by
  obtain ⟨queue, hpop, hlist, hcapacity⟩ := FrontierQueue.exists_pop h.queue
  have hroom := h.room
  rw [List.length_cons] at hroom
  have hleave : Within b todo seen won (s.leave queue) :=
    ⟨h.seen_eq, hlist, by show _ ≤ queue.capacity; omega, h.distances, h.level, h.discovered⟩
  obtain ⟨t, ht, hwithin, hremaining, hmetrics⟩ := hleave.expand (a.out v)
  exact ⟨queue, t, hpop, ht, hwithin, hremaining, hmetrics⟩

theorem finish_append (xs ys : List Nat) (seen : ClaimSet) (won : Array Nat) :
    Worker.finish (xs ++ ys) seen won =
      Worker.finish ys (Worker.finish xs seen won).1 (Worker.finish xs seen won).2 := by
  induction xs generalizing seen won with
  | nil => rfl
  | cons x xs ih =>
    rw [List.cons_append, Worker.finish_cons _ _ rfl, ih, ← Worker.finish_cons _ _ rfl]

/-- The last position of the level has been expanded: the next level starts with what was won. -/
theorem Within.settle_last (h : Within b [] seen won s) (hr : s.remaining - 1 = 0) :
    Matches (levelAfter b seen won { s.metrics with levels := s.metrics.levels + 1 })
      s.settle := by
  unfold settle
  rw [if_pos hr]
  refine ⟨⟨h.seen_eq, ?_, ?_, ?_, ?_, rfl⟩, ?_, rfl⟩
  · show s.queue.toList = _ ++ []
    rw [h.queue, List.append_nil]
    rfl
  · have hroom := h.room
    simpa [levelAfter] using hroom
  · show s.distances = LevelState.record _ [] _
    rw [h.distances, record_nil]
    rfl
  · exact congrArg (· + 1) h.level
  · exact h.discovered

theorem Within.settle_more (h : Within b todo seen won s) (hr : s.remaining - 1 ≠ 0) :
    Within b todo seen won s.settle ∧ s.settle.remaining = s.remaining - 1 ∧
      s.settle.metrics = s.metrics := by
  unfold settle
  rw [if_neg hr]
  exact ⟨⟨h.seen_eq, h.queue, h.room, h.distances, h.level, h.discovered⟩, rfl, rfl⟩

/-- **A level**: when its last position has left the queue, the queue holds what they have won. -/
theorem Within.run {v : Nat} (h : Within b (v :: todo) seen won s)
    (hr : s.remaining = todo.length + 1) :
    ∃ t, run a s = run a t ∧
      Matches (levelAfter b (Worker.finish ((v :: todo).flatMap a.out) seen won).1
        (Worker.finish ((v :: todo).flatMap a.out) seen won).2
        { nodes := s.metrics.nodes + (todo.length + 1)
          edges := s.metrics.edges + a.edgesOut (v :: todo)
          levels := s.metrics.levels + 1 }) t := by
  -- on the positions of the level that are queued behind `v`; `Within` carries what was claimed
  induction todo generalizing v seen won s with
  | nil =>
    obtain ⟨queue, t, hpop, ht, hwithin, hremaining, hmetrics⟩ := h.leave (a := a)
    have hmatches := hwithin.settle_last (by rw [hremaining, hr]; rfl)
    rw [hmetrics] at hmatches
    refine ⟨t.settle, run_of_pop hpop ht, ?_⟩
    rw [List.flatMap_cons, List.flatMap_nil, List.append_nil, Adjacency.edgesOut_cons]
    exact hmatches
  | cons w rest ih =>
    obtain ⟨queue, t, hpop, ht, hwithin, hremaining, hmetrics⟩ := h.leave (a := a)
    obtain ⟨hwithin, hr', hm⟩ := hwithin.settle_more
      (by rw [hremaining, hr, List.length_cons]; omega)
    obtain ⟨u, hu, hmatches⟩ := ih hwithin (by rw [hr', hremaining, hr, List.length_cons]; omega)
    refine ⟨u, (run_of_pop hpop ht).trans hu, ?_⟩
    rw [List.flatMap_cons, finish_append]
    rw [hm, hmetrics] at hmatches
    rw [Adjacency.edgesOut_cons, List.length_cons]
    convert hmatches using 3
    · simp only
      omega
    · simp only
      omega

/-! ### Whole searches -/

theorem next_eq (a : Adjacency) (minFrontier : Nat) (b : LevelState) :
    LevelState.next a 1 minFrontier .inTurn b =
      levelAfter b (Worker.finish (b.frontier.flatMap a.out) b.seen #[]).1
        (Worker.finish (b.frontier.flatMap a.out) b.seen #[]).2
        { nodes := b.metrics.nodes + b.frontier.length
          edges := b.metrics.edges + a.edgesOut b.frontier
          levels := b.metrics.levels + 1 } := by
  have hshares : shares 1 minFrontier b.frontier = [b.frontier] := if_pos (Or.inl rfl)
  have hrun : (Team.start a b.seen [b.frontier]).run [] =
      ((Worker.finish (b.frontier.flatMap a.out) b.seen #[]).1,
        (Worker.finish (b.frontier.flatMap a.out) b.seen #[]).2.toList) := by
    simp [Team.run, Team.start, Team.finish]
  unfold LevelState.next
  rw [hshares]
  show LevelState.advance a [b.frontier] [] b = _
  unfold LevelState.advance
  rw [hrun]
  rfl

/-- **The queue search ends** with the state of the search by levels. -/
theorem Matches.run (h : Matches b s) (a : Adjacency) (minFrontier : Nat) :
    ∃ t c, run a s = .ok t ∧ LevelState.run a 1 minFrontier false .inTurn b = .ok c ∧
      Matches c t := by
  induction hn : b.potential using Nat.strong_induction_on generalizing b s with
  | h n ih =>
    subst hn
    cases hf : b.frontier with
    | nil =>
      refine ⟨s, b, run_of_nil ?_, LevelState.run_of_nil hf, h⟩
      rw [h.within.queue, hf]
      rfl
    | cons v rest =>
      have hne : b.frontier ≠ [] := hf ▸ List.cons_ne_nil v rest
      obtain ⟨t, hlevel, hmatches⟩ := (hf ▸ h.within).run (a := a)
        (h.remaining.trans (congrArg List.length hf))
      rw [h.metrics, ← List.length_cons, ← hf, ← next_eq a minFrontier b] at hmatches
      obtain ⟨u, c, hu, hc, hend⟩ := ih _ (LevelState.potential_next_lt hne) hmatches rfl
      exact ⟨u, c, hlevel.trans hu, (LevelState.run_of_ne_nil hne).trans hc, hend⟩

theorem exists_start {count position : Nat} (hp : position < count) (recorded : Bool) :
    ∃ s, start count position recorded = .ok s ∧
      Matches (LevelState.start count position recorded) s := by
  obtain ⟨queue, hpush⟩ := FrontierQueue.exists_push (q := .withCapacity count) position (by
    show 0 < (Array.replicate count 0).size
    rw [Array.size_replicate]
    omega)
  have hstart : start count position recorded = .ok
      { seen := (BitSet.empty count).set position
        queue
        distances := if recorded then
          some ((Array.replicate count unreached).setIfInBounds position 0) else none
        level := 0
        remaining := 1
        discovered := 0
        metrics := {} } := by
    unfold start
    rw [hpush]
    rfl
  refine ⟨_, hstart, ⟨?_, ?_, ?_, ?_, rfl, rfl⟩, rfl, rfl⟩
  · show (BitSet.empty count).set position =
      ((ClaimSet.empty count).testAndSet position).2.toBitSet
    rw [ClaimSet.toBitSet_testAndSet]
    show _ = ((BitSet.empty count).testAndSet position).2
    rw [BitSet.testAndSet, if_pos (show position < (BitSet.empty count).bits from hp)]
  · show queue.toList = _
    rw [FrontierQueue.toList_push hpush]
    rfl
  · show ((ClaimSet.empty count).testAndSet position).2.absent + 1 ≤ queue.capacity
    have habsent := (ClaimSet.empty count).absent_testAndSet position
    have hfirst : ((ClaimSet.empty count).testAndSet position).1 = true :=
      LevelState.testAndSet_empty_fst hp
    rw [if_pos hfirst] at habsent
    rw [habsent, FrontierQueue.capacity_push hpush]
    show _ ≤ (Array.replicate count 0).size
    rw [Array.size_replicate]
    have hle := List.countP_le_length (l := List.range count)
      (p := fun i => !(ClaimSet.empty count).test i)
    rwa [List.length_range] at hle
  · exact (record_nil _ _).symm

end BreadthState

end FlatGraph
