import FlatGraph.Proofs.Search.Route

/-! # One tree for all goals

A search for a path stops at its goal, perhaps in the middle of the edges of a position. Up to there
it does what a search does that never finds its goal: the same positions leave the queue, and each
discovery has the same parent. So the parents of all searches from one source are part of one tree,
and a path that is answered is a branch of it, from the root to the goal.

* `PathState.Kept`: the discoveries of a search are among those of another one.
  `PathState.kept_of_expand` and `PathState.kept_of_run` compare a search that may stop with one that
  does not.
* `PathState.Branch`: the branches of a tree, with `PathState.Branch.take` and
  `PathState.Branch.unique`.
* `Image.branches_of_accepted`: the paths of an accepted file that have one source. -/

namespace FlatGraph

namespace PathState

variable {a : Adjacency} {source goal far node v w : Nat} {targets : List Nat} {met : Bool}
  {parents more : Array (Option Nat)} {nodes : List Nat} {s t u : PathState}

/-! ### Discoveries that are kept -/

/-- Every discovery is kept, with its parent. -/
def Kept (parents more : Array (Option Nat)) : Prop :=
  ∀ v u : Nat, parents[v]? = some (some u) → more[v]? = some (some u)

theorem Kept.refl (parents : Array (Option Nat)) : Kept parents parents := fun _ _ h => h

theorem Kept.trans {others : Array (Option Nat)} (h : Kept parents more) (hmore : Kept more others) :
    Kept parents others := fun v u hv => hmore v u (h v u hv)

theorem Kept.found (h : Kept parents more) (hv : Found parents v) : Found more v :=
  hv.imp fun u => h v u

theorem kept_discover (hw : parents[w]? = some none) :
    Kept parents (parents.setIfInBounds w (some node)) := by
  intro v u hv
  rw [getElem?_discover hw, if_neg]
  · exact hv
  · rintro rfl
    rw [hw] at hv
    cases hv

/-! ### The edges of a position -/

/-- One target: it is passed over, or it is discovered and is the goal, or it is discovered and
queued. -/
theorem expand_cons_cases (h : expand node goal (w :: targets) s = .ok (met, t)) :
    (s.parents[w]? ≠ some none ∧ expand node goal targets s = .ok (met, t)) ∨
    (s.parents[w]? = some none ∧ w = goal ∧ met = true ∧
      t = ⟨s.parents.setIfInBounds w (some node), s.queue⟩) ∨
    (s.parents[w]? = some none ∧ w ≠ goal ∧ ∃ queue, s.queue.push w = .ok queue ∧
      expand node goal targets ⟨s.parents.setIfInBounds w (some node), queue⟩ =
        .ok (met, t)) := by
  obtain ⟨parents, queue⟩ := s
  unfold expand at h
  split at h
  · next hnew =>
    simp only at h
    split_ifs at h with hgoal
    · cases h
      exact Or.inr (Or.inl ⟨hnew, hgoal, rfl, rfl⟩)
    · cases hq : queue.push w with
      | error fault => rw [hq] at h; cases h
      | ok pushed =>
        rw [hq] at h
        exact Or.inr (Or.inr ⟨hnew, hgoal, pushed, rfl, h⟩)
  · next hold => exact Or.inl ⟨hold, h⟩

theorem kept_expand (h : expand node goal targets s = .ok (met, t)) :
    Kept s.parents t.parents := by
  induction targets generalizing s with
  | nil =>
    cases h
    exact .refl _
  | cons w rest ih =>
    rcases expand_cons_cases h with ⟨-, h⟩ | ⟨hnew, -, -, rfl⟩ | ⟨hnew, -, queue, -, h⟩
    · exact ih h
    · exact kept_discover hnew
    · exact (kept_discover hnew).trans (ih h)

theorem mem_of_expand (h : expand node goal targets s = .ok (true, t)) : goal ∈ targets := by
  induction targets generalizing s with
  | nil => cases h
  | cons w rest ih =>
    rcases expand_cons_cases h with ⟨-, h⟩ | ⟨-, rfl, -⟩ | ⟨-, -, queue, -, h⟩
    · exact List.mem_cons_of_mem w (ih h)
    · exact List.mem_cons_self
    · exact List.mem_cons_of_mem w (ih h)

/-- **The same edges, tried to the end for another goal**: what was discovered up to the goal is
kept, and if the goal was not met either there is no difference. -/
theorem kept_of_expand (h : expand node goal targets s = .ok (met, t))
    (hu : expand node far targets s = .ok (false, u)) :
    Kept t.parents u.parents ∧ (met = false → t = u) := by
  induction targets generalizing s with
  | nil =>
    cases h
    cases hu
    exact ⟨.refl _, fun _ => rfl⟩
  | cons w rest ih =>
    rcases expand_cons_cases hu with ⟨hold, hu⟩ | ⟨-, -, hmet, -⟩ | ⟨hnew, -, queue, hpush, hu⟩
    · rcases expand_cons_cases h with ⟨-, h⟩ | ⟨hnew, -⟩ | ⟨hnew, -⟩
      · exact ih h hu
      · exact absurd hnew hold
      · exact absurd hnew hold
    · cases hmet
    · rcases expand_cons_cases h with ⟨hold, -⟩ | ⟨-, -, rfl, rfl⟩ | ⟨-, -, pushed, hpush', h⟩
      · exact absurd hnew hold
      · -- the goal is met here, and the other search goes on
        exact ⟨kept_expand (s := ⟨_, queue⟩) hu, fun hmet => by cases hmet⟩
      · rw [hpush] at hpush'
        cases hpush'
        exact ih h hu

/-! ### Whole searches -/

/-- The search ends with an empty queue, or a position leaves the queue and its edges are tried. -/
theorem run_cases (h : run a goal s = .ok t) : (s.queue.pop = none ∧ t = s) ∨
    ∃ node queue met r, s.queue.pop = some (node, queue) ∧
      expand node goal (a.out node) ⟨s.parents, queue⟩ = .ok (met, r) ∧
      if met then t = r else run a goal r = .ok t := by
  unfold run at h
  split at h
  · next hp =>
    cases h
    exact Or.inl ⟨hp, rfl⟩
  · next node queue hp =>
    refine Or.inr ⟨node, queue, ?_⟩
    split at h
    · cases h
    · next r he =>
      cases h
      exact ⟨true, t, hp, he, rfl⟩
    · next r he => exact ⟨false, r, hp, he, h⟩

theorem potential_lt {queue : FrontierQueue} (hp : s.queue.pop = some (node, queue))
    (he : expand node goal targets ⟨s.parents, queue⟩ = .ok (false, t)) :
    t.potential < s.potential := by
  have hlength := FrontierQueue.length_pop hp
  rw [potential_expand he]
  show s.parents.countP _ + queue.length < s.parents.countP _ + s.queue.length
  omega

theorem kept_run (h : run a goal s = .ok t) : Kept s.parents t.parents := by
  -- on the positions still to leave the queue
  induction hn : s.potential using Nat.strong_induction_on generalizing s with
  | h n ih =>
    rcases run_cases h with ⟨-, rfl⟩ | ⟨node, queue, met, r, hp, he, hrest⟩
    · exact .refl _
    · have hkept : Kept s.parents r.parents := kept_expand (s := ⟨s.parents, queue⟩) he
      cases met with
      | true =>
        obtain rfl : t = r := hrest
        exact hkept
      | false => exact hkept.trans (ih _ (hn ▸ potential_lt hp he) hrest rfl)

/-- **A search that never meets its goal** keeps what a search from the same state discovers before
it stops. -/
theorem kept_of_run (hfar : ∀ v, far ∉ a.out v) (h : run a goal s = .ok t)
    (hu : run a far s = .ok u) : Kept t.parents u.parents := by
  -- on the positions still to leave the queue
  induction hn : s.potential using Nat.strong_induction_on generalizing s with
  | h n ih =>
    rcases run_cases h with ⟨-, rfl⟩ | ⟨node, queue, met, r, hp, he, hrest⟩
    · exact kept_run hu
    · rcases run_cases hu with ⟨hnone, -⟩ | ⟨node', queue', other, r', hp', he', hrest'⟩
      · rw [hp] at hnone
        cases hnone
      · rw [hp] at hp'
        cases hp'
        obtain rfl : other = false :=
          Bool.eq_false_iff.mpr fun hother => hfar node (mem_of_expand (hother ▸ he'))
        obtain ⟨hkept, hsame⟩ := kept_of_expand he he'
        cases met with
        | true =>
          obtain rfl : t = r := hrest
          exact hkept.trans (kept_run hrest')
        | false =>
          obtain rfl := hsame rfl
          exact ih _ (hn ▸ potential_lt hp he) hrest hrest' rfl

/-! ### Branches -/

/-- **The branch of a tree** that leads from its root to a position, by the parents. -/
inductive Branch (parents : Array (Option Nat)) (root : Nat) : (v : Nat) → List Nat → Prop
  | root : Branch parents root root [root]
  | step {u v : Nat} {nodes : List Nat} (branch : Branch parents root u nodes) (further : v ≠ root)
    (link : parents[v]? = some (some u)) : Branch parents root v (nodes ++ [v])

namespace Branch

theorem mono (h : Branch parents source v nodes) (hkept : Kept parents more) :
    Branch more source v nodes := by
  induction h with
  | root => exact .root
  | step _ further link ih => exact .step ih further (hkept _ _ link)

theorem unique {others : List Nat} (h : Branch parents source v nodes)
    (hv : Branch parents source v others) : nodes = others := by
  induction h generalizing others with
  | root =>
    cases hv with
    | root => rfl
    | step _ further => exact absurd rfl further
  | step _ further link ih =>
    cases hv with
    | root => exact absurd rfl further
    | step branch _ link' =>
      rw [link] at link'
      cases link'
      rw [ih branch]

/-- **The front part of a branch** is the branch to its last position. -/
theorem take (h : Branch parents source v nodes) {k : Nat} (hk : k < nodes.length) :
    Branch parents source nodes[k] (nodes.take (k + 1)) := by
  induction h with
  | root =>
    obtain rfl : k = 0 := Nat.lt_one_iff.mp hk
    exact .root
  | @step u v nodes branch further link ih =>
    rcases Nat.lt_or_ge k nodes.length with hlt | hge
    · rw [List.getElem_append_left hlt, List.take_append_of_le_length hlt]
      exact ih hlt
    · obtain rfl : k = nodes.length := by
        rw [List.length_append, List.length_singleton] at hk
        omega
      rw [List.getElem_concat_length rfl, List.take_of_length_le (by simp)]
      exact .step branch further link

end Branch

/-- What is behind a position on the way back is not looked at. -/
theorem trace_behind (parents : Array (Option Nat)) (source steps v : Nat) (behind : List Nat) :
    trace parents source steps v behind =
      (trace parents source steps v []).map (· ++ behind) := by
  induction steps generalizing v behind with
  | zero =>
    unfold trace
    split_ifs <;> rfl
  | succ steps ih =>
    unfold trace
    split_ifs
    · rfl
    · split
      · rw [ih _ (v :: behind), ih _ [v], Option.map_map]
        simp [Function.comp_def]
      · rfl

/-- **The way back** from a position follows its branch. -/
theorem branch_of_trace {steps : Nat} (h : trace parents source steps v [] = some nodes) :
    Branch parents source v nodes := by
  induction steps generalizing v nodes with
  | zero =>
    unfold trace at h
    split_ifs at h with hroot
    cases h
    rw [hroot]
    exact .root
  | succ steps ih =>
    unfold trace at h
    split_ifs at h with hroot
    · cases h
      rw [hroot]
      exact .root
    · split at h
      · next u hu =>
        rw [trace_behind] at h
        obtain ⟨front, hfront, rfl⟩ := Option.map_eq_some_iff.mp h
        exact .step (ih hfront) hroot hu
      · cases h

end PathState

namespace Adjacency

variable {a : Adjacency} {source goal : Nat} {p : Path}

theorem lt_of_shortestPath {answer : Option Path} (h : a.shortestPath source goal = .ok answer) :
    source < a.count ∧ goal < a.count := by
  unfold shortestPath at h
  rcases Nat.lt_or_ge source a.count with hs | hs
  · rcases Nat.lt_or_ge goal a.count with hg | hg
    · exact ⟨hs, hg⟩
    · rw [check_of_lt hs, check_of_ge hg] at h
      cases h
  · rw [check_of_ge hs] at h
    cases h

theorem shortest_of_shortestPath (hc : a.Closed) (h : a.shortestPath source goal = .ok (some p)) :
    p.Shortest a source goal := by
  obtain ⟨hs, hg⟩ := lt_of_shortestPath h
  rcases shortestPath_cases hc hs hg with ⟨q, hq, hshortest⟩ | ⟨hnone, -⟩
  · rw [h] at hq
    cases hq
    exact hshortest
  · rw [h] at hnone
    cases hnone

/-- **The tree of the searches from one source** has the positions that the source reaches, and it
keeps what any search from there discovers before it stops. -/
structure Spans (a : Adjacency) (source : Nat) (tree : Array (Option Nat)) : Prop where
  found_iff : ∀ v, PathState.Found tree v ↔ ∃ k, a.Hop source v k
  kept : ∀ goal s t, PathState.start a.count source = .ok s → PathState.run a goal s = .ok t →
    PathState.Kept t.parents tree

/-- There is such a tree: that of a search for a goal to which no edge leads. -/
theorem exists_spans (hc : a.Closed) {far : Nat} (hfar : ∀ v, far ∉ a.out v) (hne : far ≠ source)
    (hs : source < a.count) : ∃ tree, a.Spans source tree := by
  obtain ⟨s, hstart, hwithin, hnone⟩ := PathState.exists_start hs
  obtain ⟨u, hu, htree, -⟩ := hwithin.run hc hs (hnone far hne)
  have hkept : ∀ goal s t, PathState.start a.count source = .ok s →
      PathState.run a goal s = .ok t → PathState.Kept t.parents u.parents := by
    intro goal s' t hstart' ht
    rw [hstart] at hstart'
    cases hstart'
    exact PathState.kept_of_run hfar ht hu
  refine ⟨u.parents, fun v => ⟨fun hv => htree.exists_hop hv, fun ⟨k, hk⟩ => ?_⟩, hkept⟩
  rcases eq_or_ne v source with rfl | hv
  · have hfound := (hwithin.found_iff v).mpr (Or.inl ⟨0, le_rfl, hop_zero_iff.mpr rfl⟩)
    exact (PathState.kept_run hu).found hfound
  · obtain ⟨t, ht, -, hend⟩ := hwithin.run hc hs (hnone v hv)
    exact (hkept v s t hstart ht).found (hend.resolve_right fun hnot => hnot k hk)

/-- **A path that is answered** is a branch of the tree. -/
theorem Spans.branch (hc : a.Closed) {tree : Array (Option Nat)} (ht : a.Spans source tree)
    (h : a.shortestPath source goal = .ok (some p)) :
    PathState.Branch tree source goal p.nodes := by
  obtain ⟨hs, hg⟩ := lt_of_shortestPath h
  rcases eq_or_ne source goal with rfl | hne
  · rw [shortestPath_self hs] at h
    cases h
    exact .root
  · obtain ⟨s, t, hstart, hrun, -⟩ := exists_run hc hs hne
    rw [shortestPath_of_run hs hg hne hstart hrun, Except.ok.injEq] at h
    obtain ⟨nodes, hnodes, rfl⟩ := Option.map_eq_some_iff.mp h
    exact (PathState.branch_of_trace hnodes).mono (ht.kept goal s t hstart hrun)

/-- **The front part of a path** is the path to its last position. -/
theorem Spans.shortestPath_take (hc : a.Closed) {tree : Array (Option Nat)}
    (ht : a.Spans source tree) (h : a.shortestPath source goal = .ok (some p)) {k : Nat}
    (hk : k < p.nodes.length) :
    a.shortestPath source p.nodes[k] = .ok (some ⟨p.nodes.take (k + 1)⟩) := by
  obtain ⟨hs, -⟩ := lt_of_shortestPath h
  have hshortest := shortest_of_shortestPath hc h
  have hlt := hshortest.lt_count hc hs p.nodes[k] (List.getElem_mem hk)
  rcases shortestPath_cases hc hs hlt with ⟨q, hq, -⟩ | ⟨-, hnone⟩
  · have hsame := (ht.branch hc hq).unique ((ht.branch hc h).take hk)
    rw [hq, ← hsame]
  · exact absurd (hshortest.hop_getElem hk) (hnone k)

end Adjacency

namespace Image

variable {image : Image}

theorem Sound.exists_spans (hs : image.Sound) {source : Nat} (hsource : source < image.nodes.size) :
    ∃ tree, image.adjacency.Spans source tree := by
  refine Adjacency.exists_spans hs.closed (fun v hv => ?_) (Nat.ne_of_gt hsource) hsource
  -- no edge leads past the nodes
  obtain ⟨e, he, -, htarget⟩ := hs.mem_out_iff.mp hv
  obtain ⟨i, hi, rfl⟩ := Array.mem_iff_getElem.mp he
  exact Nat.ne_of_lt (hs.ends i hi).2 htarget

/-- **The shortest paths of an accepted file from one source form one tree.** Every front part of a
path is the path to its last position. The paths to all goals are branches of one tree, which has
the positions that the source reaches, and whatever goal a search stops at, the parents that it has
recorded are those of the tree. -/
theorem branches_of_accepted {b : ByteArray} (h : parse b = .ok image) :
    (∀ source goal p, image.adjacency.shortestPath source goal = .ok (some p) →
      ∀ k (hk : k < p.nodes.length), image.adjacency.shortestPath source p.nodes[k] =
        .ok (some ⟨p.nodes.take (k + 1)⟩)) ∧
    ∀ source < image.nodes.size, ∃ tree : Array (Option Nat),
      (∀ v, PathState.Found tree v ↔ image.Reaches source v) ∧
      (∀ goal p, image.adjacency.shortestPath source goal = .ok (some p) →
        PathState.Branch tree source goal p.nodes) ∧
      ∀ goal s t, PathState.start image.nodes.size source = .ok s →
        PathState.run image.adjacency goal s = .ok t → PathState.Kept t.parents tree := by
  have hs := Sound.of_parse h
  refine ⟨fun source goal p hp k hk => ?_, fun source hsource => ?_⟩
  · obtain ⟨tree, htree⟩ := hs.exists_spans (Adjacency.lt_of_shortestPath hp).1
    exact htree.shortestPath_take hs.closed hp hk
  · obtain ⟨tree, htree⟩ := hs.exists_spans hsource
    exact ⟨tree, fun v => by rw [htree.found_iff, hs.reaches_iff],
      fun goal p hp => htree.branch hs.closed hp, htree.kept⟩

theorem branches_of_accepted_sample : ∃ b image p, parse b = .ok image ∧
    image.adjacency.shortestPath 0 1 = .ok (some p) ∧
    image.adjacency.shortestPath 0 0 = .ok (some ⟨p.nodes.take 1⟩) := by
  obtain ⟨b, image, h, hnodes, hout, -⟩ := Graph.exists_parse_sample_out
  have hs := Sound.of_parse h
  have hlink : image.Link 0 1 := hs.mem_out_iff.mp (by rw [hout]; exact List.mem_cons_self)
  obtain ⟨k, hk⟩ := hs.reaches_iff.mp (Relation.ReflTransGen.single hlink)
  have hcount : image.adjacency.count = 2 := hnodes
  have hsource : 0 < image.adjacency.count := by omega
  have hgoal : 1 < image.adjacency.count := by omega
  rcases Adjacency.shortestPath_cases hs.closed hsource hgoal with
    ⟨p, hp, hshortest⟩ | ⟨-, hnone⟩
  · have hpos : 0 < p.nodes.length := by rw [hshortest.length_eq_succ]; exact Nat.succ_pos _
    have hfront := (branches_of_accepted h).1 0 1 p hp 0 hpos
    rw [hshortest.getElem_zero hpos] at hfront
    exact ⟨b, image, p, h, hp, hfront⟩
  · exact absurd hk (hnone k)

end Image

end FlatGraph
