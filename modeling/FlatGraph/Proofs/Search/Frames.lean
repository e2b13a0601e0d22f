import FlatGraph.Proofs.Search.Reach
import FlatGraph.Proofs.Search.Walk
import FlatGraph.Proofs.Written.Statistics
import FlatGraph.Search.Depth

/-! # A stack of frames for a recursive walk

The depth-first search keeps a frame for each call that has not ended, with the targets that the
call has not yet taken. A frame without targets is left only when the search comes back to it, so
there are as many frames as the call on top is deep, also when all targets below are taken.

* `DepthState.run_eq_of_takes`: the search takes the targets of the frame on top as a call does, and
  the frames below are as before.
* `DepthState.run_eq_error_of_takes`: it fails if one of these calls is deeper than the limit.
* `Adjacency.depthFirst_of_calls`: what the search answers, by the recursive walk from its start.
* `Image.depth_of_accepted`: the search of an accepted file. -/

namespace FlatGraph

/-! ### The state of the search after a walk -/

namespace Walk

/-- The marks of the positions met. -/
def marks (w : Walk) (count : Nat) : BitSet := w.order.foldl BitSet.set (BitSet.empty count)

/-- The state of the search when the walk is as far as `w`, with the given frames on the stack and
so many edges read. -/
def state (w : Walk) (count : Nat) (stack : List (List Nat)) (edges : Nat) : DepthState where
  seen := w.marks count
  order := w.order.toArray
  stack := stack
  depth := stack.length
  edges := edges
  deepest := w.deepest

variable {a : Adjacency} {w : Walk} {v : Nat}

theorem bits_marks (w : Walk) (count : Nat) : (w.marks count).bits = count :=
  BitSet.bits_foldl_set _ _

theorem Proper.test_marks (h : w.Proper a) (v : Nat) :
    (w.marks a.count).test v = true ↔ v ∈ w.order := by
  rw [marks, BitSet.test_foldl_set, BitSet.test_empty]
  exact ⟨fun hv => hv.elim (fun hfalse => by cases hfalse) And.left,
    fun hv => Or.inr ⟨hv, h.lt_count v hv⟩⟩

theorem marks_meet (w : Walk) (count depth v : Nat) :
    (w.meet depth v).marks count = (w.marks count).set v := List.foldl_append

theorem Proper.testAndSet_marked (h : w.Proper a) (hv : v ∈ w.order) :
    (w.marks a.count).testAndSet v = (false, w.marks a.count) :=
  BitSet.testAndSet_of_test ((h.test_marks v).mpr hv)

theorem Proper.testAndSet_unmarked (h : w.Proper a) (hv : v < a.count) (hnew : v ∉ w.order)
    (depth : Nat) :
    (w.marks a.count).testAndSet v = (true, (w.meet depth v).marks a.count) := by
  rw [marks_meet]
  refine BitSet.testAndSet_of_not_test (by rwa [bits_marks]) ?_
  exact Bool.eq_false_iff.mpr fun htest => hnew ((h.test_marks v).mp htest)

end Walk

/-! ### The steps of the search -/

namespace DepthState

variable {a : Adjacency} {limit edges target : Nat} {w u : Walk} {rest : List Nat}
  {below : List (List Nat)}

theorem run_empty : run a limit (w.state a.count [] edges) = .ok (w.state a.count [] edges) := by
  rw [Walk.state, run]

theorem run_leave :
    run a limit (w.state a.count ([] :: below) edges) =
      run a limit (w.state a.count below edges) := by
  rw [Walk.state, run]
  rfl

theorem run_pass (hw : w.Proper a) (hmarked : target ∈ w.order) :
    run a limit (w.state a.count ((target :: rest) :: below) edges) =
      run a limit (w.state a.count (rest :: below) (edges + 1)) := by
  rw [Walk.state, run]
  split
  · next marked hstep =>
    rw [hw.testAndSet_marked hmarked, Prod.mk.injEq] at hstep
    obtain ⟨-, rfl⟩ := hstep
    rfl
  · next marked hstep =>
    rw [hw.testAndSet_marked hmarked] at hstep
    cases hstep

/-- The next target is not marked: it gets a frame, unless there are as many as the limit says. -/
theorem run_call (hw : w.Proper a) (hlt : target < a.count) (hnew : target ∉ w.order) :
    run a limit (w.state a.count ((target :: rest) :: below) edges) =
      if limit < below.length + 2 then .error (.depthExceeded limit)
      else run a limit ((w.meet (below.length + 2) target).state a.count
        (a.out target :: rest :: below) (edges + 1)) := by
  have htest := hw.testAndSet_unmarked hlt hnew (below.length + 2)
  rw [Walk.state, run]
  split
  · next marked hstep =>
    rw [htest] at hstep
    cases hstep
  · next marked hstep =>
    rw [htest, Prod.mk.injEq] at hstep
    obtain ⟨-, rfl⟩ := hstep
    refine if_congr ?_ rfl ?_
    · rw [List.length_cons]
      omega
    · rw [Walk.state, Walk.meet, ← List.push_toArray]
      rfl

/-! ### Whole calls -/

/-- **The targets of the frame on top** are taken as a call takes them, if no call is deeper than
the limit. Of each position that is met all edges are read. -/
theorem run_eq_of_takes (hc : a.Closed) {depth : Nat} {targets : List Nat}
    (h : a.Takes depth targets w u) (hw : w.Proper a) (ht : ∀ t ∈ targets, t < a.count)
    (hu : u.deepest ≤ limit) (below : List (List Nat)) (hdepth : below.length + 1 = depth)
    (edges : Nat) :
    ∃ met, u.order = w.order ++ met ∧
      run a limit (w.state a.count (targets :: below) edges) =
        run a limit (u.state a.count ([] :: below) (edges + targets.length + a.edgesOut met)) := by
  induction h generalizing below edges with
  | done => exact ⟨[], (List.append_nil _).symm, rfl⟩
  | @pass _ target rest w u hmarked _ ih =>
    obtain ⟨met, horder, hrun⟩ :=
      ih hw (fun t h => ht t (List.mem_cons_of_mem target h)) hu below hdepth (edges + 1)
    refine ⟨met, horder, ?_⟩
    rw [run_pass hw hmarked, hrun, List.length_cons, Nat.add_right_comm edges 1, Nat.add_assoc edges]
  | @call depth target rest w u x hnew body others ihbody ihothers =>
    subst hdepth
    have hlt := ht target List.mem_cons_self
    have hmeet := hw.meet hlt hnew (below.length + 1 + 1)
    have hbody : u.deepest ≤ limit := others.le_deepest.trans hu
    have hcall : below.length + 1 + 1 ≤ limit :=
      ((le_max_right _ _).trans body.le_deepest).trans hbody
    obtain ⟨first, hfirst, hrunfirst⟩ :=
      ihbody hmeet (hc target hlt) hbody (rest :: below) rfl (edges + 1)
    obtain ⟨second, hsecond, hrunsecond⟩ :=
      ihothers (body.proper hc hmeet (hc target hlt))
        (fun t h => ht t (List.mem_cons_of_mem target h)) hu below rfl
        (edges + 1 + (a.out target).length + a.edgesOut first)
    refine ⟨target :: (first ++ second), ?_, ?_⟩
    · rw [hsecond, hfirst, Walk.meet, List.append_assoc, List.append_assoc, List.singleton_append]
    · rw [run_call hw hlt hnew, if_neg (by omega), hrunfirst, run_leave, hrunsecond,
        Adjacency.edgesOut_cons, Adjacency.edgesOut_append, List.length_cons]
      congr 2
      omega

/-- **A call that is deeper than the limit** makes the search fail. -/
theorem run_eq_error_of_takes (hc : a.Closed) {depth : Nat} {targets : List Nat}
    (h : a.Takes depth targets w u) (hw : w.Proper a) (ht : ∀ t ∈ targets, t < a.count)
    (hle : w.deepest ≤ limit) (hu : limit < u.deepest) (below : List (List Nat))
    (hdepth : below.length + 1 = depth) (edges : Nat) :
    run a limit (w.state a.count (targets :: below) edges) = .error (.depthExceeded limit) := by
  induction h generalizing below edges with
  | done => exact absurd hle (Nat.not_le.mpr hu)
  | @pass _ target rest w u hmarked _ ih =>
    rw [run_pass hw hmarked]
    exact ih hw (fun t h => ht t (List.mem_cons_of_mem target h)) hle hu below hdepth
      (edges + 1)
  | @call depth target rest w u x hnew body others ihbody ihothers =>
    subst hdepth
    have hlt := ht target List.mem_cons_self
    have hrest := fun t h => ht t (List.mem_cons_of_mem target h)
    have hmeet := hw.meet hlt hnew (below.length + 1 + 1)
    rw [run_call hw hlt hnew]
    split_ifs with hdeep
    · rfl
    · have hbound : (w.meet (below.length + 1 + 1) target).deepest ≤ limit :=
        max_le hle (Nat.le_of_not_lt hdeep)
      -- the first call that is too deep is within the call on `target`, or comes after it
      by_cases hbody : u.deepest ≤ limit
      · obtain ⟨met, -, hrun⟩ := run_eq_of_takes hc body hmeet (hc target hlt) hbody
          (rest :: below) rfl (edges + 1)
        rw [hrun, run_leave]
        exact ihothers (body.proper hc hmeet (hc target hlt)) hrest hbody hu below rfl _
      · exact ihbody hmeet (hc target hlt) hbound (Nat.lt_of_not_le hbody)
          (rest :: below) rfl (edges + 1)

end DepthState

namespace Adjacency

variable {a : Adjacency} {start limit : Nat} {w : Walk}

theorem depthFirst_eq (hs : start < a.count) (hl : 1 ≤ limit) : a.depthFirst start limit =
    (DepthState.run a limit ((Walk.meet {} 1 start).state a.count [a.out start] 0)).map fun s =>
      { order := s.order
        seen := s.seen
        metrics := { nodes := s.order.size, edges := s.edges, levels := s.deepest } } := by
  unfold depthFirst
  rw [check_of_lt hs]
  show (if limit = 0 then _ else _) = _
  rw [if_neg (by omega)]
  show (DepthState.run a limit ((Walk.meet {} 1 start).state a.count [a.out start] 0) >>= _) = _
  cases DepthState.run a limit ((Walk.meet {} 1 start).state a.count [a.out start] 0) <;> rfl

/-- **The search answers what the recursive walk does**, if no call is deeper than the limit, and
fails otherwise. -/
theorem depthFirst_of_calls (hc : a.Closed) (hs : start < a.count) (hl : 1 ≤ limit)
    (h : a.Calls 1 start {} w) : a.depthFirst start limit =
      if w.deepest ≤ limit then .ok
        { order := w.order.toArray
          seen := w.marks a.count
          metrics :=
            { nodes := w.order.length, edges := a.edgesOut w.order, levels := w.deepest } }
      else .error (.depthExceeded limit) := by
  have hfirst := proper_first hs 1
  rw [depthFirst_eq hs hl]
  split_ifs with hdeep
  · obtain ⟨met, horder, hrun⟩ :=
      DepthState.run_eq_of_takes hc h hfirst (hc start hs) hdeep [] rfl 0
    have hedges : 0 + (a.out start).length + a.edgesOut met = a.edgesOut w.order := by
      rw [horder, Nat.zero_add]
      rfl
    rw [hrun, DepthState.run_leave, DepthState.run_empty, hedges]
    rfl
  · rw [DepthState.run_eq_error_of_takes hc h hfirst (hc start hs) hl (Nat.lt_of_not_le hdeep)
      [] rfl 0]
    rfl

end Adjacency

/-! ### Accepted files -/

namespace Image

variable {image : Image}

theorem Sound.mem_order_iff (hs : image.Sound) {start : Nat} {w : Walk}
    (h : image.adjacency.Calls 1 start {} w) {v : Nat} :
    v ∈ w.order ↔ image.Reaches start v := by
  rw [h.mem_order_iff, hs.adjacency_reaches]

theorem Sound.exists_breadthFirst (hs : image.Sound) {start : Nat}
    (hstart : start < image.nodes.size) {w : Walk} (h : image.adjacency.Calls 1 start {} w)
    (recorded : Bool) : ∃ r, image.adjacency.breadthFirst start recorded = .ok r ∧
      w.marks image.nodes.size = r.seen ∧
      image.adjacency.edgesOut w.order = r.metrics.edges := by
  obtain ⟨c, hexact, hnil, hbreadth⟩ :=
    Adjacency.exists_breadthFirst hs.closed hstart recorded
  have hproper := h.proper hs.closed hstart
  have hmem : ∀ v, v ∈ w.order ↔ v ∈ c.seen.toBitSet.toList := fun v => by
    rw [hs.mem_order_iff h, hexact.mem_toList_iff hnil, hs.reaches_iff]
  refine ⟨c.answer, hbreadth, BitSet.ext_test ?_ fun v => ?_, ?_⟩
  · rw [Walk.bits_marks]
    exact hexact.bits.symm
  · rw [Bool.eq_iff_iff]
    exact (hproper.test_marks v).trans ((hmem v).trans BitSet.mem_toList)
  · have hperm : w.order.Perm c.seen.toBitSet.toList :=
      (List.perm_ext_iff_of_nodup hproper.nodup (BitSet.nodup_toList _)).mpr hmem
    have hedges := hexact.edges
    rw [hnil] at hedges
    rw [Adjacency.edgesOut_perm _ hperm]
    exact hedges.symm

/-- **Depth-first search of an accepted file** does what the recursive walk does. There is one such
walk from the start; it meets the positions that the start reaches, each once, and no call is deeper
than there are nodes. If no call is deeper than the limit, the search answers the order of the walk,
the positions in it, which are those that a breadth-first search marks, and the work done. Otherwise
it fails for its limit. The targets of a position are those of the edges that leave it, in order. -/
theorem depth_of_accepted {b : ByteArray} (h : parse b = .ok image) {start : Nat}
    (hstart : start < image.nodes.size) {limit : Nat} (hlimit : 1 ≤ limit) :
    (∀ p < image.nodes.size,
      image.adjacency.out p = (image.edgesFrom p).map fun e => e.target.toNat) ∧
    ∃ w, image.adjacency.Calls 1 start {} w ∧
      (∀ u, image.adjacency.Calls 1 start {} u → u = w) ∧
      w.order.Nodup ∧ (∀ v, v ∈ w.order ↔ image.Reaches start v) ∧
      w.deepest ≤ image.nodes.size ∧
      (w.deepest ≤ limit → ∃ r, image.adjacency.depthFirst start limit = .ok r ∧
        r.order.toList = w.order ∧ r.seen.bits = image.nodes.size ∧
        (∀ v, r.seen.test v = true ↔ v ∈ w.order) ∧
        r.metrics.nodes = r.order.size ∧ r.metrics.levels = w.deepest ∧
        ∀ recorded, ∃ q, image.adjacency.breadthFirst start recorded = .ok q ∧
          r.seen = q.seen ∧ r.metrics.edges = q.metrics.edges) ∧
      (limit < w.deepest →
        image.adjacency.depthFirst start limit = .error (.depthExceeded limit)) ∧
      (image.nodes.size ≤ limit → ∃ r, image.adjacency.depthFirst start limit = .ok r) := by
  have hs := Sound.of_parse h
  obtain ⟨w, hw⟩ := Adjacency.exists_calls hs.closed hstart 1
  have hproper := hw.proper hs.closed hstart
  have hdepth := hw.deepest_le hs.closed hstart
  have hanswer := Adjacency.depthFirst_of_calls hs.closed hstart hlimit hw
  refine ⟨fun p => hs.targets_eq, w, hw, fun u hu => Adjacency.Takes.unique hu hw, hproper.nodup,
    fun v => hs.mem_order_iff hw, hdepth, fun hle => ?_, fun hlt => ?_, fun hroom => ?_⟩
  · rw [if_pos hle] at hanswer
    exact ⟨_, hanswer, rfl, Walk.bits_marks _ _, hproper.test_marks, rfl, rfl,
      hs.exists_breadthFirst hstart hw⟩
  · rwa [if_neg (Nat.not_le.mpr hlt)] at hanswer
  · rw [if_pos (hdepth.trans hroom)] at hanswer
    exact ⟨_, hanswer⟩

theorem depth_of_accepted_sample : ∃ b image, parse b = .ok image ∧
    image.adjacency.depthFirst 0 1 = .error (.depthExceeded 1) ∧
    ∃ r, image.adjacency.depthFirst 0 2 = .ok r ∧ r.order.toList = [0, 1] ∧
      r.metrics.levels = 2 := by
  obtain ⟨b, image, h, hnodes, hout, hend⟩ := Graph.exists_parse_sample_out
  have hstart : 0 < image.nodes.size := by omega
  -- the walk from the first node: the second node, and then an edge back to the first
  have hwalk : image.adjacency.Calls 1 0 {} ⟨[0, 1], 2⟩ := by
    unfold Adjacency.Calls
    rw [hout]
    refine .call (u := ⟨[0, 1], 2⟩) (by decide) ?_ (.pass (by decide) .done)
    rw [hend]
    exact .done
  obtain ⟨-, w, -, hunique, -, -, -, -, hdeep, -⟩ := depth_of_accepted h hstart (le_refl 1)
  obtain ⟨-, u, -, hunique', -, -, -, hfine, -⟩ := depth_of_accepted h hstart (show 1 ≤ 2 by decide)
  obtain rfl := hunique _ hwalk
  obtain rfl := hunique' _ hwalk
  obtain ⟨r, hr, horder, -, -, -, hlevels, -⟩ := hfine (le_refl 2)
  exact ⟨b, image, h, hdeep (by decide), r, hr, horder, hlevels⟩

end Image

end FlatGraph
