import Mathlib.Data.List.Chain
import FlatGraph.Proofs.Search.Queue
import FlatGraph.Search.ShortestPath

/-! # The tree of a search for a path

A search for a path discovers the positions in the order of their distances, as every search with a
queue does, and keeps for each the position it was discovered from. These parents form a tree: the
parent of a position is one step nearer to the source. So the way back from the goal is as long as
the goal is distant.

* `PathState.Tree`: the parents; `PathState.Tree.trace`: the way back from a discovered position.
* `PathState.Within`: the state inside a level, with `PathState.Within.expand` for the edges of a
  position and `PathState.Within.run` for the whole search.
* `Adjacency.shortestPath_cases`: a path with the fewest edges is answered if there is any. -/

namespace FlatGraph

/-- **A shortest path** follows edges from its source to its goal, and no way is shorter. -/
structure Path.Shortest (a : Adjacency) (source goal : Nat) (p : Path) : Prop where
  first : p.source? = some source
  last : p.target? = some goal
  edges : p.nodes.IsChain fun u v => v ∈ a.out u
  hop : a.Hop source goal p.distance

namespace Path.Shortest

variable {a : Adjacency} {source goal : Nat} {p q : Path}

theorem length_eq_succ (h : p.Shortest a source goal) : p.nodes.length = p.distance + 1 := by
  have hne : p.nodes ≠ [] := fun hnil => by
    have hfirst := h.first
    rw [Path.source?, hnil] at hfirst
    cases hfirst
  have hpos := List.length_pos_iff.mpr hne
  unfold distance
  omega

theorem length_eq (hp : p.Shortest a source goal) (hq : q.Shortest a source goal) :
    p.nodes.length = q.nodes.length := by
  rw [hp.length_eq_succ, hq.length_eq_succ, hp.hop.unique hq.hop]

theorem length_le_count (h : p.Shortest a source goal) (hc : a.Closed) (hs : source < a.count) :
    p.nodes.length ≤ a.count := by
  rw [h.length_eq_succ]
  exact h.hop.level_lt hc hs

theorem lt_count (h : p.Shortest a source goal) (hc : a.Closed) (hs : source < a.count) :
    ∀ v ∈ p.nodes, v < a.count := by
  refine h.edges.induction (· < a.count) p.nodes (fun u v hv hu => hc u hu v hv) fun hne => ?_
  have hfirst := h.first
  rw [Path.source?, List.head?_eq_some_head hne, Option.some.injEq] at hfirst
  rw [hfirst]
  exact hs

end Path.Shortest

namespace PathState

/-- A position has been discovered. -/
def Found (parents : Array (Option Nat)) (v : Nat) : Prop := ∃ u, parents[v]? = some (some u)

/-- **The parents form a tree**: each discovered position but the source was discovered from one
that was discovered one step nearer to the source. -/
structure Tree (a : Adjacency) (source : Nat) (parents : Array (Option Nat)) : Prop where
  size : parents.size = a.count
  parent : ∀ v u, parents[v]? = some (some u) → v = source ∨
    Found parents u ∧ v ∈ a.out u ∧ ∃ j, a.Hop source u j ∧ a.Hop source v (j + 1)

variable {a : Adjacency} {source goal node k v w : Nat} {parents : Array (Option Nat)}
  {todo won pending : List Nat} {s : PathState}

/-! ### Discoveries -/

theorem getElem?_discover (hw : parents[w]? = some none) (v : Nat) :
    (parents.setIfInBounds w (some node))[v]? =
      if w = v then some (some node) else parents[v]? := by
  obtain ⟨hlt, -⟩ := Array.getElem?_eq_some_iff.mp hw
  rw [Array.getElem?_setIfInBounds]
  split_ifs <;> rfl

theorem found_discover (hw : parents[w]? = some none) (v : Nat) :
    Found (parents.setIfInBounds w (some node)) v ↔ v = w ∨ Found parents v := by
  unfold Found
  rw [getElem?_discover hw]
  by_cases h : w = v
  · subst h
    simp
  · rw [if_neg h, eq_comm (a := v), or_iff_right h]

theorem not_found_of_none (hw : parents[w]? = some none) : ¬ Found parents w := by
  rintro ⟨u, hu⟩
  rw [hw] at hu
  cases hu

theorem Tree.discover (h : Tree a source parents) (hw : parents[w]? = some none)
    (hnode : a.Hop source node k) (hfound : Found parents node) (hedge : w ∈ a.out node)
    (hhop : a.Hop source w (k + 1)) :
    Tree a source (parents.setIfInBounds w (some node)) where
  size := by rw [Array.size_setIfInBounds, h.size]
  parent v u hv := by
    rw [getElem?_discover hw] at hv
    rw [found_discover hw]
    split_ifs at hv with hwv
    · subst hwv
      cases hv
      exact Or.inr ⟨Or.inr hfound, hedge, k, hnode, hhop⟩
    · rcases h.parent v u hv with rfl | ⟨hu, hstep⟩
      · exact Or.inl rfl
      · exact Or.inr ⟨Or.inr hu, hstep⟩

theorem Tree.exists_hop (h : Tree a source parents) (hfound : Found parents v) :
    ∃ j, a.Hop source v j := by
  obtain ⟨u, hu⟩ := hfound
  rcases h.parent v u hu with rfl | ⟨-, -, j, -, hj⟩
  · exact ⟨0, Adjacency.hop_zero_iff.mpr rfl⟩
  · exact ⟨j + 1, hj⟩

theorem trace_of_not_found (hne : v ≠ source) (hnot : ¬ Found parents v) (steps : Nat)
    (behind : List Nat) : trace parents source steps v behind = none := by
  cases steps with
  | zero => exact if_neg hne
  | succ steps =>
    rw [trace, if_neg hne]
    split
    · next u hu => exact absurd ⟨u, hu⟩ hnot
    · rfl

/-- **The way back** from a discovered position, as long as the position is distant. -/
theorem Tree.trace (h : Tree a source parents) {j : Nat} (hv : a.Hop source v j)
    (hfound : Found parents v) {steps : Nat} (hsteps : j ≤ steps) (behind : List Nat) :
    ∃ nodes, trace parents source steps v behind = some (nodes ++ behind) ∧
      nodes.length = j + 1 ∧ nodes.head? = some source ∧ nodes.getLast? = some v ∧
      nodes.IsChain fun u w => w ∈ a.out u := by
  induction j generalizing v steps behind with
  | zero =>
    obtain rfl := Adjacency.hop_zero_iff.mp hv
    refine ⟨[v], ?_, rfl, rfl, rfl, List.isChain_singleton v⟩
    unfold PathState.trace
    cases steps <;> simp
  | succ j ih =>
    obtain ⟨u, hu⟩ := hfound
    have hne : v ≠ source := fun heq =>
      absurd (hv.unique (Adjacency.hop_zero_iff.mpr heq)) (Nat.succ_ne_zero j)
    obtain ⟨hparent, hedge, i, hui, hvi⟩ := (h.parent v u hu).resolve_left hne
    obtain rfl : i = j := Nat.succ_injective (hvi.unique hv)
    obtain ⟨steps, rfl⟩ := Nat.exists_eq_add_one_of_ne_zero (Nat.ne_of_gt (Nat.lt_of_lt_of_le
      (Nat.succ_pos i) hsteps))
    obtain ⟨nodes, htrace, hlength, hhead, hlast, hchain⟩ :=
      ih hui hparent (Nat.le_of_succ_le_succ hsteps) (v :: behind)
    refine ⟨nodes ++ [v], ?_, ?_, ?_, ?_, ?_⟩
    · rw [PathState.trace, if_neg hne, hu, List.append_assoc]
      exact htrace
    · rw [List.length_append, hlength, List.length_singleton]
    · rw [List.head?_append, hhead, Option.some_or]
    · rw [List.getLast?_append, List.getLast?_singleton, Option.some_or]
    · refine List.isChain_append.mpr ⟨hchain, List.isChain_singleton v, fun x hx y hy => ?_⟩
      rw [hlast, Option.mem_some_iff] at hx
      rw [List.head?_cons, Option.mem_some_iff] at hy
      rw [← hx, ← hy]
      exact hedge

/-! ### Inside a level -/

/-- **The state inside a level.** The positions `todo` of the level at distance `k` are still
queued, those `won` of the next level are queued behind them, and the targets `pending` are still to
be tried. All other targets of the positions that have left the queue are discovered. -/
structure Within (a : Adjacency) (source k : Nat) (todo won pending : List Nat) (s : PathState) :
    Prop where
  tree : Tree a source s.parents
  queue : s.queue.toList = todo ++ won
  room : s.potential ≤ s.queue.capacity
  found_iff : ∀ v, Found s.parents v ↔ (∃ j ≤ k, a.Hop source v j) ∨ v ∈ won
  level : ∀ v ∈ todo, a.Hop source v k
  next : ∀ v ∈ won, a.Hop source v (k + 1)
  expanded : ∀ v, a.Hop source v k → v ∉ todo → ∀ w ∈ a.out v, Found s.parents w ∨ w ∈ pending

theorem Within.pass (h : Within a source k todo won (w :: pending) s)
    (hw : Found s.parents w) : Within a source k todo won pending s :=
  { h with
    expanded := fun v hv hnot x hx => by
      rcases h.expanded v hv hnot x hx with hfound | hpending
      · exact Or.inl hfound
      · rcases List.mem_cons.mp hpending with rfl | hpending
        · exact Or.inl hw
        · exact Or.inr hpending }

/-- A target that is not yet discovered is one step further than the level. -/
theorem Within.hop_succ (h : Within a source k todo won pending s) (hnode : a.Hop source node k)
    (hedge : w ∈ a.out node) (hw : s.parents[w]? = some none) : a.Hop source w (k + 1) := by
  refine Adjacency.hop_succ_iff.mpr ⟨⟨node, hnode, hedge⟩, fun j hj hop => ?_⟩
  exact not_found_of_none hw ((h.found_iff w).mpr (Or.inl ⟨j, hj, hop⟩))

theorem Within.found_of_hop (h : Within a source k todo won pending s)
    (hv : a.Hop source v k) : Found s.parents v := (h.found_iff v).mpr (Or.inl ⟨k, le_rfl, hv⟩)

theorem Within.discover (h : Within a source k todo won (w :: pending) s)
    (hnode : a.Hop source node k) (hedge : w ∈ a.out node) (hw : s.parents[w]? = some none) :
    ∃ queue, s.queue.push w = .ok queue ∧ Within a source k todo (won ++ [w]) pending
      ⟨s.parents.setIfInBounds w (some node), queue⟩ := by
  have hhop := h.hop_succ hnode hedge hw
  have hcount := countP_setIfInBounds node hw
  have hroom := h.room
  unfold potential at hroom
  obtain ⟨queue, hpush⟩ := FrontierQueue.exists_push (q := s.queue) w (by omega)
  have hlength := FrontierQueue.length_push hpush
  refine ⟨queue, hpush, h.tree.discover hw hnode (h.found_of_hop hnode) hedge hhop, ?_, ?_, ?_,
    h.level, ?_, ?_⟩
  · show queue.toList = _
    rw [FrontierQueue.toList_push hpush, h.queue, List.append_assoc]
  · show (s.parents.setIfInBounds w (some node)).countP Option.isNone + queue.length ≤
      queue.capacity
    rw [FrontierQueue.capacity_push hpush]
    omega
  · intro v
    show Found (s.parents.setIfInBounds w (some node)) v ↔ _
    rw [found_discover hw, h.found_iff, List.mem_append, List.mem_singleton, or_comm, or_assoc]
  · intro v hv
    rcases List.mem_append.mp hv with hv | hv
    · exact h.next v hv
    · rw [List.mem_singleton.mp hv]
      exact hhop
  · intro v hv hnot x hx
    show Found (s.parents.setIfInBounds w (some node)) x ∨ _
    rw [found_discover hw]
    rcases h.expanded v hv hnot x hx with hfound | hpending
    · exact Or.inl (Or.inr hfound)
    · rcases List.mem_cons.mp hpending with rfl | hpending
      · exact Or.inl (Or.inl rfl)
      · exact Or.inr hpending

/-- **The edges of a position**: they are tried to the end, or up to the goal. -/
theorem Within.expand (hc : a.Closed) (hs : source < a.count)
    (h : Within a source k todo won pending s) (hnode : a.Hop source node k)
    (hedges : ∀ w ∈ pending, w ∈ a.out node) (hgoal : ¬ Found s.parents goal) :
    (∃ t, expand node goal pending s = .ok (true, t) ∧ Tree a source t.parents ∧
      Found t.parents goal) ∨
    ∃ t won, expand node goal pending s = .ok (false, t) ∧ Within a source k todo won [] t ∧
      ¬ Found t.parents goal := by
  induction pending generalizing won s with
  | nil => exact Or.inr ⟨s, won, rfl, h, hgoal⟩
  | cons w rest ih =>
    have hedge := hedges w List.mem_cons_self
    have hrest := fun x hx => hedges x (List.mem_cons_of_mem w hx)
    have hlt : w < s.parents.size := by
      rw [h.tree.size]
      exact hc node (hnode.lt_count hc hs) w hedge
    have hat := Array.getElem?_eq_getElem hlt
    cases hparent : s.parents[w] with
    | some u =>
      rw [hparent] at hat
      have hstep : PathState.expand node goal (w :: rest) s =
          PathState.expand node goal rest s := by
        rw [PathState.expand, hat]
      rw [hstep]
      exact ih (h.pass ⟨u, hat⟩) hrest hgoal
    | none =>
      rw [hparent] at hat
      by_cases hwg : w = goal
      · subst hwg
        refine Or.inl ⟨⟨s.parents.setIfInBounds w (some node), s.queue⟩, ?_,
          h.tree.discover hat hnode (h.found_of_hop hnode) hedge (h.hop_succ hnode hedge hat),
          (found_discover hat w).mpr (Or.inl rfl)⟩
        rw [PathState.expand, hat]
        exact if_pos rfl
      · obtain ⟨queue, hpush, hwithin⟩ := h.discover hnode hedge hat
        have hstep : PathState.expand node goal (w :: rest) s =
            PathState.expand node goal rest
              ⟨s.parents.setIfInBounds w (some node), queue⟩ := by
          rw [PathState.expand, hat]
          simp only [if_neg hwg, hpush]
        rw [hstep]
        refine ih hwithin hrest fun hfound => ?_
        rcases (found_discover hat goal).mp hfound with heq | hfound
        · exact hwg heq.symm
        · exact hgoal hfound

/-! ### Whole searches -/

/-- When no position of a level is queued, the level after it is all that was won. -/
theorem Within.next_level (h : Within a source k [] won [] s) :
    Within a source (k + 1) won [] [] s := by
  have hlevel : ∀ v, a.Hop source v (k + 1) → v ∈ won := by
    intro v hv
    obtain ⟨⟨u, hu, hedge⟩, hnot⟩ := Adjacency.hop_succ_iff.mp hv
    have hfound := (h.expanded u hu List.not_mem_nil v hedge).resolve_right List.not_mem_nil
    rcases (h.found_iff v).mp hfound with ⟨j, hj, hop⟩ | hwon
    · exact absurd hop (hnot j hj)
    · exact hwon
  refine ⟨h.tree, by rw [h.queue, List.append_nil]; rfl, h.room, fun v => ?_, h.next,
    fun v hv => absurd hv List.not_mem_nil, fun v hv hnot => absurd (hlevel v hv) hnot⟩
  rw [h.found_iff]
  constructor
  · rintro (⟨j, hj, hop⟩ | hwon)
    · exact Or.inl ⟨j, Nat.le_succ_of_le hj, hop⟩
    · exact Or.inl ⟨k + 1, le_rfl, h.next v hwon⟩
  · rintro (⟨j, hj, hop⟩ | hnil)
    · rcases Nat.le_or_eq_of_le_succ hj with hj | rfl
      · exact Or.inl ⟨j, hj, hop⟩
      · exact Or.inr (hlevel v hop)
    · cases hnil

theorem Within.leave (h : Within a source k (v :: todo) won [] s) :
    ∃ queue, s.queue.pop = some (v, queue) ∧
      Within a source k todo won (a.out v) ⟨s.parents, queue⟩ := by
  obtain ⟨queue, hpop, hlist, hcapacity⟩ := FrontierQueue.exists_pop h.queue
  have hlength := FrontierQueue.length_pop hpop
  have hroom := h.room
  refine ⟨queue, hpop, h.tree, hlist, ?_, h.found_iff,
    fun u hu => h.level u (List.mem_cons_of_mem v hu), h.next, fun u hu hnot w hw => ?_⟩
  · unfold potential at hroom
    show s.parents.countP Option.isNone + queue.length ≤ queue.capacity
    rw [hcapacity]
    omega
  · by_cases huv : u = v
    · subst huv
      exact Or.inr hw
    · have hleft : u ∉ v :: todo := fun hmem => (List.mem_cons.mp hmem).elim huv hnot
      exact Or.inl ((h.expanded u hu hleft w hw).resolve_right List.not_mem_nil)

/-- Either some position of a level is queued, or no position is further from the source. -/
theorem Within.exists_cons (h : Within a source k todo won [] s) :
    (∃ k v todo won, Within a source k (v :: todo) won [] s) ∨
      s.queue.toList = [] ∧ ∀ v, Found s.parents v ↔ ∃ j, a.Hop source v j := by
  cases todo with
  | cons v todo => exact Or.inl ⟨k, v, todo, won, h⟩
  | nil =>
    have hnext := h.next_level
    cases won with
    | cons v won => exact Or.inl ⟨k + 1, v, won, [], hnext⟩
    | nil =>
      refine Or.inr ⟨h.queue, fun v => ?_⟩
      rw [hnext.found_iff]
      have hnone : ∀ u, ¬ a.Hop source u (k + 1 + 1) := fun u hu => by
        obtain ⟨⟨x, hx, hedge⟩, hnot⟩ := Adjacency.hop_succ_iff.mp hu
        have hfound := (hnext.expanded x hx List.not_mem_nil u hedge).resolve_right
          List.not_mem_nil
        obtain ⟨j, hj, hop⟩ := ((hnext.found_iff u).mp hfound).resolve_right List.not_mem_nil
        exact hnot j hj hop
      constructor
      · rintro (⟨j, -, hop⟩ | hnil)
        · exact ⟨j, hop⟩
        · cases hnil
      · rintro ⟨j, hop⟩
        refine Or.inl ⟨j, ?_, hop⟩
        by_contra hj
        exact Adjacency.not_hop_of_le hnone (by omega) v hop

theorem run_of_nil (h : s.queue.toList = []) : run a goal s = .ok s := by
  unfold run
  split
  · rfl
  · next hp => rw [(s.queue.pop_eq_none_iff).mpr h] at hp; cases hp

theorem run_of_pop {queue : FrontierQueue} {found : Bool} {t : PathState}
    (hp : s.queue.pop = some (node, queue))
    (ht : expand node goal (a.out node) ⟨s.parents, queue⟩ = .ok (found, t)) :
    run a goal s = if found then .ok t else run a goal t := by
  conv_lhs => unfold run
  split
  · next hn => rw [hp] at hn; cases hn
  · next hp' =>
    rw [hp] at hp'
    obtain ⟨rfl, rfl⟩ := Prod.mk.inj (Option.some.inj hp')
    split
    · next he => rw [ht] at he; cases he
    · next he => rw [ht] at he; cases he; rfl
    · next he => rw [ht] at he; cases he; rfl

/-- **A whole search** ends with a tree that holds the goal exactly if the goal is reached. -/
theorem Within.run (hc : a.Closed) (hs : source < a.count)
    (h : Within a source k todo won [] s) (hgoal : ¬ Found s.parents goal) :
    ∃ t, run a goal s = .ok t ∧ Tree a source t.parents ∧
      (Found t.parents goal ∨ ∀ j, ¬ a.Hop source goal j) := by
  -- on the positions still to leave the queue
  induction hn : s.potential using Nat.strong_induction_on generalizing k todo won s with
  | h n ih =>
    rcases h.exists_cons with ⟨k, v, todo, won, h⟩ | ⟨hnil, hfound⟩
    · obtain ⟨queue, hpop, hleave⟩ := h.leave
      have hv := h.level v List.mem_cons_self
      rcases hleave.expand hc hs hv (fun w hw => hw) hgoal with
        ⟨t, ht, htree, hreached⟩ | ⟨t, won, ht, hwithin, hnot⟩
      · exact ⟨t, run_of_pop hpop ht, htree, Or.inl hreached⟩
      · have hless : t.potential < n := by
          have hlength := FrontierQueue.length_pop hpop
          rw [potential_expand ht, ← hn]
          show s.parents.countP _ + queue.length < s.parents.countP _ + s.queue.length
          omega
        obtain ⟨u, hu, hend⟩ := ih _ hless hwithin hnot rfl
        exact ⟨u, (run_of_pop hpop ht).trans hu, hend⟩
    · refine ⟨s, run_of_nil hnil, h.tree, Or.inr fun j hj => hgoal ((hfound goal).mpr ⟨j, hj⟩)⟩

theorem exists_start (hs : source < a.count) : ∃ s, start a.count source = .ok s ∧
    Within a source 0 [source] [] [] s ∧ ∀ v ≠ source, ¬ Found s.parents v := by
  have hat : ((Array.replicate a.count none)[source]? : Option (Option Nat)) = some none := by
    simp [hs]
  have hnone : ∀ v, ¬ Found (Array.replicate a.count none) v := by
    rintro v ⟨u, hu⟩
    rw [Array.getElem?_replicate] at hu
    split_ifs at hu
    cases hu
  have hfound : ∀ v,
      Found ((Array.replicate a.count none).setIfInBounds source (some source)) v ↔
        v = source := fun v => by rw [found_discover hat, or_iff_left (hnone v)]
  obtain ⟨queue, hpush⟩ := FrontierQueue.exists_push (q := .withCapacity a.count) source (by
    show 0 < (Array.replicate a.count 0).size
    rw [Array.size_replicate]
    omega)
  have hstart : start a.count source =
      .ok ⟨(Array.replicate a.count none).setIfInBounds source (some source), queue⟩ := by
    unfold start
    rw [hpush]
    rfl
  refine ⟨_, hstart, ⟨⟨?_, fun v u hv => Or.inl ((hfound v).mp ⟨u, hv⟩)⟩, ?_, ?_, fun v => ?_, ?_,
    fun v hv => absurd hv List.not_mem_nil, ?_⟩, fun v hv hf => hv ((hfound v).mp hf)⟩
  · rw [Array.size_setIfInBounds, Array.size_replicate]
  · exact (FrontierQueue.toList_push hpush).trans rfl
  · have hcount := countP_setIfInBounds source hat
    have hlength := FrontierQueue.length_push hpush
    have hle : (Array.replicate a.count (none : Option Nat)).countP Option.isNone ≤
        (Array.replicate a.count (none : Option Nat)).size := Array.countP_le_size
    show ((Array.replicate a.count none).setIfInBounds source (some source)).countP Option.isNone +
      queue.length ≤ queue.capacity
    rw [FrontierQueue.capacity_push hpush, hlength]
    show _ + (0 + 1) ≤ (Array.replicate a.count 0).size
    rw [Array.size_replicate] at hle ⊢
    omega
  · rw [hfound, List.mem_nil_iff, or_false]
    constructor
    · rintro rfl
      exact ⟨0, le_rfl, Adjacency.hop_zero_iff.mpr rfl⟩
    · rintro ⟨j, hj, hop⟩
      obtain rfl : j = 0 := Nat.le_zero.mp hj
      exact Adjacency.hop_zero_iff.mp hop
  · intro v hv
    exact Adjacency.hop_zero_iff.mpr (List.mem_singleton.mp hv)
  · intro v hv hnot
    exact absurd (List.mem_singleton.mpr (Adjacency.hop_zero_iff.mp hv)) hnot

end PathState

namespace Adjacency

variable {a : Adjacency} {source goal : Nat}

/-- The search for a goal other than the source ends, and its tree holds the goal exactly if edges
lead there. -/
theorem exists_run (hc : a.Closed) (hs : source < a.count) (hne : source ≠ goal) :
    ∃ s t, PathState.start a.count source = .ok s ∧ PathState.run a goal s = .ok t ∧
      PathState.Tree a source t.parents ∧
      (PathState.Found t.parents goal ∨ ∀ j, ¬ a.Hop source goal j) := by
  obtain ⟨s, hstart, hwithin, hnone⟩ := PathState.exists_start hs
  obtain ⟨t, hrun, htree, hend⟩ := hwithin.run hc hs (hnone goal (Ne.symm hne))
  exact ⟨s, t, hstart, hrun, htree, hend⟩

theorem shortestPath_self (hs : source < a.count) :
    a.shortestPath source source = .ok (some ⟨[source]⟩) := by
  unfold shortestPath check
  rw [if_pos hs, if_pos rfl]
  rfl

theorem shortestPath_of_run (hs : source < a.count) (hg : goal < a.count) (hne : source ≠ goal)
    {s t : PathState} (hstart : PathState.start a.count source = .ok s)
    (hrun : PathState.run a goal s = .ok t) : a.shortestPath source goal =
      .ok ((PathState.trace t.parents source a.count goal []).map Path.mk) := by
  unfold shortestPath check
  rw [if_pos hs, if_pos hg, if_neg hne]
  show (PathState.start a.count source >>= _) = _
  rw [hstart]
  show (PathState.run a goal s >>= _) = _
  rw [hrun]
  rfl

/-- **A path with the fewest edges** is answered if edges lead to the goal at all. -/
theorem shortestPath_cases (hc : a.Closed) (hs : source < a.count) (hg : goal < a.count) :
    (∃ p, a.shortestPath source goal = .ok (some p) ∧ p.Shortest a source goal) ∨
      a.shortestPath source goal = .ok none ∧ ∀ j, ¬ a.Hop source goal j := by
  rcases eq_or_ne source goal with rfl | hne
  · exact Or.inl ⟨⟨[source]⟩, shortestPath_self hs, rfl, rfl, List.isChain_singleton source,
      hop_zero_iff.mpr rfl⟩
  · obtain ⟨s, t, hstart, hrun, htree, hend⟩ := exists_run hc hs hne
    rw [shortestPath_of_run hs hg hne hstart hrun]
    by_cases hfound : PathState.Found t.parents goal
    · obtain ⟨j, hj⟩ := htree.exists_hop hfound
      have hsteps : j ≤ a.count := Nat.le_of_lt (hj.level_lt hc hs)
      obtain ⟨nodes, htrace, hlength, hhead, hlast, hchain⟩ := htree.trace hj hfound hsteps []
      rw [List.append_nil] at htrace
      refine Or.inl ⟨⟨nodes⟩, by rw [htrace]; rfl, hhead, hlast, hchain, ?_⟩
      have hdistance : (Path.mk nodes).distance = j := by
        show nodes.length - 1 = j
        rw [hlength, Nat.add_sub_cancel]
      rw [hdistance]
      exact hj
    · have hnone := hend.resolve_left hfound
      rw [PathState.trace_of_not_found (Ne.symm hne) hfound]
      exact Or.inr ⟨rfl, hnone⟩

end Adjacency

end FlatGraph
