import Mathlib.Data.List.Nodup
import FlatGraph.Proofs.Search.Reach
import FlatGraph.Proofs.Search.Tree
import FlatGraph.Proofs.Written.Statistics

/-! # Shortest paths of an accepted file

A path with as few edges as any other passes each position at its distance, so it passes none twice.
It is read off backwards: the way back from the goal leads along discovered positions only, and is
at the source after as many steps as the goal is distant.

* `Path.Shortest.hop_getElem`, `Path.Shortest.nodup`: the positions of a shortest path.
* `PathState.Back`: the positions that the way back passes; `PathState.Tree.found_of_back`: all of
  them are discovered, so no link is missing.
* `Image.route_of_accepted`: what is answered for any two positions of an accepted file. -/

namespace FlatGraph

/-! ### The positions of a shortest path -/

namespace Adjacency

variable {a : Adjacency} {start u v j k : Nat}

theorem Way.trans (hu : a.Way start j u) (hv : a.Way u k v) : a.Way start (j + k) v := by
  induction hv with
  | refl => exact hu
  | step _ edge ih => exact .step ih edge

theorem way_of_isChain {nodes : List Nat} (h : nodes.IsChain fun u v => v ∈ a.out u) {i j : Nat}
    (hij : i ≤ j) (hj : j < nodes.length) : a.Way nodes[i] (j - i) nodes[j] := by
  induction j, hij using Nat.le_induction with
  | base =>
    rw [Nat.sub_self]
    exact .refl
  | succ j hij ih =>
    rw [Nat.succ_sub hij]
    exact .step (ih (Nat.lt_of_succ_lt hj)) (List.isChain_iff_getElem.mp h j hj)

end Adjacency

namespace Path.Shortest

variable {a : Adjacency} {source goal : Nat} {p : Path}

theorem getElem_zero (h : p.Shortest a source goal) (h0 : 0 < p.nodes.length) :
    p.nodes[0] = source := by
  have hfirst := h.first
  rwa [Path.source?, List.head?_eq_getElem?, List.getElem?_eq_getElem h0, Option.some.injEq]
    at hfirst

theorem getElem_distance (h : p.Shortest a source goal) (hd : p.distance < p.nodes.length) :
    p.nodes[p.distance] = goal := by
  have hlast := h.last
  rwa [Path.target?, List.getLast?_eq_getElem?, ← Path.distance, List.getElem?_eq_getElem hd,
    Option.some.injEq] at hlast

/-- **Each position of the path is at the distance of its place**: a shorter way to it would make a
shorter way to the goal. -/
theorem hop_getElem (h : p.Shortest a source goal) {i : Nat} (hi : i < p.nodes.length) :
    a.Hop source p.nodes[i] i := by
  have hlength := h.length_eq_succ
  have hd : p.distance < p.nodes.length := by omega
  have hto : a.Way source i p.nodes[i] := by
    have hway := Adjacency.way_of_isChain h.edges (Nat.zero_le i) hi
    rwa [h.getElem_zero, Nat.sub_zero] at hway
  have hfrom : a.Way p.nodes[i] (p.distance - i) goal := by
    have hway := Adjacency.way_of_isChain h.edges (show i ≤ p.distance by omega) hd
    rwa [h.getElem_distance] at hway
  refine ⟨hto, fun j hj hshort => ?_⟩
  exact h.hop.2 (j + (p.distance - i)) (by omega) (hshort.trans hfrom)

theorem nodup (h : p.Shortest a source goal) : p.nodes.Nodup := by
  refine List.nodup_iff_injective_getElem.mpr fun i j hij => Fin.ext ?_
  have hi := h.hop_getElem i.2
  have hij : p.nodes[i.1] = p.nodes[j.1] := hij
  rw [hij] at hi
  exact hi.unique (h.hop_getElem j.2)

end Path.Shortest

/-! ### The way back -/

namespace PathState

/-- The positions that the way back from the goal passes, up to the source. -/
inductive Back (parents : Array (Option Nat)) (source goal : Nat) : (cursor : Nat) → Prop
  | goal : Back parents source goal goal
  | parent {v u : Nat} (back : Back parents source goal v) (further : v ≠ source)
    (link : parents[v]? = some (some u)) : Back parents source goal u

variable {a : Adjacency} {source goal cursor : Nat} {parents : Array (Option Nat)}

/-- **No link is missing** on the way back from a discovered position. -/
theorem Tree.found_of_back (h : Tree a source parents) (hgoal : Found parents goal) {v : Nat}
    (hv : Back parents source goal v) : Found parents v := by
  induction hv with
  | goal => exact hgoal
  | parent _ hne hlink ih => exact ((h.parent _ _ hlink).resolve_left hne).1

/-- More steps than the way back has do not change it. -/
theorem trace_of_le {steps more : Nat} (hle : steps ≤ more) {behind nodes : List Nat}
    (h : trace parents source steps cursor behind = some nodes) :
    trace parents source more cursor behind = some nodes := by
  induction steps generalizing cursor behind more with
  | zero =>
    rw [trace] at h
    split_ifs at h with hsource
    cases more with
    | zero => rw [trace, if_pos hsource, h]
    | succ more => rw [trace, if_pos hsource, h]
  | succ steps ih =>
    obtain ⟨more, rfl⟩ := Nat.exists_eq_add_one_of_ne_zero (Nat.ne_of_gt (Nat.lt_of_lt_of_le
      (Nat.succ_pos steps) hle))
    rw [trace] at h ⊢
    split_ifs at h ⊢ with hsource
    · exact h
    · split at h
      · exact ih (Nat.le_of_succ_le_succ hle) h
      · cases h

end PathState

/-! ### Accepted files -/

namespace Image

variable {image : Image}

/-- A search for a path between two positions that differ: what it ends with and what is answered
from it. -/
theorem Sound.exists_search (hs : image.Sound) {source goal : Nat}
    (hsource : source < image.nodes.size) (hgoal : goal < image.nodes.size) (hne : source ≠ goal) :
    ∃ s t, PathState.start image.nodes.size source = .ok s ∧
      PathState.run image.adjacency goal s = .ok t ∧
      (PathState.Found t.parents goal ↔ image.Reaches source goal) ∧
      (PathState.Found t.parents goal →
        (∀ v, PathState.Back t.parents source goal v → PathState.Found t.parents v) ∧
        ∃ p, image.adjacency.shortestPath source goal = .ok (some p) ∧
          ∀ steps, p.distance ≤ steps →
            PathState.trace t.parents source steps goal [] = some p.nodes) := by
  obtain ⟨s, t, hstart, hrun, htree, hend⟩ := Adjacency.exists_run hs.closed hsource hne
  refine ⟨s, t, hstart, hrun, ?_, fun hfound =>
    ⟨fun v hv => htree.found_of_back hfound hv, ?_⟩⟩
  · rw [hs.reaches_iff]
    exact ⟨fun hfound => htree.exists_hop hfound, fun ⟨j, hj⟩ =>
      hend.resolve_right fun hnone => hnone j hj⟩
  · obtain ⟨j, hj⟩ := htree.exists_hop hfound
    obtain ⟨nodes, htrace, hlength, -⟩ := htree.trace hj hfound le_rfl []
    rw [List.append_nil] at htrace
    have hsteps : j ≤ image.nodes.size := Nat.le_of_lt (hj.level_lt hs.closed hsource)
    have hdistance : (Path.mk nodes).distance = j := by
      show nodes.length - 1 = j
      rw [hlength, Nat.add_sub_cancel]
    refine ⟨⟨nodes⟩, ?_, fun steps hle => PathState.trace_of_le (hdistance ▸ hle) htrace⟩
    rw [Adjacency.shortestPath_of_run hsource hgoal hne hstart hrun]
    show Except.ok ((PathState.trace t.parents source image.nodes.size goal []).map Path.mk) = _
    rw [PathState.trace_of_le hsteps htrace]
    rfl

theorem Sound.exists_distance (hs : image.Sound) {start v k : Nat}
    (hstart : start < image.nodes.size) (hv : image.adjacency.Hop start v k) :
    ∃ r d, image.adjacency.breadthFirst start true = .ok r ∧ r.distances = some d ∧
      d[v]? = some k := by
  obtain ⟨c, hexact, hnil, hbreadth⟩ := Adjacency.exists_breadthFirst hs.closed hstart true
  obtain ⟨d, hd⟩ := Option.isSome_iff_exists.mp hexact.recorded_iff
  exact ⟨c.answer, d, hbreadth, hd,
    (hexact.getElem?_distances hnil hd (hv.lt_count hs.closed hstart) k).mpr (Or.inl hv)⟩

/-- **A shortest path of an accepted file** is answered for any two positions of which the first
reaches the second, and no path for any other two. It passes edges of the table and no position
twice, and has as few edges as any way there, the number that a breadth-first search records. It is
read off backwards along discovered positions in as many steps. Only a position past the nodes is a
fault. -/
theorem route_of_accepted {b : ByteArray} (h : parse b = .ok image) (source goal : Nat) :
    (∀ u v, v ∈ image.adjacency.out u ↔ image.Link u v) ∧
    (image.nodes.size ≤ source → image.adjacency.shortestPath source goal =
      .error (.outOfRange .node source image.nodes.size)) ∧
    (source < image.nodes.size → image.nodes.size ≤ goal →
      image.adjacency.shortestPath source goal =
        .error (.outOfRange .node goal image.nodes.size)) ∧
    (source < image.nodes.size → goal < image.nodes.size →
      (image.adjacency.shortestPath source goal = .ok none ↔ ¬ image.Reaches source goal) ∧
      (image.Reaches source goal → ∃ p,
        image.adjacency.shortestPath source goal = .ok (some p) ∧
        p.source? = some source ∧ p.target? = some goal ∧ p.nodes.Nodup ∧
        p.nodes.IsChain image.Link ∧
        IsLeast {k | image.adjacency.Way source k goal} p.distance ∧
        p.distance < image.nodes.size ∧
        (∃ r d, image.adjacency.breadthFirst source true = .ok r ∧ r.distances = some d ∧
          d[goal]? = some p.distance) ∧
        (source = goal → p.nodes = [source])) ∧
      (source ≠ goal → ∃ s t, PathState.start image.nodes.size source = .ok s ∧
        PathState.run image.adjacency goal s = .ok t ∧
        (PathState.Found t.parents goal ↔ image.Reaches source goal) ∧
        (PathState.Found t.parents goal →
          (∀ v, PathState.Back t.parents source goal v → PathState.Found t.parents v) ∧
          ∃ p, image.adjacency.shortestPath source goal = .ok (some p) ∧
            ∀ steps, p.distance ≤ steps →
              PathState.trace t.parents source steps goal [] = some p.nodes))) := by
  have hs := Sound.of_parse h
  refine ⟨fun u v => hs.mem_out_iff, fun hsource => ?_, fun hsource hgoal => ?_,
    fun hsource hgoal => ⟨?_, fun hreach => ?_, hs.exists_search hsource hgoal⟩⟩
  · unfold Adjacency.shortestPath
    rw [Adjacency.check_of_ge hsource]
    rfl
  · unfold Adjacency.shortestPath
    rw [Adjacency.check_of_lt hsource, Adjacency.check_of_ge hgoal]
    rfl
  · rw [hs.reaches_iff]
    rcases Adjacency.shortestPath_cases hs.closed hsource hgoal with
      ⟨p, hp, hshortest⟩ | ⟨hnone, hfar⟩
    · rw [hp]
      exact iff_of_false (fun heq => by cases heq) (not_not_intro ⟨_, hshortest.hop⟩)
    · exact iff_of_true hnone fun ⟨j, hj⟩ => hfar j hj
  · obtain ⟨k, hk⟩ := hs.reaches_iff.mp hreach
    obtain ⟨p, hp, hshortest⟩ | ⟨-, hfar⟩ :=
      Adjacency.shortestPath_cases hs.closed hsource hgoal
    · refine ⟨p, hp, hshortest.first, hshortest.last, hshortest.nodup,
        hshortest.edges.imp fun u v => hs.mem_out_iff.mp, ⟨hshortest.hop.1, fun j hj => ?_⟩,
        hshortest.hop.level_lt hs.closed hsource, hs.exists_distance hsource hshortest.hop, ?_⟩
      · exact Nat.le_of_not_lt fun hlt => hshortest.hop.2 j hlt hj
      · rintro rfl
        rw [Adjacency.shortestPath_self hsource] at hp
        cases hp
        rfl
    · exact absurd hk (hfar k)

theorem route_of_accepted_sample : ∃ b image, parse b = .ok image ∧
    (∃ p, image.adjacency.shortestPath 0 1 = .ok (some p) ∧ p.target? = some 1 ∧
      p.nodes.IsChain image.Link) ∧
    image.adjacency.shortestPath 1 0 = .ok none ∧
    image.adjacency.shortestPath 0 2 = .error (.outOfRange .node 2 2) := by
  obtain ⟨b, image, h, hnodes, hout, hend⟩ := Graph.exists_parse_sample_out
  obtain ⟨hlink, -, -, hthere⟩ := route_of_accepted h 0 1
  obtain ⟨-, -, -, hback⟩ := route_of_accepted h 1 0
  obtain ⟨-, -, hpast, -⟩ := route_of_accepted h 0 2
  rw [hnodes] at hthere hback hpast
  have hreach : image.Reaches 0 1 :=
    .single ((hlink 0 1).mp (by rw [hout]; exact List.mem_cons_self))
  have hapart : ¬ image.Reaches 1 0 := fun hreach => by
    rcases hreach.cases_head with heq | ⟨v, hv, -⟩
    · cases heq
    · rw [← hlink, hend] at hv
      cases hv
  obtain ⟨p, hp, -, htarget, -, hchain, -⟩ := (hthere (by decide) (by decide)).2.1 hreach
  exact ⟨b, image, h, ⟨p, hp, htarget, hchain⟩, (hback (by decide) (by decide)).1.mpr hapart,
    hpast (by decide) (by decide)⟩

end Image

end FlatGraph
