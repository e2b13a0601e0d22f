import Mathlib.Algebra.Order.Ring.Nat
import FlatGraph.Image.Analysis
import FlatGraph.Proofs.Written.Accepted

/-! # The adjacency of an accepted file

A file is accepted with the one threading of its edges only, so each walk holds exactly the edges
that leave its node, in table order, and the walks part the edge table. Nothing ends a walk early:
every link leads to an edge of the table and every target is a node.

* `Image.Sound.outEdges_eq`, `Image.Sound.neighbors_eq`: what is answered by position and by
  identifier.
* `Image.adjacency_of_accepted`: the adjacency of every accepted file. -/

namespace FlatGraph

/-- The edges that leave a position, in table order. -/
def Image.edgesFrom (image : Image) (position : Nat) : List EdgeRecord :=
  image.edges.toList.filter fun e => e.source.toNat = position

theorem filterMap_range_getElem? {α : Type} (l : List α) :
    (List.range l.length).filterMap (fun i => l[i]?) = l := by
  induction l with
  | nil => rfl
  | cons x l ih =>
    rw [List.length_cons, List.range_succ_eq_map]
    show x :: ((List.range l.length).map Nat.succ).filterMap (fun i => (x :: l)[i]?) = x :: l
    rw [List.filterMap_map]
    exact congrArg (x :: ·) ih

theorem sum_map_eq_total {α : Type} (f : α → Nat) (xs : List α) : (xs.map f).sum = total f xs := by
  induction xs with
  | nil => rfl
  | cons x xs ih => rw [List.map_cons, List.sum_cons, ih, total_cons]

theorem filterMap_leaving (edges : Array EdgeRecord) (p : Nat) :
    (leaving edges p 0).filterMap (fun i => edges[i]?) =
      edges.toList.filter fun e => e.source.toNat = p := by
  conv_rhs => rw [← filterMap_range_getElem? edges.toList]
  rw [leaving_zero, List.filterMap_filter, List.filter_filterMap, Array.length_toList]
  refine List.filterMap_congr fun i _ => ?_
  rw [Array.getElem?_toList, sourceAt]
  cases edges[i]? with
  | none => rfl
  | some e => by_cases h : e.source.toNat = p <;> simp [Option.filter, h]

namespace Image

variable {image : Image}

theorem node_of_lt {p : Nat} (hp : p < image.nodes.size) : image.node p = .ok image.nodes[p] := by
  unfold node; rw [Array.getElem?_eq_getElem hp]

theorem node_of_ge {p : Nat} (hp : image.nodes.size ≤ p) :
    image.node p = .error (.outOfRange .node p image.nodes.size) := by
  unfold node; rw [Array.getElem?_eq_none hp]

theorem edge_of_lt {i : Nat} (hi : i < image.edges.size) : image.edge i = .ok image.edges[i] := by
  unfold edge
  rw [Array.getElem?_eq_getElem hi]

theorem edge_of_ge {i : Nat} (hi : image.edges.size ≤ i) :
    image.edge i = .error (.outOfRange .edge i image.edges.size) := by
  unfold edge
  rw [Array.getElem?_eq_none hi]

theorem node_of_getElem? {p : Nat} {r : NodeRecord} (h : image.nodes[p]? = some r) :
    image.node p = .ok r := by
  unfold node
  rw [h]

theorem edge_of_getElem? {i : Nat} {r : EdgeRecord} (h : image.edges[i]? = some r) :
    image.edge i = .ok r := by
  unfold edge
  rw [h]

theorem idOf_of_node {p : Nat} {r : NodeRecord} (h : image.node p = .ok r) :
    image.idOf p = .ok r.id := by
  unfold idOf
  rw [h]
  rfl

theorem idOf_eq_ok_iff {p : Nat} {id : UInt64} :
    image.idOf p = .ok id ↔ ∃ hp : p < image.nodes.size, image.nodes[p].id = id := by
  constructor
  · intro h
    rcases Nat.lt_or_ge p image.nodes.size with hp | hp
    · rw [idOf_of_node (node_of_lt hp)] at h
      exact ⟨hp, Except.ok.inj h⟩
    · unfold idOf at h
      rw [node_of_ge hp] at h
      cases h
  · rintro ⟨hp, rfl⟩
    exact idOf_of_node (node_of_lt hp)

theorem nodePayload_of_node {p : Nat} {r : NodeRecord} (h : image.node p = .ok r) :
    image.nodePayload p = image.payloadAt? (image.nodeOffset? p r) := by
  unfold nodePayload
  rw [h]
  rfl

theorem edgePayload_of_edge {i : Nat} {r : EdgeRecord} (h : image.edge i = .ok r) :
    image.edgePayload i = image.payloadAt? (payload? r.payload) := by
  unfold edgePayload
  rw [h]
  rfl

theorem weight_of_edge {i : Nat} {r : EdgeRecord} (h : image.edge i = .ok r) :
    image.weight i = .ok (image.weights.bind fun column => column[i]?) := by
  unfold weight
  rw [h]
  rfl

theorem outEdges_of_ge {p : Nat} (hp : image.nodes.size ≤ p) :
    image.outEdges p = .error (.outOfRange .node p image.nodes.size) := by
  unfold outEdges; rw [node_of_ge hp]; rfl

theorem outDegree_of_ge {p : Nat} (hp : image.nodes.size ≤ p) :
    image.outDegree p = .error (.outOfRange .node p image.nodes.size) := by
  unfold outDegree; rw [outEdges_of_ge hp]; rfl

theorem map_targetIds {edges : List EdgeRecord}
    (h : ∀ e ∈ edges, e.target.toNat < image.nodes.size) :
    (image.targetIds edges).map some =
      edges.map fun e => image.nodes[e.target.toNat]?.map (·.id) := by
  induction edges with
  | nil => rfl
  | cons e rest ih =>
    have he := Array.getElem?_eq_getElem (h e List.mem_cons_self)
    rw [targetIds, he, List.map_cons, List.map_cons, he,
      ih fun f hf => h f (List.mem_cons_of_mem e hf)]
    rfl

theorem length_targetIds {edges : List EdgeRecord}
    (h : ∀ e ∈ edges, e.target.toNat < image.nodes.size) :
    (image.targetIds edges).length = edges.length := by
  have := congrArg List.length (map_targetIds h)
  simpa using this

theorem length_chainEdges (edges : Array EdgeRecord) (c : Nat) :
    (chainEdges edges c).length = (chain edges c).length := by
  unfold chainEdges
  rw [List.filterMap_length_eq_length]
  intro i hi
  rw [Array.getElem?_eq_getElem (chain_lt hi)]
  rfl

theorem mem_edgesFrom {p : Nat} {e : EdgeRecord} :
    e ∈ image.edgesFrom p ↔ e ∈ image.edges ∧ e.source.toNat = p := by
  simp [edgesFrom]

/-- Some edge leads from a position to another. -/
def Link (image : Image) (u v : Nat) : Prop :=
  ∃ e ∈ image.edges, e.source.toNat = u ∧ e.target.toNat = v

theorem targets_of_ge {p : Nat} (hp : image.nodes.size ≤ p) : image.targets p = [] := by
  unfold targets
  rw [Array.getElem?_eq_none hp]

namespace Sound

variable (hs : image.Sound)
include hs

theorem chain_first {p : Nat} (hp : p < image.nodes.size) :
    chain image.edges image.nodes[p].first.toNat = leaving image.edges p 0 :=
  chain_eq_leaving hs.threaded hp

theorem chainEdges_first {p : Nat} (hp : p < image.nodes.size) :
    chainEdges image.edges image.nodes[p].first.toNat = image.edgesFrom p := by
  rw [chainEdges, chain_first hs hp, filterMap_leaving, edgesFrom]

/-- **The walk of a node** answers exactly the edges that leave it, in table order. -/
theorem outEdges_eq {p : Nat} (hp : p < image.nodes.size) :
    image.outEdges p = .ok (image.edgesFrom p) := by
  unfold outEdges
  rw [node_of_lt hp, ← chainEdges_first hs hp]
  rfl

theorem outDegree_eq {p : Nat} (hp : p < image.nodes.size) :
    image.outDegree p = .ok (image.edgesFrom p).length := by
  unfold outDegree
  rw [outEdges_eq hs hp]
  rfl

theorem targets_eq {p : Nat} (hp : p < image.nodes.size) :
    image.targets p = (image.edgesFrom p).map fun e => e.target.toNat := by
  unfold targets
  rw [Array.getElem?_eq_getElem hp, ← chainEdges_first hs hp]

/-- **The targets that a search sees** are those of the edges in the table. -/
theorem mem_out_iff {u v : Nat} : v ∈ image.adjacency.out u ↔ image.Link u v := by
  show v ∈ image.targets u ↔ _
  by_cases hu : u < image.nodes.size
  · simp only [targets_eq hs hu, List.mem_map, mem_edgesFrom, Link, and_assoc]
  · rw [targets_of_ge (Nat.le_of_not_lt hu)]
    refine iff_of_false List.not_mem_nil ?_
    rintro ⟨e, he, rfl, -⟩
    obtain ⟨i, hi, rfl⟩ := Array.mem_iff_getElem.mp he
    exact hu (hs.ends i hi).1

theorem target_lt {p : Nat} {e : EdgeRecord} (he : e ∈ image.edgesFrom p) :
    e.target.toNat < image.nodes.size := by
  obtain ⟨i, hi, rfl⟩ := Array.mem_iff_getElem.mp (mem_edgesFrom.mp he).1
  exact (hs.ends i hi).2

theorem degreeDistribution_getElem? {p : Nat} (hp : p < image.nodes.size) :
    image.degreeDistribution[p]? = some (image.edgesFrom p).length := by
  unfold degreeDistribution
  rw [List.getElem?_map, List.getElem?_range hp, Option.map_some, targets_eq hs hp, List.length_map]

/-- The out-degrees add up to the number of edges, since the walks part the edge table. -/
theorem sum_degreeDistribution : image.degreeDistribution.sum = image.edges.size := by
  have hperm := hs.threaded.perm_walks fun i hi => (hs.ends i hi).1
  have hlength := hperm.length_eq
  rw [List.length_range, length_walks] at hlength
  have hwalks : image.degreeDistribution =
      image.nodes.toList.map fun n => (chain image.edges n.first.toNat).length := by
    refine List.ext_getElem (by simp [degreeDistribution]) fun p hp _ => ?_
    have hp : p < image.nodes.size := by simpa [degreeDistribution] using hp
    simp only [degreeDistribution, List.getElem_map, List.getElem_range, Array.getElem_toList,
      targets, Array.getElem?_eq_getElem hp, List.length_map, length_chainEdges]
  rw [hwalks, sum_map_eq_total]
  exact hlength

/-- **The neighbors of an identifier** are the identifiers at the targets of the edges that leave
its node: no walk ends early. -/
theorem neighbors_eq {p : Nat} (hp : p < image.nodes.size) :
    image.neighbors image.nodes[p].id = .ok (image.targetIds (image.edgesFrom p)) := by
  unfold neighbors positionOf
  rw [hs.ids.positionOf_id hp]
  show (image.outEdges p >>= fun edges => pure (image.targetIds edges)) = _
  rw [outEdges_eq hs hp]
  rfl

theorem degree_eq {p : Nat} (hp : p < image.nodes.size) :
    image.degree image.nodes[p].id = .ok (image.edgesFrom p).length := by
  unfold degree positionOf
  rw [hs.ids.positionOf_id hp]
  exact outDegree_eq hs hp

/-- Where the payload of a node is, the index of offsets tells as its record does. -/
theorem nodeOffset?_eq {p : Nat} {r : NodeRecord} (hr : image.nodes[p]? = some r) :
    image.nodeOffset? p r = payload? r.payload := by
  unfold nodeOffset?
  split
  · next slots hslots =>
    rw [hs.offsets slots hslots, Array.getElem?_map, hr]
    rfl
  · rfl

theorem existsUnique_walk {i : Nat} (hi : i < image.edges.size) :
    ∃! p, ∃ hp : p < image.nodes.size, i ∈ chain image.edges image.nodes[p].first.toNat := by
  refine ⟨image.edges[i].source.toNat, ⟨(hs.ends i hi).1, ?_⟩, ?_⟩
  · rw [chain_first hs (hs.ends i hi).1, mem_leaving]
    exact ⟨Nat.zero_le i, sourceAt_getElem hi⟩
  · rintro p ⟨hp, hmem⟩
    rw [chain_first hs hp, mem_leaving, sourceAt_getElem hi] at hmem
    exact (Option.some.inj hmem.2).symm

end Sound

theorem Sound.of_parse {b : ByteArray} (h : parse b = .ok image) : image.Sound := by
  obtain ⟨hb, rfl⟩ := parse_eq_ok_iff.mp h
  rw [Sound, ofFile_nodes, ofFile_edges]
  exact ⟨hb.ends, hb.threaded, (offsets_ofFile_iff hb.sections).mpr hb.offsets,
    (ids_ofFile_iff hb.sections).mpr ⟨hb.dense, hb.sparse⟩⟩

theorem size_le_of_parse {b : ByteArray} (h : parse b = .ok image) :
    image.nodes.size ≤ maxElements ∧ image.edges.size ≤ maxElements := by
  obtain ⟨hb, rfl⟩ := parse_eq_ok_iff.mp h
  rw [ofFile_nodes, ofFile_edges, size_nodesOf, edgesOf, Table.size_readAt]
  exact ⟨hb.nodeCount, hb.edgeCount⟩

/-- **The adjacency of an accepted file.** Walks, degrees and neighbors are those of the edge table,
every edge is on the walk of one node, and a position past the nodes is refused. -/
theorem adjacency_of_accepted {b : ByteArray} {image : Image} (h : parse b = .ok image) :
    (∀ p (hp : p < image.nodes.size),
      chain image.edges image.nodes[p].first.toNat =
        (List.range image.edges.size).filter (fun i => sourceAt image.edges i = some p) ∧
      image.outEdges p = .ok (image.edgesFrom p) ∧
      image.outDegree p = .ok (image.edgesFrom p).length ∧
      image.degreeDistribution[p]? = some (image.edgesFrom p).length) ∧
    image.degreeDistribution.length = image.nodes.size ∧
    image.degreeDistribution.sum = image.edges.size ∧
    image.edges.size ≤ maxElements ∧
    (∀ i < image.edges.size, ∃! p,
      ∃ hp : p < image.nodes.size, i ∈ chain image.edges image.nodes[p].first.toNat) ∧
    (∀ p (hp : p < image.nodes.size), ∃ ids,
      image.neighbors image.nodes[p].id = .ok ids ∧
      ids.map some = (image.edgesFrom p).map (fun e => image.nodes[e.target.toNat]?.map (·.id)) ∧
      image.degree image.nodes[p].id = .ok ids.length) ∧
    (∀ p, image.nodes.size ≤ p →
      image.outEdges p = .error (.outOfRange .node p image.nodes.size) ∧
      image.outDegree p = .error (.outOfRange .node p image.nodes.size)) := by
  have hs := Sound.of_parse h
  refine ⟨fun p hp => ⟨?_, hs.outEdges_eq hp, hs.outDegree_eq hp,
    hs.degreeDistribution_getElem? hp⟩, by simp [degreeDistribution], hs.sum_degreeDistribution,
    (size_le_of_parse h).2, fun i hi => hs.existsUnique_walk hi, fun p hp => ?_,
    fun p hp => ⟨outEdges_of_ge hp, outDegree_of_ge hp⟩⟩
  · rw [hs.chain_first hp, leaving_zero]
  · have ht : ∀ e ∈ image.edgesFrom p, e.target.toNat < image.nodes.size :=
      fun e he => hs.target_lt he
    refine ⟨_, hs.neighbors_eq hp, map_targetIds ht, ?_⟩
    rw [hs.degree_eq hp, length_targetIds ht]

theorem adjacency_of_accepted_sample : ∃ b image, parse b = .ok image ∧
    image.outDegree 0 = .ok (image.edgesFrom 0).length ∧ image.degreeDistribution.sum = 2 ∧
    image.outDegree 2 = .error (.outOfRange .node 2 2) := by
  obtain ⟨b, image, h, hnodes, hedges⟩ := Graph.exists_parse_sample
  obtain ⟨hwalks, -, hsum, -, -, -, hpast⟩ := adjacency_of_accepted h
  refine ⟨b, image, h, (hwalks 0 (by omega)).2.2.1, hsum.trans hedges, ?_⟩
  have hrefused := (hpast 2 (by omega)).2
  rwa [hnodes] at hrefused

end Image

end FlatGraph
