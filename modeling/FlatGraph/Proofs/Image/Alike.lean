import FlatGraph.Proofs.Image.Analysis

/-! # Files that answer alike

The links of an accepted file are those of the one threading of its edges, so all walks and all
searches follow from the ends of its edges. Two accepted files with as many nodes, whose edges have
the same ends, have the same links and are searched alike, wherever their sections are and whatever
their identifiers.

* `Image.SameSearches`: all that is asked by position only. `Image.Sound.sameSearches`: the ends of
  the edges tell it.
* `Image.Alike`: all that is asked of the graph in a file. `Image.Sound.alike`: the ends of the
  edges and what the records carry tell it.
* `Image.Sound.neighbors_map`: the neighbors, if the identifiers are renamed.
* `Image.Content`: the graph in a file. `Image.Content.alike`: files that hold one graph answer
  alike. -/

namespace FlatGraph

/-! ### Links -/

theorem NamesLeast.unique {among : Set Nat} {a b : UInt32} (ha : NamesLeast among a)
    (hb : NamesLeast among b) : a = b := by
  rcases ha with ⟨rfl, hempty⟩ | ⟨-, ha⟩
  · rcases hb with ⟨rfl, -⟩ | ⟨-, hb⟩
    · rfl
    · rw [hempty] at hb
      exact absurd hb.1 (Set.notMem_empty _)
  · rcases hb with ⟨-, hempty⟩ | ⟨-, hb⟩
    · rw [hempty] at ha
      exact absurd ha.1 (Set.notMem_empty _)
    · exact UInt32.toNat_inj.mp (ha.unique hb)

/-- The record of a node but for where its payload is. -/
def NodeRecord.bare (r : NodeRecord) : NodeRecord := { r with payload := noPayload }

/-- The record of an edge but for where its payload is. -/
def EdgeRecord.bare (r : EdgeRecord) : EdgeRecord := { r with payload := noPayload }

namespace Image

variable {image other : Image}

theorem sourceAt_ends (image : Image) (j : Nat) :
    sourceAt image.edges j = image.ends[j]?.map Prod.fst := by
  rw [sourceAt, ends, List.getElem?_map, Array.getElem?_toList, Option.map_map]
  rfl

theorem ends_getElem {i : Nat} (hi : i < image.edges.size) :
    image.ends[i]? = some (image.edges[i].source.toNat, image.edges[i].target.toNat) := by
  rw [ends, List.getElem?_map, Array.getElem?_toList, Array.getElem?_eq_getElem hi]
  rfl

theorem size_edges_eq (hends : image.ends = other.ends) :
    image.edges.size = other.edges.size := by
  rw [← length_ends, hends, length_ends]

theorem source_target_eq (hends : image.ends = other.ends) {i : Nat} (hi : i < image.edges.size)
    (hi' : i < other.edges.size) : image.edges[i].source = other.edges[i].source ∧
      image.edges[i].target = other.edges[i].target := by
  have hat := ends_getElem hi
  rw [hends, ends_getElem hi', Option.some.injEq, Prod.mk.injEq] at hat
  exact ⟨UInt32.toNat_inj.mp hat.1.symm, UInt32.toNat_inj.mp hat.2.symm⟩

namespace Sound

/-- **The first edge of a node** follows from the ends of the edges. -/
theorem first_eq (hs : image.Sound) (ho : other.Sound) (hends : image.ends = other.ends) {p : Nat}
    (hp : p < image.nodes.size) (hp' : p < other.nodes.size) :
    image.nodes[p].first = other.nodes[p].first := by
  have hfirst := hs.threaded.first p hp
  simp only [sourceAt_ends, hends] at hfirst
  have hfirst' := ho.threaded.first p hp'
  simp only [sourceAt_ends] at hfirst'
  exact hfirst.unique hfirst'

/-- **The link of an edge** follows from the ends of the edges. -/
theorem next_eq (hs : image.Sound) (ho : other.Sound) (hends : image.ends = other.ends) {i : Nat}
    (hi : i < image.edges.size) (hi' : i < other.edges.size) :
    image.edges[i].next = other.edges[i].next := by
  have hnext := hs.threaded.next i hi
  simp only [sourceAt_ends, hends] at hnext
  have hnext' := ho.threaded.next i hi'
  simp only [sourceAt_ends] at hnext'
  exact hnext.unique hnext'

end Sound

/-! ### Searches -/

/-- **All that is asked by position only** is answered alike. -/
structure SameSearches (image other : Image) : Prop where
  outDegree : ∀ p, image.outDegree p = other.outDegree p
  degreeDistribution : image.degreeDistribution = other.degreeDistribution
  breadthFirst : ∀ start recordDistances,
    image.adjacency.breadthFirst start recordDistances =
      other.adjacency.breadthFirst start recordDistances
  parallelBreadthFirst : ∀ start o starter schedule,
    image.adjacency.parallelBreadthFirst start o starter schedule =
      other.adjacency.parallelBreadthFirst start o starter schedule
  depthFirst : ∀ start limit,
    image.adjacency.depthFirst start limit = other.adjacency.depthFirst start limit
  shortestPath : ∀ source goal,
    image.adjacency.shortestPath source goal = other.adjacency.shortestPath source goal
  componentCount : ∀ mode, image.componentCount mode = other.componentCount mode
  recount : image.recount = other.recount

namespace Sound

theorem targets_ends (hs : image.Sound) {p : Nat} (hp : p < image.nodes.size) :
    image.targets p = (image.ends.filter fun e => e.1 = p).map Prod.snd := by
  rw [hs.targets_eq hp, ends, List.filter_map, List.map_map]
  rfl

theorem out_ends (hs : image.Sound) {p : Nat} (hp : p < image.nodes.size) :
    image.adjacency.out p = (image.ends.filter fun e => e.1 = p).map Prod.snd :=
  hs.targets_ends hp

theorem adjacency_eq (hs : image.Sound) (ho : other.Sound)
    (hsize : image.nodes.size = other.nodes.size) (hends : image.ends = other.ends) :
    image.adjacency = other.adjacency := by
  have htargets : image.targets = other.targets := by
    funext p
    rcases Nat.lt_or_ge p image.nodes.size with hp | hp
    · rw [hs.targets_ends hp, ho.targets_ends (by omega), hends]
    · rw [targets_of_ge hp, targets_of_ge (by omega)]
  rw [adjacency, adjacency, hsize, htargets]

theorem outDegree_congr (hs : image.Sound) (ho : other.Sound)
    (hsize : image.nodes.size = other.nodes.size) (hends : image.ends = other.ends) (p : Nat) :
    image.outDegree p = other.outDegree p := by
  rcases Nat.lt_or_ge p image.nodes.size with hp | hp
  · rw [hs.outDegree_eq hp, ho.outDegree_eq (by omega), ← outCount_ends, hends, outCount_ends]
  · rw [outDegree_of_ge hp, outDegree_of_ge (by omega), hsize]

/-- **The ends of the edges tell every search.** -/
theorem sameSearches (hs : image.Sound) (ho : other.Sound)
    (hsize : image.nodes.size = other.nodes.size) (hends : image.ends = other.ends) :
    image.SameSearches other := by
  have hadjacency := hs.adjacency_eq ho hsize hends
  refine ⟨hs.outDegree_congr ho hsize hends, ?_, ?_, ?_, ?_, ?_, ?_, ?_⟩
  · rw [hs.degreeDistribution_eq, ho.degreeDistribution_eq, hsize, hends]
  · intro start recordDistances
    rw [hadjacency]
  · intro start o starter schedule
    rw [hadjacency]
  · intro start limit
    rw [hadjacency]
  · intro source goal
    rw [hadjacency]
  · intro mode
    cases mode with
    | weak =>
      unfold componentCount
      rw [hsize, hends]
    | reachability =>
      unfold componentCount
      rw [hadjacency]
  · rw [recount, recount, hsize, hends]

/-! ### Neighbors -/

theorem map_targetIds_edgesFrom (hs : image.Sound) (p : Nat) :
    (image.targetIds (image.edgesFrom p)).map some =
      (image.ends.filter fun e => e.1 = p).map fun e => image.nodes[e.2]?.map (·.id) := by
  rw [map_targetIds fun e he => hs.target_lt he, edgesFrom, ends, List.filter_map, List.map_map]
  rfl

/-- **The neighbors under other identifiers.** If the nodes are renamed and the edges keep their
ends, the neighbors are renamed. -/
theorem neighbors_map (hs : image.Sound) (ho : other.Sound) {f : UInt64 → UInt64}
    (hids : other.nodes.map NodeRecord.id = (image.nodes.map NodeRecord.id).map f)
    (hends : image.ends = other.ends) {p : Nat} (hp : p < image.nodes.size) :
    other.neighbors (f image.nodes[p].id) =
      (image.neighbors image.nodes[p].id).map (List.map f) := by
  have hsize : other.nodes.size = image.nodes.size := by simpa using congrArg Array.size hids
  have hname : ∀ q : Nat,
      other.nodes[q]?.map (·.id) = (image.nodes[q]?.map (·.id)).map f := by
    intro q
    have hat := congrArg (fun ids => ids[q]?) hids
    simpa only [Array.getElem?_map] using hat
  have hp' : p < other.nodes.size := by omega
  have hid : other.nodes[p].id = f image.nodes[p].id := by
    have hat := hname p
    rw [Array.getElem?_eq_getElem hp, Array.getElem?_eq_getElem hp'] at hat
    exact Option.some.inj hat
  rw [← hid, ho.neighbors_eq hp', hs.neighbors_eq hp]
  refine congrArg Except.ok (List.map_injective_iff.mpr (Option.some_injective _) ?_)
  calc (other.targetIds (other.edgesFrom p)).map some
      = (image.ends.filter fun e => e.1 = p).map
          fun e => (image.nodes[e.2]?.map (·.id)).map f := by
        rw [ho.map_targetIds_edgesFrom, ← hends]
        exact List.map_congr_left fun e _ => hname e.2
    _ = ((image.targetIds (image.edgesFrom p)).map some).map (Option.map f) := by
        rw [hs.map_targetIds_edgesFrom, List.map_map]
        rfl
    _ = ((image.targetIds (image.edgesFrom p)).map f).map some := by
        rw [List.map_map, List.map_map]
        rfl

end Sound

/-! ### Whole graphs -/

/-- **The two files hold the same graph**, but for the weights: they answer alike all that is asked
of its nodes and edges, by position and by identifier, and every search. Where their payloads are
may differ. -/
structure Alike (image other : Image) : Prop where
  nodes : image.nodes.map NodeRecord.bare = other.nodes.map NodeRecord.bare
  edges : image.edges.map EdgeRecord.bare = other.edges.map EdgeRecord.bare
  nodePayload : ∀ p, image.nodePayload p = other.nodePayload p
  edgePayload : ∀ i, image.edgePayload i = other.edgePayload i
  positionOf : ∀ id, image.positionOf id = other.positionOf id
  outEdges : ∀ p, (image.outEdges p).map (List.map EdgeRecord.bare) =
    (other.outEdges p).map (List.map EdgeRecord.bare)
  neighbors : ∀ id, image.neighbors id = other.neighbors id
  degree : ∀ id, image.degree id = other.degree id
  searches : image.SameSearches other

theorem degree_congr {x y : UInt64} (hposition : image.positionOf x = other.positionOf y)
    (hdegree : ∀ p, image.outDegree p = other.outDegree p) : image.degree x = other.degree y := by
  unfold degree
  rw [hposition]
  cases other.positionOf y with
  | error fault => rfl
  | ok p => exact hdegree p

theorem nodePayload_of_ge {p : Nat} (hp : image.nodes.size ≤ p) :
    image.nodePayload p = .error (.outOfRange .node p image.nodes.size) := by
  unfold nodePayload
  rw [node_of_ge hp]
  rfl

theorem edgePayload_of_ge {i : Nat} (hi : image.edges.size ≤ i) :
    image.edgePayload i = .error (.outOfRange .edge i image.edges.size) := by
  unfold edgePayload
  rw [edge_of_ge hi]
  rfl

theorem nodePayload_congr (hsize : image.nodes.size = other.nodes.size)
    (h : ∀ p < image.nodes.size, image.nodePayload p = other.nodePayload p) (p : Nat) :
    image.nodePayload p = other.nodePayload p := by
  rcases Nat.lt_or_ge p image.nodes.size with hp | hp
  · exact h p hp
  · rw [nodePayload_of_ge hp, nodePayload_of_ge (by omega), hsize]

theorem edgePayload_congr (hsize : image.edges.size = other.edges.size)
    (h : ∀ i < image.edges.size, image.edgePayload i = other.edgePayload i) (i : Nat) :
    image.edgePayload i = other.edgePayload i := by
  rcases Nat.lt_or_ge i image.edges.size with hi | hi
  · exact h i hi
  · rw [edgePayload_of_ge hi, edgePayload_of_ge (by omega), hsize]

theorem weight_of_ge {i : Nat} (hi : image.edges.size ≤ i) :
    image.weight i = .error (.outOfRange .edge i image.edges.size) := by
  unfold weight
  rw [edge_of_ge hi]
  rfl

theorem edgesFrom_bare (image : Image) (p : Nat) : (image.edgesFrom p).map EdgeRecord.bare =
    (image.edges.map EdgeRecord.bare).toList.filter fun e => e.source.toNat = p := by
  rw [edgesFrom, Array.toList_map, List.filter_map]
  rfl

namespace Sound

variable (hs : image.Sound) (ho : other.Sound) (hends : image.ends = other.ends)
include hs ho hends

theorem bare_nodes_eq (hsize : image.nodes.size = other.nodes.size)
    (hfields : ∀ p (hp : p < image.nodes.size) (hp' : p < other.nodes.size),
      image.nodes[p].id = other.nodes[p].id ∧ image.nodes[p].kind = other.nodes[p].kind ∧
        image.nodes[p].flags = other.nodes[p].flags) :
    image.nodes.map NodeRecord.bare = other.nodes.map NodeRecord.bare := by
  refine Array.ext (by simpa using hsize) fun p hp hp' => ?_
  rw [Array.size_map] at hp hp'
  obtain ⟨hid, hkind, hflags⟩ := hfields p hp hp'
  rw [Array.getElem_map, Array.getElem_map, NodeRecord.bare, NodeRecord.bare, hid, hkind, hflags,
    hs.first_eq ho hends hp hp']

theorem bare_edges_eq (hkinds : ∀ i (hi : i < image.edges.size) (hi' : i < other.edges.size),
      image.edges[i].kind = other.edges[i].kind) :
    image.edges.map EdgeRecord.bare = other.edges.map EdgeRecord.bare := by
  refine Array.ext (by simpa using size_edges_eq hends) fun i hi hi' => ?_
  rw [Array.size_map] at hi hi'
  obtain ⟨hsource, htarget⟩ := source_target_eq hends hi hi'
  rw [Array.getElem_map, Array.getElem_map, EdgeRecord.bare, EdgeRecord.bare, hsource, htarget,
    hkinds i hi hi', hs.next_eq ho hends hi hi']

/-- **The ends of the edges and what the records carry** tell all that is asked of the graph. -/
theorem alike (hsize : image.nodes.size = other.nodes.size)
    (hfields : ∀ p (hp : p < image.nodes.size) (hp' : p < other.nodes.size),
      image.nodes[p].id = other.nodes[p].id ∧ image.nodes[p].kind = other.nodes[p].kind ∧
        image.nodes[p].flags = other.nodes[p].flags)
    (hkinds : ∀ i (hi : i < image.edges.size) (hi' : i < other.edges.size),
      image.edges[i].kind = other.edges[i].kind)
    (hnodes : ∀ p < image.nodes.size, image.nodePayload p = other.nodePayload p)
    (hedges : ∀ i < image.edges.size, image.edgePayload i = other.edgePayload i) :
    image.Alike other := by
  have hbare := hs.bare_nodes_eq ho hends hsize hfields
  have hbareEdges := hs.bare_edges_eq ho hends hkinds
  have hids : image.nodes.map NodeRecord.id = other.nodes.map NodeRecord.id := by
    have := congrArg (Array.map NodeRecord.id) hbare
    rwa [Array.map_map, Array.map_map] at this
  have hposition := hs.positionOf_congr ho hids
  have hsearches := hs.sameSearches ho hsize hends
  constructor
  case nodes => exact hbare
  case edges => exact hbareEdges
  case nodePayload => exact nodePayload_congr hsize hnodes
  case edgePayload => exact edgePayload_congr (size_edges_eq hends) hedges
  case positionOf => exact hposition
  case outEdges =>
    intro p
    rcases Nat.lt_or_ge p image.nodes.size with hp | hp
    · rw [hs.outEdges_eq hp, ho.outEdges_eq (by omega)]
      refine congrArg Except.ok ?_
      rw [edgesFrom_bare, edgesFrom_bare, hbareEdges]
    · rw [outEdges_of_ge hp, outEdges_of_ge (by omega), hsize]
  case neighbors =>
    intro id
    cases hfound : image.positionOf id with
    | error fault =>
      have hfound' := hfound
      rw [hposition id] at hfound'
      unfold neighbors
      rw [hfound, hfound']
      rfl
    | ok p =>
      -- An identifier that is found is that of a node, which keeps its name.
      obtain ⟨hp, rfl⟩ := hs.positionOf_eq_ok_iff.mp hfound
      have hsame : other.nodes.map NodeRecord.id =
          (image.nodes.map NodeRecord.id).map fun id => id := by
        rw [Array.map_map]
        exact hids.symm
      rw [hs.neighbors_map ho hsame hends hp, hs.neighbors_eq hp]
      exact congrArg Except.ok (List.map_id' _).symm
  case degree =>
    intro id
    exact degree_congr (hposition id) hsearches.outDegree
  case searches => exact hsearches

end Sound

/-! ### The graph in a file -/

/-- **The file holds the graph**: its nodes and its edges in order, with all they carry but the
weights. What else the file holds, and where, is left open. -/
structure Content (image : Image) (g : Graph) : Prop where
  nodeCount : image.nodes.size = g.nodes.size
  edgeCount : image.edges.size = g.edges.size
  node : ∀ p (hp : p < image.nodes.size) (hp' : p < g.nodes.size),
    image.nodes[p].id = g.nodes[p].id ∧ image.nodes[p].kind = g.nodes[p].kind ∧
      image.nodes[p].flags = g.nodes[p].flags
  nodePayload : ∀ p (hp : p < g.nodes.size), image.nodePayload p = .ok g.nodes[p].payload
  edge : ∀ i (hi : i < image.edges.size) (hi' : i < g.edges.size),
    image.idOf image.edges[i].source.toNat = .ok g.edges[i].source ∧
      image.idOf image.edges[i].target.toNat = .ok g.edges[i].target ∧
      image.edges[i].kind = g.edges[i].kind
  edgePayload : ∀ i (hi : i < g.edges.size), image.edgePayload i = .ok g.edges[i].payload

namespace Content

variable {g : Graph} (hc : image.Content g) (hc' : other.Content g)
include hc hc'

theorem position_eq (ho : other.Sound) {p q : Nat} {id : UInt64} (hp : image.idOf p = .ok id)
    (hq : other.idOf q = .ok id) : p = q := by
  obtain ⟨hlt, hid⟩ := idOf_eq_ok_iff.mp hp
  obtain ⟨hlt', hid'⟩ := idOf_eq_ok_iff.mp hq
  have hcount := hc.nodeCount
  have hcount' := hc'.nodeCount
  -- No two nodes of a sound file share an identifier, so the position is that of the node's name.
  refine ho.eq_of_id_eq (by omega) hlt' ?_
  rw [hid', ← hid, (hc.node p hlt (by omega)).1, (hc'.node p (by omega) (by omega)).1]

/-- **The edges have the same ends** in both files. -/
theorem ends_eq (ho : other.Sound) : image.ends = other.ends := by
  have hcount := hc.edgeCount
  have hcount' := hc'.edgeCount
  refine List.ext_getElem? fun i => ?_
  rcases Nat.lt_or_ge i g.edges.size with hi | hi
  · obtain ⟨hsource, htarget, -⟩ := hc.edge i (by omega) hi
    obtain ⟨hsource', htarget', -⟩ := hc'.edge i (by omega) hi
    rw [ends_getElem (by omega), ends_getElem (by omega), hc.position_eq hc' ho hsource hsource',
      hc.position_eq hc' ho htarget htarget']
  · rw [List.getElem?_eq_none (by rw [length_ends]; omega),
      List.getElem?_eq_none (by rw [length_ends]; omega)]

/-- **Two files that hold one graph answer alike.** -/
theorem alike (hs : image.Sound) (ho : other.Sound) : image.Alike other := by
  have hnodes := hc.nodeCount
  have hnodes' := hc'.nodeCount
  have hedges := hc.edgeCount
  have hedges' := hc'.edgeCount
  refine hs.alike ho (hc.ends_eq hc' ho) (by omega) (fun p hp hp' => ?_) (fun i hi hi' => ?_)
    (fun p hp => ?_) fun i hi => ?_
  · obtain ⟨hid, hkind, hflags⟩ := hc.node p hp (by omega)
    obtain ⟨hid', hkind', hflags'⟩ := hc'.node p hp' (by omega)
    exact ⟨hid.trans hid'.symm, hkind.trans hkind'.symm, hflags.trans hflags'.symm⟩
  · exact (hc.edge i hi (by omega)).2.2.trans (hc'.edge i hi' (by omega)).2.2.symm
  · rw [hc.nodePayload p (by omega), hc'.nodePayload p (by omega)]
  · rw [hc.edgePayload i (by omega), hc'.edgePayload i (by omega)]

end Content

end Image

end FlatGraph
