import FlatGraph.Proofs.Image.Alike
import FlatGraph.Proofs.Written.Capacity
import FlatGraph.Proofs.Written.RoundTrip
import FlatGraph.Proofs.Written.Statistics

/-! # Files under other identifiers

Identifiers are names only. If the nodes of a graph are renamed so that no two names fall together,
the graph is still written, whether the names are positions before or after. The two files have the
same records but for the names, with the same links and the same payload offsets, and are searched
alike; what is asked by name is answered under the new names.

* `Graph.relabel`: the graph under other identifiers.
* `Graph.Writable.write_relabel`, `Graph.Writable.ends_relabel`: it is written, with the same ends.
* `Image.Relabeled`: how the two files answer. `Graph.relabel_of_write`: the files do so. -/

namespace FlatGraph

open Bytes

/-- The node under another identifier. -/
def Node.relabel (f : UInt64 → UInt64) (node : Node) : Node := { node with id := f node.id }

/-- The edge with its ends under other identifiers. -/
def Edge.relabel (f : UInt64 → UInt64) (edge : Edge) : Edge :=
  { edge with source := f edge.source, target := f edge.target }

/-- The record of a node under another identifier. -/
def NodeRecord.relabel (f : UInt64 → UInt64) (r : NodeRecord) : NodeRecord :=
  { r with id := f r.id }

/-- **The graph under other identifiers**, at its nodes and at the ends of its edges. -/
def Graph.relabel (f : UInt64 → UInt64) (g : Graph) : Graph where
  nodes := g.nodes.map (Node.relabel f)
  edges := g.edges.map (Edge.relabel f)

/-- **The two files differ in the identifiers of their nodes only**: all that is asked by position
is answered alike, and what is asked by identifier is answered under the other identifiers. -/
structure Image.Relabeled (f : UInt64 → UInt64) (image other : Image) : Prop where
  nodes : other.nodes = image.nodes.map (NodeRecord.relabel f)
  edges : other.edges = image.edges
  weight : ∀ i, other.weight i = image.weight i
  nodePayload : ∀ p, other.nodePayload p = image.nodePayload p
  edgePayload : ∀ i, other.edgePayload i = image.edgePayload i
  outEdges : ∀ p, other.outEdges p = image.outEdges p
  searches : image.SameSearches other
  positionOf : ∀ id ∈ image.nodes.map NodeRecord.id,
    other.positionOf (f id) = image.positionOf id
  neighbors : ∀ id ∈ image.nodes.map NodeRecord.id,
    other.neighbors (f id) = (image.neighbors id).map (List.map f)
  degree : ∀ id ∈ image.nodes.map NodeRecord.id, other.degree (f id) = image.degree id

namespace Image

variable {f : UInt64 → UInt64} {image other : Image}

theorem weight_congr (hedges : other.edges = image.edges) (hweights : other.weights = image.weights)
    (i : Nat) : other.weight i = image.weight i := by
  unfold weight edge
  rw [hedges, hweights]

namespace Sound

variable (hs : image.Sound) (ho : other.Sound)
include hs ho

theorem outEdges_congr (hsize : other.nodes.size = image.nodes.size)
    (hedges : other.edges = image.edges) (p : Nat) : other.outEdges p = image.outEdges p := by
  rcases Nat.lt_or_ge p image.nodes.size with hp | hp
  · rw [hs.outEdges_eq hp, ho.outEdges_eq (by omega), edgesFrom, edgesFrom, hedges]
  · rw [outEdges_of_ge hp, outEdges_of_ge (by omega), hsize]

/-- **Records that differ in the identifiers only** make files that differ in the identifiers
only. -/
theorem relabeled (hnodes : other.nodes = image.nodes.map (NodeRecord.relabel f))
    (hedges : other.edges = image.edges) (hweights : other.weights = image.weights)
    (hnodePayload : ∀ p < image.nodes.size, other.nodePayload p = image.nodePayload p)
    (hedgePayload : ∀ i < image.edges.size, other.edgePayload i = image.edgePayload i) :
    image.Relabeled f other := by
  have hsize : other.nodes.size = image.nodes.size := by rw [hnodes, Array.size_map]
  have hends : image.ends = other.ends := by rw [ends, ends, hedges]
  have hids : other.nodes.map NodeRecord.id = (image.nodes.map NodeRecord.id).map f := by
    rw [hnodes, Array.map_map, Array.map_map]
    rfl
  have hsearches := hs.sameSearches ho hsize.symm hends
  have hposition : ∀ id ∈ image.nodes.map NodeRecord.id,
      other.positionOf (f id) = image.positionOf id := by
    intro id hid
    obtain ⟨r, hr, rfl⟩ := Array.mem_map.mp hid
    obtain ⟨p, hp, rfl⟩ := Array.mem_iff_getElem.mp hr
    rw [hs.positionOf_id hp]
    refine ho.positionOf_eq_ok_iff.mpr ⟨by omega, ?_⟩
    simp only [hnodes, Array.getElem_map]
    rfl
  constructor
  case nodes => exact hnodes
  case edges => exact hedges
  case weight => exact weight_congr hedges hweights
  case nodePayload =>
    exact nodePayload_congr hsize fun p hp => hnodePayload p (hsize ▸ hp)
  case edgePayload =>
    exact edgePayload_congr (by rw [hedges]) fun i hi => hedgePayload i (hedges ▸ hi)
  case outEdges => exact hs.outEdges_congr ho hsize hedges
  case searches => exact hsearches
  case positionOf => exact hposition
  case neighbors =>
    intro id hid
    obtain ⟨r, hr, rfl⟩ := Array.mem_map.mp hid
    obtain ⟨p, hp, rfl⟩ := Array.mem_iff_getElem.mp hr
    exact hs.neighbors_map ho hids hends hp
  case degree =>
    intro id hid
    exact degree_congr (hposition id hid) fun p => (hsearches.outDegree p).symm

end Sound

end Image

namespace Graph

variable {f : UInt64 → UInt64} {g : Graph}

/-! ### The graph under other identifiers -/

theorem size_nodes_relabel (f : UInt64 → UInt64) (g : Graph) :
    (g.relabel f).nodes.size = g.nodes.size := Array.size_map

theorem size_edges_relabel (f : UInt64 → UInt64) (g : Graph) :
    (g.relabel f).edges.size = g.edges.size := Array.size_map

theorem getElem_nodes_relabel {p : Nat} (hp : p < g.nodes.size)
    (hp' : p < (g.relabel f).nodes.size) : (g.relabel f).nodes[p] = g.nodes[p].relabel f := by
  simp only [relabel, Array.getElem_map]

theorem getElem_edges_relabel {i : Nat} (hi : i < g.edges.size)
    (hi' : i < (g.relabel f).edges.size) : (g.relabel f).edges[i] = g.edges[i].relabel f := by
  simp only [relabel, Array.getElem_map]

theorem payloads_relabel (f : UInt64 → UInt64) (g : Graph) :
    (g.relabel f).payloads = g.payloads := by
  unfold payloads relabel
  rw [Array.toList_map, Array.toList_map, List.map_map, List.map_map]
  rfl

theorem Carries.relabel {p : Nat} {id : UInt64} (h : g.Carries p id) :
    (g.relabel f).Carries p (f id) := by
  obtain ⟨hp, rfl⟩ := h
  have hp' : p < (g.relabel f).nodes.size := by rwa [size_nodes_relabel]
  exact ⟨hp', congrArg Node.id (getElem_nodes_relabel hp hp')⟩

theorem inMemory_relabel (f : UInt64 → UInt64) : (g.relabel f).InMemory ↔ g.InMemory := by
  rw [InMemory, InMemory, payloads_relabel]

theorem threads_relabel (f : UInt64 → UInt64) (g : Graph) (ends : List (Nat × Nat)) :
    (g.relabel f).threads ends = g.threads ends := by
  rw [threads, threads, size_nodes_relabel]

theorem nodeRecords_relabel (f : UInt64 → UInt64) (g : Graph) (ends : List (Nat × Nat))
    (start : Nat) : (g.relabel f).nodeRecords ends start =
      (g.nodeRecords ends start).map (NodeRecord.relabel f) := by
  rw [nodeRecords, nodeRecords, threads_relabel, payloads_relabel, relabel, Array.toList_map,
    List.zipWith_map_left, List.map_zipWith]
  rfl

theorem edgeRecords_relabel (f : UInt64 → UInt64) (g : Graph) (ends : List (Nat × Nat))
    (start : Nat) : (g.relabel f).edgeRecords ends start = g.edgeRecords ends start := by
  rw [edgeRecords, edgeRecords, threads_relabel, payloads_relabel, size_nodes_relabel, relabel,
    Array.toList_map, List.zipWith_map_left]
  rfl

/-- The payloads start at the same byte, since no index lies in front of them. -/
theorem payloadStart_relabel (f : UInt64 → UInt64) (g : Graph) (o : Options)
    (positions others : Positions) :
    (g.relabel f).payloadStart o others = g.payloadStart o positions := by
  rw [payloadStart, payloadStart, layout, layout, size_nodes_relabel, size_edges_relabel,
    payloads_relabel]
  rfl

namespace Writable

variable {o : Options} {positions others : Positions} {ends found : List (Nat × Nat)}
  (h : g.Writable o positions ends)
include h

/-! ### Writing it -/

theorem carries_relabel {i : Nat} (hi : i < (g.relabel f).edges.size) (hi' : i < ends.length) :
    (g.relabel f).Carries ends[i].1 (g.relabel f).edges[i].source ∧
      (g.relabel f).Carries ends[i].2 (g.relabel f).edges[i].target := by
  have hlt : i < g.edges.size := by rwa [size_edges_relabel] at hi
  obtain ⟨hsource, htarget⟩ := Graph.endpoints_eq h.positions_eq h.endpoints_eq hlt hi'
  rw [getElem_edges_relabel hlt hi]
  exact ⟨hsource.relabel, htarget.relabel⟩

/-- **The graph is written under other identifiers** if no two of them fall together, unless no
machine has room for its payloads. -/
theorem write_relabel (hf : Set.InjOn f {id | ∃ p, g.Carries p id}) :
    (∃ c, (g.relabel f).write o = .ok c) ∨
      ((g.relabel f).write o = .error .tooLarge ∧ ¬ g.InMemory) := by
  have hnodes := size_nodes_relabel f g
  have hedges := size_edges_relabel f g
  have hlength := h.resolved.1
  have hpos := isEmpty_eq_false_iff.mp h.inhabited
  rw [← inMemory_relabel f]
  refine write_or_tooLarge o (hnodes ▸ h.nodes) (hedges ▸ h.edges) (by omega)
    (fun p q hp hq heq => ?_) (by omega) fun i hi hi' => h.carries_relabel hi hi'
  -- Two nodes whose new names fall together had one name before, so they are one node.
  have hp' : p < g.nodes.size := by omega
  have hq' : q < g.nodes.size := by omega
  have hid : f g.nodes[p].id = f g.nodes[q].id := by
    rwa [getElem_nodes_relabel hp' hp, getElem_nodes_relabel hq' hq] at heq
  exact eq_of_id_eq h.positions_eq hp' hq' (hf ⟨p, hp', rfl⟩ ⟨q, hq', rfl⟩ hid)

theorem ends_relabel (hw : (g.relabel f).Writable o others found) : found = ends := by
  have hlength := h.resolved.1
  exact hw.ends_eq (by rw [size_edges_relabel, hlength]) fun i hi hi' => h.carries_relabel hi hi'

/-! ### The two files -/

section

variable (hw : (g.relabel f).Writable o others ends)
include hw

theorem nodes_relabel : (Image.ofFile ((g.relabel f).file o others ends)).nodes =
    (Image.ofFile (g.file o positions ends)).nodes.map (NodeRecord.relabel f) := by
  rw [Image.ofFile_nodes, Image.ofFile_nodes, hw.nodesOf_file, h.nodesOf_file,
    payloadStart_relabel f g o positions others, nodeRecords_relabel, List.map_toArray]

theorem edges_relabel : (Image.ofFile ((g.relabel f).file o others ends)).edges =
    (Image.ofFile (g.file o positions ends)).edges := by
  rw [Image.ofFile_edges, Image.ofFile_edges, hw.edgesOf_file, h.edgesOf_file,
    payloadStart_relabel f g o positions others, edgeRecords_relabel]

theorem weights_relabel : (Image.ofFile ((g.relabel f).file o others ends)).weights =
    (Image.ofFile (g.file o positions ends)).weights := by
  rw [hw.weights_eq, h.weights_eq, relabel, Array.map_map]
  rfl

/-- **The two files differ in the identifiers only.** -/
theorem relabeled : (Image.ofFile (g.file o positions ends)).Relabeled f
    (Image.ofFile ((g.relabel f).file o others ends)) := by
  have hr := h.renders
  have hrelabel := hw.renders
  refine h.sound_file.relabeled hw.sound_file (h.nodes_relabel hw) (h.edges_relabel hw)
    (h.weights_relabel hw) (fun p hp => ?_) fun i hi => ?_
  · rw [hr.nodeCount] at hp
    have hp' : p < (g.relabel f).nodes.size := by rwa [size_nodes_relabel]
    rw [hr.nodePayload p hp, hrelabel.nodePayload p hp', getElem_nodes_relabel hp hp']
    rfl
  · rw [hr.edgeCount] at hi
    have hi' : i < (g.relabel f).edges.size := by rwa [size_edges_relabel]
    rw [hr.edgePayload i hi, hrelabel.edgePayload i hi', getElem_edges_relabel hi hi']
    rfl

end

end Writable

/-- **Identifiers are names only.** If a graph is written and its nodes are renamed so that no two
names fall together, the graph under the other identifiers is written too, unless no machine has
room for its payloads. Both files are accepted, and they differ in the identifiers only. -/
theorem relabel_of_write {o : Options} {b : ByteArray} (hb : g.write o = .ok b)
    (hf : Set.InjOn f {id | ∃ p, g.Carries p id}) :
    ∃ image, Image.parse b = .ok image ∧
      image.nodes.map NodeRecord.id = g.nodes.map Node.id ∧
      ((∃ c, (g.relabel f).write o = .ok c) ∨
        ((g.relabel f).write o = .error .tooLarge ∧ ¬ g.InMemory)) ∧
      ∀ c, (g.relabel f).write o = .ok c →
        ∃ other, Image.parse c = .ok other ∧ image.Relabeled f other := by
  obtain ⟨positions, ends, h, rfl⟩ := write_eq_ok_iff.mp hb
  refine ⟨_, h.parse_eq, by rw [Image.ofFile_nodes, h.ids_nodesOf], h.write_relabel hf,
    fun c hc => ?_⟩
  obtain ⟨others, found, hw, rfl⟩ := write_eq_ok_iff.mp hc
  obtain rfl := h.ends_relabel hw
  exact ⟨_, hw.parse_eq, h.relabeled hw⟩

theorem relabel_of_write_sample : ∃ b image c other, sample.write Options.sample = .ok b ∧
    Image.parse b = .ok image ∧
    (sample.relabel fun id => if id = 7 then 0 else 1).write Options.sample = .ok c ∧
    Image.parse c = .ok other ∧ other.positionOf 1 = image.positionOf 3 ∧
    image.SameSearches other := by
  -- The names 7 and 3 become the positions 0 and 1, so that no index is written any more.
  have hf : Set.InjOn (fun id : UInt64 => if id = 7 then (0 : UInt64) else 1)
      {id | ∃ p, sample.Carries p id} := by
    have hid : ∀ id ∈ {id | ∃ p, sample.Carries p id}, id = 7 ∨ id = 3 := by
      rintro id ⟨p, hp, rfl⟩
      have hcases : p = 0 ∨ p = 1 := by
        have hp : p < 2 := hp
        omega
      rcases hcases with rfl | rfl
      · exact Or.inl rfl
      · exact Or.inr rfl
    intro x hx y hy hxy
    rcases hid x hx with rfl | rfl <;> rcases hid y hy with rfl | rfl <;> simp_all
  obtain ⟨b, hb⟩ := exists_write_sample
  obtain ⟨image, himage, hids, hwrite, hagree⟩ := relabel_of_write hb hf
  have hmemory : sample.InMemory := by
    unfold InMemory
    decide
  obtain ⟨c, hc⟩ := hwrite.resolve_right fun hlarge => hlarge.2 hmemory
  obtain ⟨other, hother, hrelabeled⟩ := hagree c hc
  have hposition := hrelabeled.positionOf 3 (by rw [hids]; simp [sample])
  exact ⟨b, image, c, other, hb, himage, hc, hother, hposition, hrelabeled.searches⟩

end Graph

end FlatGraph
