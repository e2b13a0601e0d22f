import FlatGraph.Proofs.Image.Alike
import FlatGraph.Proofs.Written.Accepted

/-! # A written graph is read back

A file that is written for a graph is accepted, and the graph is answered from it: its nodes and its
edges in order, with all they carry.

* `Image.Renders`: a file answers what a graph holds.
* `Graph.parse_of_write`: every file that is written does. -/

namespace FlatGraph

open Bytes

/-- **The file answers what the graph holds**, with what the options ask for besides. -/
structure Image.Renders (image : Image) (g : Graph) (o : Options) : Prop where
  nodeCount : image.nodes.size = g.nodes.size
  edgeCount : image.edges.size = g.edges.size
  node : ∀ p (hp : p < g.nodes.size), ∃ r, image.node p = .ok r ∧ r.id = g.nodes[p].id ∧
    r.kind = g.nodes[p].kind ∧ r.flags = g.nodes[p].flags
  nodePayload : ∀ p (hp : p < g.nodes.size), image.nodePayload p = .ok g.nodes[p].payload
  edge : ∀ i (hi : i < g.edges.size), ∃ r, image.edge i = .ok r ∧
    image.idOf r.source.toNat = .ok g.edges[i].source ∧
    image.idOf r.target.toNat = .ok g.edges[i].target ∧ r.kind = g.edges[i].kind
  edgePayload : ∀ i (hi : i < g.edges.size), image.edgePayload i = .ok g.edges[i].payload
  weight : ∀ i (hi : i < g.edges.size),
    image.weight i = .ok (if o.weightedEdges then some g.edges[i].weight else none)
  positionOf : ∀ p (hp : p < g.nodes.size), image.positionOf g.nodes[p].id = .ok p
  neighbors : ∀ p (hp : p < g.nodes.size), image.neighbors g.nodes[p].id =
    .ok ((g.edges.toList.filter fun e => e.source = g.nodes[p].id).map (·.target))
  flags : ∃ sparse : Bool, image.header.flags = o.flags ||| flagIf sparse Flag.sparseIds ∧
    (sparse = true ↔ ∃ p, ∃ hp : p < g.nodes.size, g.nodes[p].id.toNat ≠ p)
  statistics : image.statistics.isSome = o.statistics

theorem Image.Renders.content {image : Image} {g : Graph} {o : Options} (h : image.Renders g o) :
    image.Content g where
  nodeCount := h.nodeCount
  edgeCount := h.edgeCount
  node p hp hp' := by
    obtain ⟨r, hnode, hfields⟩ := h.node p hp'
    rw [node_of_lt hp, Except.ok.injEq] at hnode
    rwa [hnode]
  nodePayload := h.nodePayload
  edge i hi hi' := by
    obtain ⟨r, hedge, hfields⟩ := h.edge i hi'
    rw [edge_of_lt hi, Except.ok.injEq] at hedge
    rwa [hedge]
  edgePayload := h.edgePayload

namespace Graph.Writable

variable {g : Graph} {o : Options} {positions : Positions} {ends : List (Nat × Nat)}
  (h : g.Writable o positions ends)
include h

theorem node_file {p : Nat} (hp : p < g.nodes.size) : ∃ head offset,
    (payloadOffsets (g.payloadStart o positions) g.payloads)[p]? = some offset ∧
      (Image.ofFile (g.file o positions ends)).nodes[p]? =
        some (g.nodes[p].record head offset) := by
  obtain ⟨head, offset, -, hoffset, hrecord⟩ :=
    nodeRecord_eq ends (g.payloadStart o positions) hp
  refine ⟨head, offset, hoffset, ?_⟩
  rw [Image.ofFile_nodes, h.nodesOf_file, List.getElem?_toArray, hrecord]

theorem edge_file {i : Nat} (hi : i < g.edges.size) (hi' : i < ends.length) : ∃ link offset,
    (payloadOffsets (g.payloadStart o positions) g.payloads)[g.nodes.size + i]? = some offset ∧
      (Image.ofFile (g.file o positions ends)).edges[i]? =
        some (g.edges[i].record ends[i] link offset) := by
  obtain ⟨link, offset, -, hoffset, hrecord⟩ :=
    edgeRecord_eq (g.payloadStart o positions) hi hi'
  refine ⟨link, offset, hoffset, ?_⟩
  rw [Image.ofFile_edges, h.edgesOf_file, List.getElem?_toArray, hrecord]

/-! ### Payloads -/

theorem payloads_file :
    (Image.ofFile (g.file o positions ends)).sections.payloads.start =
        g.payloadStart o positions ∧
      (Image.ofFile (g.file o positions ends)).sections.payloads.stop =
        g.payloadStart o positions + payloadsSize g.payloads := by
  obtain ⟨hstart, hlength⟩ := h.payload_file
  have hsection : (Image.ofFile (g.file o positions ends)).sections.payloads =
      ⟨(metadataOf (g.file o positions ends)).payload.toNat,
        (metadataOf (g.file o positions ends)).payloadLength.toNat * 1⟩ := rfl
  rw [hsection, hstart, hlength, Nat.mul_one]
  exact ⟨rfl, rfl⟩

theorem payloadAt?_file {k : Nat} {payload : Option ByteArray} {offset : Option Nat}
    (hk : g.payloads[k]? = some payload)
    (ho : (payloadOffsets (g.payloadStart o positions) g.payloads)[k]? = some offset) :
    (Image.ofFile (g.file o positions ends)).payloadAt? (payload? (rawPayload offset)) =
      .ok payload := by
  obtain ⟨hlt, rfl⟩ := List.getElem?_eq_some_iff.mp hk
  obtain ⟨offset', hoffset, hstores⟩ := stores_payloadOffsets h.placed.payloads hlt
  obtain rfl := Option.some.inj (hoffset.symm.trans ho)
  have hstop := (roomy_layout g o positions.isDense).payload.2
  have htotal := h.total
  have hbound : g.payloadStart o positions + payloadsSize g.payloads < sizeBound := by
    rw [payloadStart]
    omega
  have hbytes : (Image.ofFile (g.file o positions ends)).bytes = g.file o positions ends := rfl
  rw [← hbytes] at hstores
  exact Stores.payloadAt?_eq _ hstores h.payloads_file.1 h.payloads_file.2 hbound

/-! ### Nodes and edges -/

theorem sound_file : (Image.ofFile (g.file o positions ends)).Sound :=
  Image.Sound.of_parse h.parse_eq

theorem idOf_eq {p : Nat} (hp : p < g.nodes.size) :
    (Image.ofFile (g.file o positions ends)).idOf p = .ok g.nodes[p].id := by
  obtain ⟨head, offset, -, hrecord⟩ := h.node_file hp
  exact Image.idOf_of_node (Image.node_of_getElem? hrecord)

theorem nodePayload_eq {p : Nat} (hp : p < g.nodes.size) :
    (Image.ofFile (g.file o positions ends)).nodePayload p = .ok g.nodes[p].payload := by
  obtain ⟨head, offset, hoffset, hrecord⟩ := h.node_file hp
  have hpayload : (g.nodes[p].record head offset).payload = rawPayload offset := rfl
  rw [Image.nodePayload_of_node (Image.node_of_getElem? hrecord),
    h.sound_file.nodeOffset?_eq hrecord, hpayload]
  exact h.payloadAt?_file (payloads_getElem?_node hp) hoffset

theorem edgePayload_eq {i : Nat} (hi : i < g.edges.size) :
    (Image.ofFile (g.file o positions ends)).edgePayload i = .ok g.edges[i].payload := by
  obtain ⟨link, offset, hoffset, hrecord⟩ := h.edge_file hi (h.resolved.1 ▸ hi)
  have hpayload : ∀ e, (g.edges[i].record e link offset).payload = rawPayload offset :=
    fun _ => rfl
  rw [Image.edgePayload_of_edge (Image.edge_of_getElem? hrecord), hpayload]
  exact h.payloadAt?_file (payloads_getElem?_edge hi) hoffset

theorem carries_ends {i : Nat} {r : EdgeRecord} (hi : i < g.edges.size)
    (hr : (Image.ofFile (g.file o positions ends)).edges[i]? = some r) :
    g.Carries r.source.toNat g.edges[i].source ∧ g.Carries r.target.toNat g.edges[i].target := by
  have hi' : i < ends.length := h.resolved.1 ▸ hi
  obtain ⟨link, offset, -, hrecord⟩ := h.edge_file hi hi'
  obtain ⟨hsource, htarget⟩ := h.resolved.2 _ (List.getElem_mem hi')
  rw [hrecord, Option.some.injEq] at hr
  have hs : r.source.toNat = ends[i].1 := by
    rw [← hr]
    exact toNat_ofNat_of_lt hsource h.nodes
  have ht : r.target.toNat = ends[i].2 := by
    rw [← hr]
    exact toNat_ofNat_of_lt htarget h.nodes
  rw [hs, ht]
  exact Graph.endpoints_eq h.positions_eq h.endpoints_eq hi hi'

theorem idOf_of_carries {p : Nat} {id : UInt64} (hc : g.Carries p id) :
    (Image.ofFile (g.file o positions ends)).idOf p = .ok id := by
  obtain ⟨hp, rfl⟩ := hc
  exact h.idOf_eq hp

/-! ### Weights and statistics -/

theorem weights_eq : (Image.ofFile (g.file o positions ends)).weights =
    if o.weightedEdges then some (g.edges.map (·.weight)) else none := by
  have hholds := h.placed.weights
  have hfits := (roomy_layout g o positions.isDense).weights
  rw [Image.ofFile_weights, h.weights_file, h.edgeCount]
  cases hw : o.weightedEdges with
  | false =>
    rw [hw] at hfits
    rw [Option.isNone_iff_eq_none.mp (Option.isSome_eq_false_iff.mp hfits.isSome)]
    rfl
  | true =>
    have hcolumn : (g.contents o positions.isDense ends).weights =
        some (g.edges.toList.map (·.weight)) := if_pos hw
    rw [hcolumn] at hholds
    obtain ⟨hne, hread⟩ := h.readAt_holds hholds hfits
    rw [List.length_map, Array.length_toList] at hread
    rw [if_neg hne, hread, ← Array.toList_map, Array.toArray_toList]
    rfl

theorem isSome_statistics :
    (Image.ofFile (g.file o positions ends)).statistics.isSome = o.statistics := by
  obtain ⟨-, -, -, hstatistics, -⟩ := hasFlag_file g o positions ends
  rw [Bool.eq_iff_iff, Image.isSome_statistics_ofFile, ← h.sectionsFit.statistics.1, hstatistics]

theorem id_file {p : Nat} (hp : p < g.nodes.size) :
    (Image.ofFile (g.file o positions ends)).nodes[p]?.map (·.id) = some g.nodes[p].id := by
  obtain ⟨head, offset, -, hrecord⟩ := h.node_file hp
  rw [hrecord]
  rfl

end Graph.Writable

/-! ### Neighbors -/

/-- Two rows whose entries at equal places are chosen together and answer the same. -/
theorem map_filter_eq {α β γ : Type} {xs : List α} {ys : List β} {p : α → Bool} {q : β → Bool}
    {f : α → γ} {k : β → γ}
    (hxy : List.Forall₂ (fun x y => p x = q y ∧ f x = k y) xs ys) :
    (xs.filter p).map f = (ys.filter q).map k := by
  induction hxy with
  | nil => rfl
  | @cons x y xs ys hxy _ ih =>
    rw [List.filter_cons, List.filter_cons, hxy.1]
    split_ifs
    · rw [List.map_cons, List.map_cons, hxy.2, ih]
    · exact ih

/-- **The neighbors in a sound file** whose records carry the identifiers of a graph are those of
the graph. -/
theorem Image.Sound.neighbors_of_carries {image : Image} (hs : image.Sound) {g : Graph}
    {positions : Positions} (hg : g.positions = .ok positions)
    (hnodes : ∀ p (hp : p < g.nodes.size), image.nodes[p]?.map (·.id) = some g.nodes[p].id)
    (hsize : image.edges.size = g.edges.size)
    (hedges : ∀ i (hi : i < g.edges.size) r, image.edges[i]? = some r →
      g.Carries r.source.toNat g.edges[i].source ∧ g.Carries r.target.toNat g.edges[i].target)
    {p : Nat} (hp : p < g.nodes.size) : image.neighbors g.nodes[p].id =
      .ok ((g.edges.toList.filter fun e => e.source = g.nodes[p].id).map (·.target)) := by
  obtain ⟨r, hr, hid⟩ := Option.map_eq_some_iff.mp (hnodes p hp)
  obtain ⟨hp', rfl⟩ := Array.getElem?_eq_some_iff.mp hr
  rw [← hid, hs.neighbors_eq hp', Except.ok.injEq]
  refine List.map_injective_iff.mpr (Option.some_injective _) ?_
  rw [map_targetIds fun e he => hs.target_lt he, edgesFrom, List.map_map]
  refine map_filter_eq (List.forall₂_iff_get.mpr ⟨by simpa using hsize, fun i hi hi' => ?_⟩)
  rw [List.get_eq_getElem, List.get_eq_getElem, Array.getElem_toList, Array.getElem_toList]
  obtain ⟨⟨hsource, hsourceId⟩, ⟨htarget, htargetId⟩⟩ :=
    hedges i hi' image.edges[i] (Array.getElem?_eq_getElem hi)
  rw [hid]
  refine ⟨decide_eq_decide.mpr ⟨fun heq => ?_, fun heq => ?_⟩, ?_⟩
  · subst heq
    exact hsourceId.symm
  · exact Graph.eq_of_id_eq hg hsource hp (hsourceId.trans heq)
  · rw [hnodes _ htarget, htargetId]
    rfl

/-! ### Whole graphs -/

/-- **A file that is written for a graph** answers what the graph holds. -/
theorem Graph.Writable.renders {g : Graph} {o : Options} {positions : Positions}
    {ends : List (Nat × Nat)} (h : g.Writable o positions ends) :
    (Image.ofFile (g.file o positions ends)).Renders g o where
  nodeCount := by
    rw [Image.ofFile_nodes]
    exact h.size_nodes
  edgeCount := by
    rw [Image.ofFile_edges]
    exact h.size_edges
  node p hp := by
    obtain ⟨head, offset, -, hrecord⟩ := h.node_file hp
    exact ⟨_, Image.node_of_getElem? hrecord, rfl, rfl, rfl⟩
  nodePayload p hp := h.nodePayload_eq hp
  edge i hi := by
    obtain ⟨link, offset, -, hrecord⟩ := h.edge_file hi (h.resolved.1 ▸ hi)
    obtain ⟨hsource, htarget⟩ := h.carries_ends hi hrecord
    exact ⟨_, Image.edge_of_getElem? hrecord, h.idOf_of_carries hsource,
      h.idOf_of_carries htarget, rfl⟩
  edgePayload i hi := h.edgePayload_eq hi
  weight i hi := by
    obtain ⟨link, offset, -, hrecord⟩ := h.edge_file hi (h.resolved.1 ▸ hi)
    rw [Image.weight_of_edge (Image.edge_of_getElem? hrecord), h.weights_eq]
    split_ifs
    · rw [Option.bind_some, Array.getElem?_map, Array.getElem?_eq_getElem hi]
      rfl
    · rfl
  positionOf p hp := by
    obtain ⟨r, hr, hid⟩ := Option.map_eq_some_iff.mp (h.id_file hp)
    obtain ⟨hp', hget⟩ := Array.getElem?_eq_some_iff.mp hr
    have hposition := h.sound_file.ids.positionOf_id hp'
    rw [hget, hid] at hposition
    rw [Image.positionOf, hposition]
  neighbors p hp := by
    refine h.sound_file.neighbors_of_carries h.positions_eq (fun _ hp => h.id_file hp) ?_
      (fun _ hi _ hr => h.carries_ends hi hr) hp
    rw [Image.ofFile_edges]
    exact h.size_edges
  flags := by
    refine ⟨!positions.isDense, ?_, ?_⟩
    · rw [Image.ofFile_header]
      exact flags_file
    rw [isDense_positions h.positions_eq, Bool.not_eq_true', ← Bool.not_eq_true, isDense_iff]
    simp only [not_forall]
  statistics := h.isSome_statistics

/-- **Round trip**: the file that is written for a graph is accepted, and it answers what the graph
holds. -/
theorem Graph.parse_of_write {g : Graph} {o : Options} {b : ByteArray} (h : g.write o = .ok b) :
    ∃ image, Image.parse b = .ok image ∧ image.Renders g o := by
  obtain ⟨positions, ends, hw, rfl⟩ := write_eq_ok_iff.mp h
  exact ⟨_, hw.parse_eq, hw.renders⟩

theorem Graph.parse_of_write_sample : ∃ b, Graph.sample.write Options.sample = .ok b ∧
    ∃ image, Image.parse b = .ok image ∧ image.Renders Graph.sample Options.sample := by
  obtain ⟨b, hb⟩ := Graph.exists_write_sample
  exact ⟨b, hb, Graph.parse_of_write hb⟩

end FlatGraph
