import FlatGraph.Proofs.Image.Alike
import FlatGraph.Proofs.Image.Sections
import FlatGraph.Proofs.Written.Capacity
import FlatGraph.Proofs.Written.RoundTrip

/-! # Accepted files are written again

An accepted file may come from elsewhere: its sections may lie in any order and may overlap, and its
identifiers may be found in an index though they are the positions. What it holds is a graph all the
same, and this graph can be written: the checks of the reader are at least as strict as those of the
writer. The file that is written holds the same graph.

* `Image.graph`: the graph in a file. `Image.Sound.exists_graph`: it is read if all payloads are.
* `Image.Reads`: the graph is made of the records of the file.
* `Image.Reads.alike`: what is written for the graph answers as the file does.
* `Image.rewrite_of_accepted`: every accepted file is written again without loss. -/

namespace FlatGraph

open Bytes

/-- The options that the flags of a file tell. -/
def Header.options (h : Header) : Options where
  offsetIndex := h.hasFlag Flag.offsetIndex
  weightedEdges := h.hasFlag Flag.weightedEdges
  compress := h.hasFlag Flag.compress
  statistics := h.hasFlag Flag.statistics

theorem exists_mapM {ε α β : Type} {f : α → Except ε β} {xs : List α}
    (h : ∀ x ∈ xs, ∃ y, f x = .ok y) :
    ∃ ys, xs.mapM f = .ok ys ∧ List.Forall₂ (fun x y => f x = .ok y) xs ys := by
  induction xs with
  | nil => exact ⟨[], rfl, .nil⟩
  | cons x rest ih =>
    obtain ⟨y, hy⟩ := h x List.mem_cons_self
    obtain ⟨ys, hys, hall⟩ := ih fun x hx => h x (List.mem_cons_of_mem _ hx)
    refine ⟨y :: ys, ?_, .cons hy hall⟩
    rw [List.mapM_cons, hy, hys]
    rfl

namespace Image

/-! ### The graph in a file -/

/-- The node at a position with all it carries. -/
def nodeAt (image : Image) (position : Nat) : Except Fault Node := do
  let record ← image.node position
  let payload ← image.nodePayload position
  return { id := record.id, kind := record.kind, flags := record.flags, payload }

/-- The edge at a position with all it carries. Its ends are named by their identifiers, and its
weight is one if the edges have no weights. -/
def edgeAt (image : Image) (position : Nat) : Except Fault Edge := do
  let record ← image.edge position
  let source ← image.idOf record.source.toNat
  let target ← image.idOf record.target.toNat
  let weight ← image.weight position
  let payload ← image.edgePayload position
  return { source, target, kind := record.kind, weight := weight.getD Binary64.one, payload }

/-- **The graph in a file**: its nodes and its edges in table order. Fails on a payload that cannot
be read. -/
def graph (image : Image) : Except Fault Graph := do
  let nodes ← (List.range image.nodes.size).mapM image.nodeAt
  let edges ← (List.range image.edges.size).mapM image.edgeAt
  return { nodes := nodes.toArray, edges := edges.toArray }

/-- **The graph is made of the records** of the file. -/
structure Reads (image : Image) (g : Graph) : Prop where
  nodeCount : g.nodes.size = image.nodes.size
  edgeCount : g.edges.size = image.edges.size
  node : ∀ p (hp : p < g.nodes.size), image.nodeAt p = .ok g.nodes[p]
  edge : ∀ i (hi : i < g.edges.size), image.edgeAt i = .ok g.edges[i]

variable {image : Image}

theorem nodeAt_eq_ok_iff {p : Nat} (hp : p < image.nodes.size) {node : Node} :
    image.nodeAt p = .ok node ↔ node.id = image.nodes[p].id ∧ node.kind = image.nodes[p].kind ∧
      node.flags = image.nodes[p].flags ∧ image.nodePayload p = .ok node.payload := by
  unfold nodeAt
  rw [node_of_lt hp]
  show (image.nodePayload p >>= fun payload => pure _) = _ ↔ _
  rw [bind_eq_ok_iff]
  constructor
  · rintro ⟨payload, hpayload, hnode⟩
    cases hnode
    exact ⟨rfl, rfl, rfl, hpayload⟩
  · obtain ⟨id, kind, flags, payload⟩ := node
    rintro ⟨rfl, rfl, rfl, hpayload⟩
    exact ⟨payload, hpayload, rfl⟩

theorem edgeAt_eq_ok_iff {i : Nat} (hi : i < image.edges.size) {edge : Edge} :
    image.edgeAt i = .ok edge ↔ image.idOf image.edges[i].source.toNat = .ok edge.source ∧
      image.idOf image.edges[i].target.toNat = .ok edge.target ∧
      edge.kind = image.edges[i].kind ∧
      (∃ weight, image.weight i = .ok weight ∧ edge.weight = weight.getD Binary64.one) ∧
      image.edgePayload i = .ok edge.payload := by
  unfold edgeAt
  rw [edge_of_lt hi]
  show (image.idOf image.edges[i].source.toNat >>= fun source => _) = _ ↔ _
  simp only [bind_eq_ok_iff]
  constructor
  · rintro ⟨source, hsource, target, htarget, weight, hweight, payload, hpayload, hedge⟩
    cases hedge
    exact ⟨hsource, htarget, rfl, ⟨weight, hweight, rfl⟩, hpayload⟩
  · obtain ⟨source, target, kind, bits, payload⟩ := edge
    rintro ⟨hsource, htarget, rfl, ⟨weight, hweight, rfl⟩, hpayload⟩
    exact ⟨source, hsource, target, htarget, weight, hweight, payload, hpayload, rfl⟩

/-- **The graph is read** if every payload is. -/
theorem Sound.exists_graph (hs : image.Sound)
    (hnodes : ∀ p < image.nodes.size, ∃ payload, image.nodePayload p = .ok payload)
    (hedges : ∀ i < image.edges.size, ∃ payload, image.edgePayload i = .ok payload) :
    ∃ g, image.graph = .ok g ∧ image.Reads g := by
  have hnodeAt : ∀ p ∈ List.range image.nodes.size, ∃ node, image.nodeAt p = .ok node := by
    intro p hp
    have hp := List.mem_range.mp hp
    obtain ⟨payload, hpayload⟩ := hnodes p hp
    exact ⟨⟨_, _, _, payload⟩, (nodeAt_eq_ok_iff hp).mpr ⟨rfl, rfl, rfl, hpayload⟩⟩
  have hedgeAt : ∀ i ∈ List.range image.edges.size, ∃ edge, image.edgeAt i = .ok edge := by
    intro i hi
    have hi := List.mem_range.mp hi
    obtain ⟨payload, hpayload⟩ := hedges i hi
    obtain ⟨hsource, htarget⟩ := hs.ends i hi
    exact ⟨⟨_, _, _, _, payload⟩, (edgeAt_eq_ok_iff hi).mpr
      ⟨idOf_eq_ok_iff.mpr ⟨hsource, rfl⟩, idOf_eq_ok_iff.mpr ⟨htarget, rfl⟩, rfl,
        ⟨_, weight_of_edge (edge_of_lt hi), rfl⟩, hpayload⟩⟩
  obtain ⟨nodes, hn, hnodes⟩ := exists_mapM hnodeAt
  obtain ⟨edges, he, hedges⟩ := exists_mapM hedgeAt
  obtain ⟨hncount, hnode⟩ := List.forall₂_iff_get.mp hnodes
  obtain ⟨hecount, hedge⟩ := List.forall₂_iff_get.mp hedges
  rw [List.length_range] at hncount hecount
  refine ⟨⟨nodes.toArray, edges.toArray⟩, ?_, hncount.symm, hecount.symm, fun p hp => ?_,
    fun i hi => ?_⟩
  · unfold graph
    rw [hn, he]
    rfl
  · have hat := hnode p (by rwa [List.length_range, hncount]) hp
    rwa [List.get_eq_getElem, List.getElem_range] at hat
  · have hat := hedge i (by rwa [List.length_range, hecount]) hi
    rwa [List.get_eq_getElem, List.getElem_range] at hat

theorem Reads.exists_payloads {g : Graph} (hr : image.Reads g) :
    (∀ p < image.nodes.size, ∃ payload, image.nodePayload p = .ok payload) ∧
      ∀ i < image.edges.size, ∃ payload, image.edgePayload i = .ok payload := by
  refine ⟨fun p hp => ?_, fun i hi => ?_⟩
  · have hnode := hr.node p (hr.nodeCount ▸ hp)
    exact ⟨_, ((nodeAt_eq_ok_iff hp).mp hnode).2.2.2⟩
  · have hedge := hr.edge i (hr.edgeCount ▸ hi)
    exact ⟨_, ((edgeAt_eq_ok_iff hi).mp hedge).2.2.2.2⟩

theorem Reads.unique {g k : Graph} (hg : image.Reads g) (hk : image.Reads k) : g = k := by
  have hncount := hg.nodeCount.trans hk.nodeCount.symm
  have hecount := hg.edgeCount.trans hk.edgeCount.symm
  have hnodes : g.nodes = k.nodes := Array.ext hncount fun p hp hp' =>
    Except.ok.inj ((hg.node p hp).symm.trans (hk.node p hp'))
  have hedges : g.edges = k.edges := Array.ext hecount fun i hi hi' =>
    Except.ok.inj ((hg.edge i hi).symm.trans (hk.edge i hi'))
  cases g
  cases k
  cases hnodes
  cases hedges
  rfl

/-- **What a file answers is what is read from it**: a graph that is written with its weights is
made of the records of the file. -/
theorem Renders.reads {g : Graph} {o : Options} (h : image.Renders g o)
    (hw : o.weightedEdges = true) : image.Reads g := by
  refine ⟨h.nodeCount.symm, h.edgeCount.symm, fun p hp => ?_, fun i hi => ?_⟩
  · have hp' : p < image.nodes.size := by rwa [h.nodeCount]
    obtain ⟨r, hnode, hid, hkind, hflags⟩ := h.node p hp
    rw [node_of_lt hp', Except.ok.injEq] at hnode
    subst hnode
    exact (nodeAt_eq_ok_iff hp').mpr ⟨hid.symm, hkind.symm, hflags.symm, h.nodePayload p hp⟩
  · have hi' : i < image.edges.size := by rwa [h.edgeCount]
    obtain ⟨r, hedge, hsource, htarget, hkind⟩ := h.edge i hi
    rw [edge_of_lt hi', Except.ok.injEq] at hedge
    subst hedge
    have hweight := h.weight i hi
    rw [if_pos hw] at hweight
    exact (edgeAt_eq_ok_iff hi').mpr
      ⟨hsource, htarget, hkind.symm, ⟨_, hweight, rfl⟩, h.edgePayload i hi⟩

/-! ### Writing it -/

namespace Reads

variable {g : Graph} (hr : image.Reads g)
include hr

theorem id_eq {p : Nat} (hp : p < g.nodes.size) (hp' : p < image.nodes.size) :
    g.nodes[p].id = image.nodes[p].id := ((nodeAt_eq_ok_iff hp').mp (hr.node p hp)).1

theorem content : image.Content g where
  nodeCount := hr.nodeCount.symm
  edgeCount := hr.edgeCount.symm
  node p hp hp' := by
    obtain ⟨hid, hkind, hflags, -⟩ := (nodeAt_eq_ok_iff hp).mp (hr.node p hp')
    exact ⟨hid.symm, hkind.symm, hflags.symm⟩
  nodePayload p hp :=
    ((nodeAt_eq_ok_iff (hr.nodeCount ▸ hp)).mp (hr.node p hp)).2.2.2
  edge i hi hi' := by
    obtain ⟨hsource, htarget, hkind, -⟩ := (edgeAt_eq_ok_iff hi).mp (hr.edge i hi')
    exact ⟨hsource, htarget, hkind.symm⟩
  edgePayload i hi :=
    ((edgeAt_eq_ok_iff (hr.edgeCount ▸ hi)).mp (hr.edge i hi)).2.2.2.2

theorem carries_of_idOf {p : Nat} {id : UInt64} (h : image.idOf p = .ok id) : g.Carries p id := by
  obtain ⟨hp, rfl⟩ := idOf_eq_ok_iff.mp h
  have hp' : p < g.nodes.size := by
    have := hr.nodeCount
    omega
  exact ⟨hp', hr.id_eq hp' hp⟩

theorem length_ends : image.ends.length = g.edges.size := by
  rw [Image.length_ends, hr.edgeCount]

theorem carries_ends {i : Nat} (hi : i < g.edges.size) (hi' : i < image.ends.length) :
    g.Carries image.ends[i].1 g.edges[i].source ∧ g.Carries image.ends[i].2 g.edges[i].target := by
  have hlt : i < image.edges.size := by rwa [Image.length_ends] at hi'
  obtain ⟨hsource, htarget, -⟩ := (edgeAt_eq_ok_iff hlt).mp (hr.edge i hi)
  have hat := ends_getElem hlt
  rw [List.getElem?_eq_getElem hi', Option.some.injEq] at hat
  rw [hat]
  exact ⟨hr.carries_of_idOf hsource, hr.carries_of_idOf htarget⟩

/-- **The graph of an accepted file is written**, unless no machine has room for its payloads. -/
theorem write_or_tooLarge (hs : image.Sound) (o : Options) (hpos : 0 < image.nodes.size)
    (hnodes : image.nodes.size ≤ maxElements) (hedges : image.edges.size ≤ maxElements) :
    (∃ c, g.write o = .ok c) ∨ (g.write o = .error .tooLarge ∧ ¬ g.InMemory) := by
  have hn := hr.nodeCount
  have he := hr.edgeCount
  refine Graph.write_or_tooLarge o (by omega) (by omega) (by omega) (fun p q hp hq heq => ?_)
    hr.length_ends fun i hi hi' => hr.carries_ends hi hi'
  -- The reader never compares identifiers with each other: that they are distinct follows from
  -- every node being found by its own.
  rw [hr.id_eq hp (by omega), hr.id_eq hq (by omega)] at heq
  exact hs.eq_of_id_eq (by omega) (by omega) heq

section Written

variable {o : Options} {positions : Positions} {ends : List (Nat × Nat)}
  (h : g.Writable o positions ends)
include h

/-- **The file that is written holds the same graph** as the file that was read. -/
theorem alike (hs : image.Sound) : image.Alike (ofFile (g.file o positions ends)) :=
  hr.content.alike h.renders.content hs h.sound_file

end Written

/-- **The weights are written again** under the options that the flags of the file tell. -/
theorem weight_eq {b : ByteArray} (hb : parse b = .ok image) {positions : Positions}
    {ends : List (Nat × Nat)} (h : g.Writable image.header.options positions ends) (i : Nat) :
    image.weight i = (ofFile (g.file image.header.options positions ends)).weight i := by
  have he := hr.edgeCount
  have hsize := h.renders.edgeCount
  rcases Nat.lt_or_ge i image.edges.size with hi | hi
  · rw [h.renders.weight i (by omega)]
    obtain ⟨weight, hweight, hflag⟩ := (full_of_parse hb).weight i hi
    obtain ⟨-, -, -, ⟨weight', hweight', hbits⟩, -⟩ :=
      (edgeAt_eq_ok_iff hi).mp (hr.edge i (by omega))
    obtain rfl := Except.ok.inj (hweight.symm.trans hweight')
    have hoption : image.header.options.weightedEdges = weight.isSome := hflag.symm
    rw [hweight, hoption, hbits]
    cases weight <;> rfl
  · rw [weight_of_ge hi, weight_of_ge (by omega), hsize, he]

end Reads

/-- **Accepted files are written again without loss.** If an accepted file has a node and all its
payloads can be read, the graph in it is read. Under the options that the flags of the file tell,
this graph is written, unless no machine has room for its payloads, which may overlap in the file
but not in the graph. What is written is accepted and holds the same graph with the same weights. -/
theorem rewrite_of_accepted {b : ByteArray} (hb : parse b = .ok image)
    (hpos : 0 < image.nodes.size)
    (hnodes : ∀ p < image.nodes.size, ∃ payload, image.nodePayload p = .ok payload)
    (hedges : ∀ i < image.edges.size, ∃ payload, image.edgePayload i = .ok payload) :
    ∃ g, image.graph = .ok g ∧ image.Reads g ∧
      ((∃ c, g.write image.header.options = .ok c) ∨
        (g.write image.header.options = .error .tooLarge ∧ ¬ g.InMemory)) ∧
      ∀ c, g.write image.header.options = .ok c → ∃ other, parse c = .ok other ∧
        image.Alike other ∧ ∀ i, image.weight i = other.weight i := by
  have hs := Sound.of_parse hb
  obtain ⟨g, hg, hr⟩ := hs.exists_graph hnodes hedges
  obtain ⟨hncount, hecount⟩ := size_le_of_parse hb
  refine ⟨g, hg, hr, ?_, fun c hc => ?_⟩
  · exact hr.write_or_tooLarge hs image.header.options hpos hncount hecount
  · obtain ⟨positions, ends, hw, rfl⟩ := Graph.write_eq_ok_iff.mp hc
    exact ⟨_, hw.parse_eq, hr.alike hw hs, hr.weight_eq hb hw⟩

theorem rewrite_of_accepted_sample : ∃ b image, parse b = .ok image ∧
    image.graph = .ok Graph.sample ∧ ∃ c, Graph.sample.write image.header.options = .ok c ∧
      ∃ other, parse c = .ok other ∧ image.Alike other := by
  have hw := Graph.writable_sample
  have hsample := hw.renders.reads rfl
  obtain ⟨hnodes, hedges⟩ := hsample.exists_payloads
  obtain ⟨g, hg, hreads, hwrite, hagree⟩ :=
    rewrite_of_accepted hw.parse_eq (by rw [← hsample.nodeCount]; decide) hnodes hedges
  obtain rfl := hreads.unique hsample
  have hmemory : Graph.sample.InMemory := by
    unfold Graph.InMemory
    decide
  obtain ⟨c, hc⟩ := hwrite.resolve_right fun hlarge => hlarge.2 hmemory
  obtain ⟨other, hother, halike, -⟩ := hagree c hc
  exact ⟨_, _, hw.parse_eq, hg, c, hc, other, hother, halike⟩

end Image

end FlatGraph
