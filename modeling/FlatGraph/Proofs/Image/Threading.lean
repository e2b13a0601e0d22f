import Mathlib.Data.List.Sort
import Mathlib.Order.Bounds.Basic
import FlatGraph.Image.Chain

/-! # The one way to thread the edges

A row of nodes and a row of edges are *threaded* if every node names the least edge that leaves it,
and every edge names the least later edge that leaves the same node. There is exactly one such
threading of given sources, and the walks along it part the edge table.

* `chain_eq_leaving`: in threaded tables the walk of a node is the list of the edges that leave it.
* `Checked`: what a reader checks along the links alone: links lead forwards, each walk stays with
  one source, and all walks together are as long as the table.
* `Checked.threaded`, `Threaded.checked`: these local checks hold exactly in threaded tables. That
  no edge is missed follows by counting (`Checked.exists_walk`): the walks are disjoint, and as long
  together as the table. -/

namespace FlatGraph

/-- The position that the edge at index `i` leaves, if there is such an edge. -/
def sourceAt (edges : Array EdgeRecord) (i : Nat) : Option Nat :=
  edges[i]?.map fun e => e.source.toNat

/-- The numbers from `start` on of the edges that leave a position, in table order. -/
def leaving (edges : Array EdgeRecord) (position start : Nat) : List Nat :=
  (List.range' start (edges.size - start)).filter fun i => sourceAt edges i = some position

/-- The link names the least of some edges, and is absent if there are none. -/
def NamesLeast (among : Set Nat) (link : UInt32) : Prop :=
  (link = noEdge ∧ among = ∅) ∨ (link ≠ noEdge ∧ IsLeast among link.toNat)

/-- **The links of the tables are those of the one threading** of the edges by their sources. -/
structure Threaded (nodes : Array NodeRecord) (edges : Array EdgeRecord) : Prop where
  first : ∀ p (hp : p < nodes.size), NamesLeast {j | sourceAt edges j = some p} nodes[p].first
  next : ∀ i (hi : i < edges.size),
    NamesLeast {j | i < j ∧ sourceAt edges j = sourceAt edges i} edges[i].next

/-- What can be checked along the links: they lead forwards and into the table, a walk stays with
the edges of its node, and the walks are together as long as the table. -/
structure Checked (nodes : Array NodeRecord) (edges : Array EdgeRecord) : Prop where
  link : ∀ i (hi : i < edges.size),
    edges[i].next = noEdge ∨ (i < edges[i].next.toNat ∧ edges[i].next.toNat < edges.size)
  head : ∀ p (hp : p < nodes.size),
    nodes[p].first = noEdge ∨ nodes[p].first.toNat < edges.size
  walk : ∀ p (hp : p < nodes.size), ∀ i ∈ chain edges nodes[p].first.toNat,
    sourceAt edges i = some p
  cover : chainedEdges nodes edges = edges.size

variable {nodes : Array NodeRecord} {edges : Array EdgeRecord}

/-! ### Edges that leave a position -/

theorem sourceAt_eq_some_iff {i p : Nat} :
    sourceAt edges i = some p ↔ ∃ hi : i < edges.size, edges[i].source.toNat = p := by
  unfold sourceAt
  rw [Option.map_eq_some_iff]
  constructor
  · rintro ⟨e, he, rfl⟩
    obtain ⟨hi, rfl⟩ := Array.getElem?_eq_some_iff.mp he
    exact ⟨hi, rfl⟩
  · rintro ⟨hi, rfl⟩
    exact ⟨edges[i], Array.getElem?_eq_getElem hi, rfl⟩

theorem lt_of_sourceAt {i p : Nat} (h : sourceAt edges i = some p) : i < edges.size :=
  (sourceAt_eq_some_iff.mp h).1

theorem sourceAt_getElem {i : Nat} (hi : i < edges.size) :
    sourceAt edges i = some edges[i].source.toNat := sourceAt_eq_some_iff.mpr ⟨hi, rfl⟩

theorem mem_leaving {p start i : Nat} :
    i ∈ leaving edges p start ↔ start ≤ i ∧ sourceAt edges i = some p := by
  simp only [leaving, List.mem_filter, List.mem_range'_1, decide_eq_true_eq]
  constructor
  · rintro ⟨⟨h, -⟩, hs⟩
    exact ⟨h, hs⟩
  · rintro ⟨h, hs⟩
    have := lt_of_sourceAt hs
    exact ⟨⟨h, by omega⟩, hs⟩

theorem pairwise_leaving (edges : Array EdgeRecord) (p start : Nat) :
    (leaving edges p start).Pairwise (· < ·) := by
  unfold leaving
  apply List.Pairwise.filter
  exact List.pairwise_lt_range'

theorem leaving_zero (edges : Array EdgeRecord) (p : Nat) :
    leaving edges p 0 = (List.range edges.size).filter fun i => sourceAt edges i = some p := by
  rw [leaving, Nat.sub_zero, List.range_eq_range']

/-! ### Walks -/

theorem chain_noEdge (edges : Array EdgeRecord) : chain edges noEdge.toNat = [] := by
  unfold chain; rw [if_pos rfl]

theorem chain_of_lt {c : Nat} (hc : c ≠ noEdge.toNat) (h : c < edges.size) :
    chain edges c =
      c :: (if c < edges[c].next.toNat then chain edges edges[c].next.toNat else []) := by
  rw [chain, if_neg hc, dif_pos h]

theorem chain_of_link {c : Nat} (hc : c ≠ noEdge.toNat) (h : c < edges.size)
    (hl : edges[c].next = noEdge ∨
      (c < edges[c].next.toNat ∧ edges[c].next.toNat < edges.size)) :
    chain edges c = c :: chain edges edges[c].next.toNat := by
  rw [chain_of_lt hc h]
  rcases hl with hl | hl
  · rw [hl, chain_noEdge, ite_self]
  · rw [if_pos hl.1]

theorem ne_noEdge_of_mem_chain {c i : Nat} (h : i ∈ chain edges c) : i ≠ noEdge.toNat := by
  fun_induction chain edges c with
  | case1 => simp at h
  | case2 c hn _ next ih =>
    rw [List.mem_cons] at h
    rcases h with rfl | h
    · exact hn
    · split at h
      · next hlt => exact ih hlt h
      · simp at h
  | case3 => simp at h

theorem mem_chain_of_mem {c i j : Nat} (hi : i ∈ chain edges c) :
    j ∈ chain edges i ↔ j ∈ chain edges c ∧ i ≤ j := by
  fun_induction chain edges c with
  | case1 => simp at hi
  | case2 c hn hc next ih =>
    rw [List.mem_cons] at hi
    rcases hi with rfl | hi
    · rw [chain_of_lt hn hc]
      refine ⟨fun hj => ⟨hj, ?_⟩, fun h => h.1⟩
      rw [← chain_of_lt hn hc] at hj
      exact chain_ge hj
    · split at hi
      · next hlt =>
        have hci := chain_ge hi
        rw [ih hlt hi, if_pos hlt, List.mem_cons]
        constructor
        · rintro ⟨h, hij⟩
          exact ⟨Or.inr h, hij⟩
        · rintro ⟨rfl | h, hij⟩
          · omega
          · exact ⟨h, hij⟩
      · simp at hi
  | case3 => simp at hi

theorem namesLeast_of_mem_chain {link : UInt32} {among : Set Nat}
    (hl : link = noEdge ∨ link.toNat < edges.size)
    (hmem : ∀ j, j ∈ chain edges link.toNat ↔ j ∈ among) : NamesLeast among link := by
  by_cases hn : link = noEdge
  · left
    refine ⟨hn, Set.eq_empty_iff_forall_notMem.mpr fun j hj => ?_⟩
    rw [← hmem, hn, chain_noEdge] at hj
    simp at hj
  · right
    have hlt := hl.resolve_left hn
    have hne : link.toNat ≠ noEdge.toNat := fun h => hn (UInt32.toNat_inj.mp h)
    refine ⟨hn, ?_, fun j hj => ?_⟩
    · rw [← hmem, chain_of_lt hne hlt]
      exact List.mem_cons_self
    · exact chain_ge ((hmem j).mpr hj)

/-- **The walk along canonical links** is the list of the edges that leave the position: here from
any link that names the least of them from `start` on. -/
theorem chain_eq_leaving_from (ht : Threaded nodes edges) {p start : Nat} {link : UInt32}
    (hl : NamesLeast {j | start ≤ j ∧ sourceAt edges j = some p} link) :
    chain edges link.toNat = leaving edges p start := by
  rcases hl with ⟨rfl, he⟩ | ⟨hn, ⟨hstart, hs⟩, hleast⟩
  · rw [chain_noEdge, eq_comm, List.eq_nil_iff_forall_not_mem]
    intro j hj
    exact Set.eq_empty_iff_forall_notMem.mp he j (mem_leaving.mp hj)
  · have hlt := lt_of_sourceAt hs
    have hne : link.toNat ≠ noEdge.toNat := fun h => hn (UInt32.toNat_inj.mp h)
    have hnext := ht.next link.toNat hlt
    rw [hs] at hnext
    -- the link of the least edge names the least of those behind it: `start` moves past the edge
    have ih : chain edges edges[link.toNat].next.toNat = leaving edges p (link.toNat + 1) :=
      chain_eq_leaving_from ht hnext
    refine (pairwise_chain edges _).eq_of_mem_iff (pairwise_leaving edges p start) fun j => ?_
    rw [chain_of_lt hne hlt, List.mem_cons, mem_leaving]
    have hrest : j ∈ (if link.toNat < edges[link.toNat].next.toNat then
        chain edges edges[link.toNat].next.toNat else []) ↔
        link.toNat + 1 ≤ j ∧ sourceAt edges j = some p := by
      rw [← mem_leaving, ← ih]
      rcases hnext with ⟨hno, -⟩ | ⟨-, hmem, -⟩
      · rw [hno, chain_noEdge]; simp
      · rw [if_pos hmem.1]
    rw [hrest]
    constructor
    · rintro (rfl | ⟨h, hj⟩)
      · exact ⟨hstart, hs⟩
      · exact ⟨by omega, hj⟩
    · rintro ⟨hj, hjs⟩
      have : link.toNat ≤ j := hleast ⟨hj, hjs⟩
      rcases Nat.eq_or_lt_of_le this with h | h
      · exact Or.inl h.symm
      · exact Or.inr ⟨h, hjs⟩
termination_by edges.size - start

/-- **In threaded tables the walk of a node** is the list of the edges that leave it. -/
theorem chain_eq_leaving (ht : Threaded nodes edges) {p : Nat} (hp : p < nodes.size) :
    chain edges nodes[p].first.toNat = leaving edges p 0 :=
  chain_eq_leaving_from ht (by simpa using ht.first p hp)

/-! ### From the checks to the threading -/

theorem nodup_chain (edges : Array EdgeRecord) (c : Nat) : (chain edges c).Nodup :=
  (pairwise_chain edges c).imp fun h => Nat.ne_of_lt h

/-- The walks of all nodes, one after the other. -/
def walks (nodes : Array NodeRecord) (edges : Array EdgeRecord) : List Nat :=
  nodes.toList.flatMap fun n => chain edges n.first.toNat

theorem length_walks : (walks nodes edges).length = chainedEdges nodes edges :=
  length_flatMap _ _

theorem mem_walks {i : Nat} :
    i ∈ walks nodes edges ↔ ∃ p, ∃ hp : p < nodes.size, i ∈ chain edges nodes[p].first.toNat := by
  simp only [walks, List.mem_flatMap, Array.mem_toList_iff]
  constructor
  · rintro ⟨n, hn, hi⟩
    obtain ⟨p, hp, rfl⟩ := Array.mem_iff_getElem.mp hn
    exact ⟨p, hp, hi⟩
  · rintro ⟨p, hp, hi⟩
    exact ⟨nodes[p], Array.getElem_mem hp, hi⟩

/-- No edge is on two walks, if each walk stays with the edges of its node. -/
theorem nodup_walks (hw : ∀ p (hp : p < nodes.size), ∀ i ∈ chain edges nodes[p].first.toNat,
    sourceAt edges i = some p) : (walks nodes edges).Nodup := by
  unfold walks
  refine List.nodup_flatMap.mpr ⟨fun n _ => nodup_chain edges _, ?_⟩
  rw [List.pairwise_iff_getElem]
  intro p q hp hq hpq i hi hi'
  rw [Array.length_toList] at hp hq
  have h := hw p hp i hi
  rw [hw q hq i hi'] at h
  have := Option.some.inj h
  omega

/-- As many edges as the table has, none of them twice, are all edges: every edge is on a walk. -/
theorem Checked.exists_walk (hc : Checked nodes edges) {i : Nat} (hi : i < edges.size) :
    ∃ p, ∃ hp : p < nodes.size, i ∈ chain edges nodes[p].first.toNat := by
  have hsub : walks nodes edges ⊆ List.range edges.size := by
    intro j hj
    obtain ⟨p, hp, hj⟩ := mem_walks.mp hj
    exact List.mem_range.mpr (chain_lt hj)
  have hperm := (List.subperm_of_subset (nodup_walks hc.walk) hsub).perm_of_length_le
    (by rw [List.length_range, length_walks, hc.cover])
  exact mem_walks.mp (hperm.mem_iff.mpr (List.mem_range.mpr hi))

theorem Checked.mem_walk_iff (hc : Checked nodes edges) {p : Nat} (hp : p < nodes.size) {i : Nat} :
    i ∈ chain edges nodes[p].first.toNat ↔ sourceAt edges i = some p := by
  refine ⟨hc.walk p hp i, fun hs => ?_⟩
  obtain ⟨q, hq, hi⟩ := hc.exists_walk (lt_of_sourceAt hs)
  have h := hc.walk q hq i hi
  rw [hs] at h
  cases h
  exact hi

theorem Checked.mem_chain_next_iff (hc : Checked nodes edges) {i : Nat} (hi : i < edges.size)
    {j : Nat} : j ∈ chain edges edges[i].next.toNat ↔
      i < j ∧ sourceAt edges j = sourceAt edges i := by
  obtain ⟨p, hp, hmem⟩ := hc.exists_walk hi
  have hs := hc.walk p hp i hmem
  have hrest := mem_chain_of_mem (j := j) hmem
  rw [hc.mem_walk_iff hp] at hrest
  rw [chain_of_link (ne_noEdge_of_mem_chain hmem) hi (hc.link i hi), List.mem_cons] at hrest
  rw [hs]
  constructor
  · intro hj
    have hlt : i < j := by
      rcases hc.link i hi with hl | hl
      · rw [hl, chain_noEdge] at hj; simp at hj
      · exact Nat.lt_of_lt_of_le hl.1 (chain_ge hj)
    exact ⟨hlt, (hrest.mp (Or.inr hj)).1⟩
  · rintro ⟨hlt, hj⟩
    exact (hrest.mpr ⟨hj, by omega⟩).resolve_left (by omega)

/-- **The local checks force the one threading.** -/
theorem Checked.threaded (hc : Checked nodes edges) : Threaded nodes edges where
  first p hp := namesLeast_of_mem_chain (hc.head p hp) fun _ => hc.mem_walk_iff hp
  next i hi := namesLeast_of_mem_chain ((hc.link i hi).imp id And.right) fun _ =>
    hc.mem_chain_next_iff hi

/-! ### From the threading to the checks -/

/-- The walks of threaded tables part the edge table. -/
theorem Threaded.perm_walks (ht : Threaded nodes edges)
    (hs : ∀ i (hi : i < edges.size), edges[i].source.toNat < nodes.size) :
    (walks nodes edges).Perm (List.range edges.size) := by
  have hw : ∀ p (hp : p < nodes.size), ∀ i,
      i ∈ chain edges nodes[p].first.toNat ↔ sourceAt edges i = some p := by
    intro p hp i
    rw [chain_eq_leaving ht hp, mem_leaving]
    simp
  refine (List.perm_ext_iff_of_nodup (nodup_walks fun p hp i => (hw p hp i).mp)
    List.nodup_range).mpr fun i => ?_
  rw [mem_walks, List.mem_range]
  constructor
  · rintro ⟨p, hp, hi⟩
    exact chain_lt hi
  · intro hi
    exact ⟨_, hs i hi, (hw _ (hs i hi) i).mpr (sourceAt_getElem hi)⟩

theorem NamesLeast.lt {among : Set Nat} {link : UInt32} {bound : Nat} (h : NamesLeast among link)
    (hb : ∀ j ∈ among, j < bound) : link = noEdge ∨ link.toNat < bound :=
  h.imp And.left fun h => hb _ h.2.1

/-- **Threaded tables pass the local checks**, if the sources are positions of nodes. -/
theorem Threaded.checked (ht : Threaded nodes edges)
    (hs : ∀ i (hi : i < edges.size), edges[i].source.toNat < nodes.size) :
    Checked nodes edges where
  link i hi := by
    rcases ht.next i hi with ⟨h, -⟩ | ⟨-, ⟨hlt, hsrc⟩, -⟩
    · exact Or.inl h
    · rw [sourceAt_getElem hi] at hsrc
      exact Or.inr ⟨hlt, lt_of_sourceAt hsrc⟩
  head p hp := (ht.first p hp).lt fun _ hj => lt_of_sourceAt hj
  walk p hp i hi := by
    rw [chain_eq_leaving ht hp, mem_leaving] at hi
    exact hi.2
  cover := by
    rw [← length_walks, (ht.perm_walks hs).length_eq, List.length_range]

end FlatGraph
