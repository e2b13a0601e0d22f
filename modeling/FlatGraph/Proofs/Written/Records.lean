import FlatGraph.Proofs.Written.Sections

/-! # The records of a written file

The records hold what the graph holds, the chains are those of the one threading of the edges, and
the offsets lead to the payloads.

* `Graph.nodeRecord_eq`, `Graph.edgeRecord_eq`: the record at a position.
* `Graph.threaded_records`: the records are threaded. -/

namespace FlatGraph

namespace Graph

variable {g : Graph} {ends : List (Nat × Nat)} {start : Nat}

theorem nodeRecord_eq (ends : List (Nat × Nat)) (start : Nat) {p : Nat} (hp : p < g.nodes.size) :
    ∃ head offset, (g.threads ends).heads[p]? = some head ∧
      (payloadOffsets start g.payloads)[p]? = some offset ∧
      (g.nodeRecords ends start)[p]? = some (g.nodes[p].record head offset) := by
  have hheads : p < (g.threads ends).heads.size := by rwa [(g.sized_threads ends).heads]
  have hoffsets : p < (payloadOffsets start g.payloads).length := by
    rw [length_payloadOffsets, length_payloads]
    omega
  refine ⟨_, _, Array.getElem?_eq_getElem hheads, List.getElem?_eq_getElem hoffsets, ?_⟩
  rw [nodeRecords, List.getElem?_zipWith, List.zip, List.getElem?_zipWith, Array.getElem?_toList,
    Array.getElem?_toList, Array.getElem?_eq_getElem hp, Array.getElem?_eq_getElem hheads,
    List.getElem?_eq_getElem hoffsets]

theorem edgeRecord_eq (start : Nat) {i : Nat}
    (hi : i < g.edges.size) (hi' : i < ends.length) :
    ∃ link offset, (g.threads ends).links[i]? = some link ∧
      (payloadOffsets start g.payloads)[g.nodes.size + i]? = some offset ∧
      (g.edgeRecords ends start)[i]? = some (g.edges[i].record ends[i] link offset) := by
  have hlinks : i < (g.threads ends).links.size := by rwa [(g.sized_threads ends).links]
  have hoffsets : g.nodes.size + i < (payloadOffsets start g.payloads).length := by
    rw [length_payloadOffsets, length_payloads]
    omega
  refine ⟨_, _, Array.getElem?_eq_getElem hlinks, List.getElem?_eq_getElem hoffsets, ?_⟩
  rw [edgeRecords, List.getElem?_zipWith, List.zip, List.zip, List.getElem?_zipWith,
    List.getElem?_zipWith, List.getElem?_drop, Array.getElem?_toList, Array.getElem?_eq_getElem hi,
    List.getElem?_eq_getElem hi', Array.getElem?_toList, Array.getElem?_eq_getElem hlinks,
    List.getElem?_eq_getElem hoffsets]

theorem payloads_getElem?_node {p : Nat} (hp : p < g.nodes.size) :
    g.payloads[p]? = some g.nodes[p].payload := by
  rw [payloads, List.getElem?_append_left (by simpa using hp), List.getElem?_map,
    Array.getElem?_toList, Array.getElem?_eq_getElem hp]
  rfl

theorem payloads_getElem?_edge {i : Nat} (hi : i < g.edges.size) :
    g.payloads[g.nodes.size + i]? = some g.edges[i].payload := by
  rw [payloads, List.getElem?_append_right (by simp), List.getElem?_map, Array.getElem?_toList,
    List.length_map, Array.length_toList, Nat.add_sub_cancel_left, Array.getElem?_eq_getElem hi]
  rfl

/-! ### The threading -/

/-- The ends of the edges are positions of nodes. -/
def Resolved (g : Graph) (ends : List (Nat × Nat)) : Prop :=
  ends.length = g.edges.size ∧ ∀ e ∈ ends, e.1 < g.nodes.size ∧ e.2 < g.nodes.size

/-- **The chains of a graph** are exact. -/
theorem Resolved.exact_threads (h : g.Resolved ends) :
    (g.threads ends).Exact g.nodes.size (ends.map (·.1)) := by
  refine (Threads.Exact.start g.nodes.size).foldl fun s hs => ?_
  obtain ⟨e, he, rfl⟩ := List.mem_map.mp hs
  exact (h.2 e he).1

theorem toNat_ofNat_of_lt {n p : Nat} (hp : p < n) (hn : n ≤ maxElements) :
    (UInt32.ofNat p).toNat = p := toNat_ofNat_of_le ((Nat.le_of_lt hp).trans hn)

variable (hends : g.Resolved ends) (hn : g.nodes.size ≤ maxElements)
include hends hn

theorem ends_edgeRecord {i : Nat} (hi : i < (g.edgeRecords ends start).toArray.size)
    (hi' : i < ends.length) :
    (g.edgeRecords ends start).toArray[i].source.toNat = ends[i].1 ∧
      (g.edgeRecords ends start).toArray[i].target.toNat = ends[i].2 := by
  have hlt := hends.2 ends[i] (List.getElem_mem hi')
  obtain ⟨link, offset, -, -, hrecord⟩ := edgeRecord_eq start (hends.1 ▸ hi') hi'
  rw [List.getElem?_eq_some_iff] at hrecord
  obtain ⟨_, hrecord⟩ := hrecord
  rw [List.getElem_toArray, hrecord]
  exact ⟨toNat_ofNat_of_lt hlt.1 hn, toNat_ofNat_of_lt hlt.2 hn⟩

theorem sourceAt_records (start j : Nat) :
    sourceAt (g.edgeRecords ends start).toArray j = (ends.map (·.1))[j]? := by
  have hsize : (g.edgeRecords ends start).toArray.size = ends.length := by
    rw [List.size_toArray, length_edgeRecords g hends.1, hends.1]
  by_cases hj : j < ends.length
  · have hj' : j < (g.edgeRecords ends start).toArray.size := by rwa [hsize]
    rw [sourceAt_getElem hj', (ends_edgeRecord hends hn hj' hj).1, List.getElem?_map,
      List.getElem?_eq_getElem hj]
    rfl
  · rw [sourceAt, Array.getElem?_eq_none (by omega), List.getElem?_eq_none (by simpa using hj)]
    rfl

/-- **The records are threaded.** -/
theorem threaded_records (he : g.edges.size ≤ maxElements) :
    Threaded (g.nodeRecords ends start).toArray (g.edgeRecords ends start).toArray := by
  have hsource := sourceAt_records hends hn start
  have hexact := hends.exact_threads
  have hnumbered : ∀ p, {j | sourceAt (g.edgeRecords ends start).toArray j = some p} =
      numbered (ends.map (·.1)) p := fun p => by
    ext j
    rw [Set.mem_ofPred_eq, hsource]
    rfl
  have hbound : ∀ p, ∀ j ∈ numbered (ends.map (·.1)) p, j < maxElements := by
    intro p j hj
    have hlt := lt_of_mem_numbered hj
    rw [List.length_map, hends.1] at hlt
    omega
  constructor
  · intro p hp
    rw [List.size_toArray, length_nodeRecords] at hp
    obtain ⟨head, offset, hhead, -, hrecord⟩ := nodeRecord_eq ends start hp
    obtain ⟨_, hrecord⟩ := List.getElem?_eq_some_iff.mp hrecord
    rw [hnumbered, List.getElem_toArray, hrecord]
    exact (hexact.heads p head hhead).namesLeast (hbound p)
  · intro i hi
    rw [List.size_toArray, length_edgeRecords g hends.1, ← hends.1] at hi
    obtain ⟨link, offset, hlink, -, hrecord⟩ := edgeRecord_eq start (hends.1 ▸ hi) hi
    obtain ⟨_, hrecord⟩ := List.getElem?_eq_some_iff.mp hrecord
    have hi : (ends.map (·.1))[i]? = some ends[i].1 := by
      rw [List.getElem?_map, List.getElem?_eq_getElem hi]
      rfl
    have hsame : {j | i < j ∧ sourceAt (g.edgeRecords ends start).toArray j =
          sourceAt (g.edgeRecords ends start).toArray i} =
        {j | i < j ∧ j ∈ numbered (ends.map (·.1)) ends[i].1} := by
      ext j
      rw [Set.mem_ofPred_eq, Set.mem_ofPred_eq, hsource i, hi, ← hnumbered, Set.mem_ofPred_eq]
    rw [hsame, List.getElem_toArray, hrecord]
    exact (hexact.links i _ link hi hlink).namesLeast fun j hj => hbound _ j hj.2

end Graph

end FlatGraph
