import Mathlib.Data.List.Basic
import FlatGraph.Proofs.Image.Identifiers
import FlatGraph.Written.File

/-! # Positions of a graph to be written

The positions that are found before a graph is written are those of its nodes, and the index of
identifiers that is written tells the same.

* `Graph.find?_iff`: a position is found for an identifier exactly if the node there carries it, so
  no two nodes carry one identifier.
* `Graph.endpoints_eq`: the ends of every edge are found. `Graph.exists_positions`,
  `Graph.endpoints_of_carries`: nothing else is asked of the identifiers.
* `Graph.ascending_idEntries`, `Graph.mem_idEntries`: the index of identifiers. -/

namespace FlatGraph

/-- The node with the identifier is at the position. -/
def Graph.Carries (g : Graph) (position : Nat) (id : UInt64) : Prop :=
  ∃ h : position < g.nodes.size, g.nodes[position].id = id

namespace Positions

/-- The table after some nodes finds the identifiers of these nodes and what it found before. -/
theorem getElem?_enter {nodes : List Node} {i : Nat} {table entered : Std.HashMap UInt64 Nat}
    (h : enter nodes i table = .ok entered) (id : UInt64) (p : Nat) :
    entered[id]? = some p ↔
      table[id]? = some p ∨ ∃ j, ∃ hj : j < nodes.length, nodes[j].id = id ∧ p = i + j := by
  induction nodes generalizing i table with
  | nil =>
    cases h
    simp
  | cons node rest ih =>
    rw [enter] at h
    split_ifs at h with hmem
    rw [ih h, Std.HashMap.getElem?_insert]
    constructor
    · rintro (ht | ⟨j, hj, hid, rfl⟩)
      · split_ifs at ht with heq
        · cases ht
          exact Or.inr ⟨0, Nat.succ_pos _, eq_of_beq heq, rfl⟩
        · exact Or.inl ht
      · exact Or.inr ⟨j + 1, Nat.succ_lt_succ hj, hid, by omega⟩
    · rintro (ht | ⟨j, hj, hid, rfl⟩)
      · refine Or.inl ?_
        rw [if_neg fun heq => ?_]
        · exact ht
        · rw [← eq_of_beq heq] at ht
          exact hmem (Std.HashMap.mem_iff_isSome_getElem?.mpr (by rw [ht]; rfl))
      · cases j with
        | zero =>
          refine Or.inl ?_
          have hid : node.id = id := hid
          rw [if_pos (beq_iff_eq.mpr hid)]
          rfl
        | succ j => exact Or.inr ⟨j, Nat.lt_of_succ_lt_succ hj, hid, by omega⟩

theorem exists_enter {nodes : List Node} {table : Std.HashMap UInt64 Nat} (i : Nat)
    (hdistinct : nodes.Pairwise fun m n => m.id ≠ n.id) (hnew : ∀ n ∈ nodes, n.id ∉ table) :
    ∃ entered, enter nodes i table = .ok entered := by
  induction nodes generalizing i table with
  | nil => exact ⟨table, rfl⟩
  | cons node rest ih =>
    obtain ⟨hne, hrest⟩ := List.pairwise_cons.mp hdistinct
    rw [enter, if_neg (hnew node List.mem_cons_self)]
    refine ih (i + 1) hrest fun n hn hmem => ?_
    rcases Std.HashMap.mem_insert.mp hmem with heq | hin
    · exact hne n hn (eq_of_beq heq)
    · exact hnew n (List.mem_cons_of_mem node hn) hin

theorem resolve_eq {p : Positions} {edges : List Edge} {i : Nat} {ends : List (Nat × Nat)}
    (h : p.resolve edges i = .ok ends) :
    ends.map (fun e => (some e.1, some e.2)) =
      edges.map fun e => (p.find? e.source, p.find? e.target) := by
  induction edges generalizing i ends with
  | nil =>
    cases h
    rfl
  | cons edge rest ih =>
    unfold resolve at h
    cases hs : p.find? edge.source with
    | none =>
      rw [hs] at h
      cases h
    | some source =>
      cases ht : p.find? edge.target with
      | none =>
        rw [hs, ht] at h
        cases h
      | some target =>
        rw [hs, ht] at h
        cases hr : p.resolve rest (i + 1) with
        | error fault =>
          rw [hr] at h
          cases h
        | ok others =>
          rw [hr] at h
          cases h
          rw [List.map_cons, List.map_cons, ih hr, hs, ht]

theorem resolve_of_eq {p : Positions} {edges : List Edge} {ends : List (Nat × Nat)} (i : Nat)
    (h : ends.map (fun e => (some e.1, some e.2)) =
      edges.map fun e => (p.find? e.source, p.find? e.target)) : p.resolve edges i = .ok ends := by
  induction edges generalizing i ends with
  | nil =>
    rw [List.map_nil, List.map_eq_nil_iff] at h
    rw [h, resolve]
  | cons edge rest ih =>
    obtain ⟨e, others, rfl, hfirst, hothers⟩ := List.map_eq_cons_iff.mp h
    obtain ⟨hsource, htarget⟩ := Prod.mk.inj hfirst
    rw [resolve, ← hsource, ← htarget, ih (i + 1) hothers]
    rfl

end Positions

namespace Graph

variable {g : Graph} {positions : Positions}

theorem isDense_iff :
    g.isDense = true ↔ ∀ p (hp : p < g.nodes.size), g.nodes[p].id.toNat = p := by
  unfold isDense
  rw [List.all_eq_true]
  constructor
  · intro h p hp
    have hid := h (g.nodes[p], p) (mem_zipIdx_toList_iff.mpr ⟨hp, rfl⟩)
    simpa using hid
  · rintro h ⟨node, p⟩ hnode
    obtain ⟨hp, rfl⟩ := mem_zipIdx_toList_iff.mp hnode
    simpa using h p hp

theorem isDense_positions (h : g.positions = .ok positions) : positions.isDense = g.isDense := by
  unfold Graph.positions at h
  split_ifs at h with hd
  · cases h
    exact hd.symm
  · cases he : Positions.enter g.nodes.toList 0 ∅ with
    | error fault =>
      rw [he] at h
      cases h
    | ok table =>
      rw [he] at h
      cases h
      exact (Bool.not_eq_true _ ▸ hd).symm

/-- **The positions that are found** are those of the nodes. -/
theorem find?_iff (h : g.positions = .ok positions) (id : UInt64) (p : Nat) :
    positions.find? id = some p ↔ g.Carries p id := by
  unfold Graph.positions at h
  split_ifs at h with hd
  · cases h
    have hdense := isDense_iff.mp hd
    unfold Positions.find? Carries
    simp only
    constructor
    · intro hf
      split_ifs at hf with hlt
      cases hf
      refine ⟨hlt, UInt64.toNat_inj.mp (hdense _ hlt)⟩
    · rintro ⟨hp, rfl⟩
      rw [hdense p hp, if_pos hp]
  · cases he : Positions.enter g.nodes.toList 0 ∅ with
    | error fault =>
      rw [he] at h
      cases h
    | ok table =>
      rw [he] at h
      cases h
      show table[id]? = some p ↔ _
      rw [Positions.getElem?_enter he]
      unfold Carries
      constructor
      · rintro (ht | ⟨j, hj, hid, rfl⟩)
        · simp at ht
        · rw [Nat.zero_add]
          exact ⟨hj, hid⟩
      · rintro ⟨hp, hid⟩
        exact Or.inr ⟨p, hp, hid, (Nat.zero_add p).symm⟩

theorem find?_id (h : g.positions = .ok positions) {p : Nat} (hp : p < g.nodes.size) :
    positions.find? g.nodes[p].id = some p := (find?_iff h _ p).mpr ⟨hp, rfl⟩

theorem eq_of_id_eq (h : g.positions = .ok positions) {p q : Nat} (hp : p < g.nodes.size)
    (hq : q < g.nodes.size) (heq : g.nodes[p].id = g.nodes[q].id) : p = q := by
  have hfind := find?_id h hp
  rw [heq, find?_id h hq] at hfind
  exact (Option.some.inj hfind).symm

/-- **Positions are found** if no two nodes carry one identifier. -/
theorem exists_positions (h : ∀ p q (hp : p < g.nodes.size) (hq : q < g.nodes.size),
    g.nodes[p].id = g.nodes[q].id → p = q) : ∃ positions, g.positions = .ok positions := by
  unfold Graph.positions
  split_ifs
  · exact ⟨_, rfl⟩
  · have hdistinct : g.nodes.toList.Pairwise fun m n => m.id ≠ n.id := by
      rw [List.pairwise_iff_getElem]
      intro p q hp hq hpq heq
      exact Nat.ne_of_lt hpq (h p q hp hq heq)
    obtain ⟨table, htable⟩ := Positions.exists_enter 0 hdistinct
      fun n _ => Std.HashMap.not_mem_empty
    exact ⟨_, by rw [htable]; rfl⟩

/-! ### Ends of edges -/

variable {ends : List (Nat × Nat)}

theorem length_endpoints (h : g.endpoints positions = .ok ends) : ends.length = g.edges.size := by
  have := congrArg List.length (Positions.resolve_eq h)
  simpa using this

/-- **The ends of an edge** are the nodes that carry the identifiers it names. -/
theorem endpoints_eq (hp : g.positions = .ok positions) (h : g.endpoints positions = .ok ends)
    {i : Nat} (hi : i < g.edges.size) (hi' : i < ends.length) :
    g.Carries ends[i].1 g.edges[i].source ∧ g.Carries ends[i].2 g.edges[i].target := by
  have heq := congrArg (fun l => l[i]?) (Positions.resolve_eq h)
  simp only [List.getElem?_map, Array.getElem?_toList, List.getElem?_eq_getElem hi',
    Array.getElem?_eq_getElem hi, Option.map_some, Option.some.injEq, Prod.mk.injEq] at heq
  exact ⟨(find?_iff hp _ _).mp heq.1.symm, (find?_iff hp _ _).mp heq.2.symm⟩

/-- **The ends are found** if they carry the identifiers that the edges name. -/
theorem endpoints_of_carries (hp : g.positions = .ok positions)
    (hlength : ends.length = g.edges.size)
    (h : ∀ i (hi : i < g.edges.size) (hi' : i < ends.length),
      g.Carries ends[i].1 g.edges[i].source ∧ g.Carries ends[i].2 g.edges[i].target) :
    g.endpoints positions = .ok ends := by
  refine Positions.resolve_of_eq 0 (List.ext_getElem (by simpa using hlength) fun i hi hi' => ?_)
  simp only [List.length_map, Array.length_toList] at hi hi'
  obtain ⟨hsource, htarget⟩ := h i hi' hi
  rw [List.getElem_map, List.getElem_map]
  exact Prod.ext ((find?_iff hp _ _).mpr hsource).symm ((find?_iff hp _ _).mpr htarget).symm

/-! ### The index of identifiers -/

theorem idEntries_perm (g : Graph) : g.idEntries.Perm
    (g.nodes.toList.zipIdx.map fun (node, i) =>
      { id := node.id, position := UInt32.ofNat i }) := List.mergeSort_perm _ _

theorem length_idEntries (g : Graph) : g.idEntries.length = g.nodes.size := by
  rw [(idEntries_perm g).length_eq]
  simp

theorem mem_idEntries {e : IdEntry} : e ∈ g.idEntries ↔
    ∃ p, ∃ hp : p < g.nodes.size, e = { id := g.nodes[p].id, position := UInt32.ofNat p } := by
  rw [(idEntries_perm g).mem_iff, List.mem_map]
  constructor
  · rintro ⟨⟨node, p⟩, hnode, rfl⟩
    obtain ⟨hp, rfl⟩ := mem_zipIdx_toList_iff.mp hnode
    exact ⟨p, hp, rfl⟩
  · rintro ⟨p, hp, rfl⟩
    exact ⟨(g.nodes[p], p), mem_zipIdx_toList_iff.mpr ⟨hp, rfl⟩, rfl⟩

theorem nodup_idEntries (h : g.positions = .ok positions) :
    (g.idEntries.map IdEntry.id).Nodup := by
  rw [((idEntries_perm g).map IdEntry.id).nodup_iff, List.map_map, List.nodup_iff_pairwise_ne,
    List.pairwise_map, List.pairwise_iff_getElem]
  intro p q hp hq hpq heq
  simp only [List.length_zipIdx, Array.length_toList] at hp hq
  simp only [List.getElem_zipIdx, Array.getElem_toList, Function.comp] at heq
  exact Nat.ne_of_lt hpq (eq_of_id_eq h hp hq heq)

/-- **The index of identifiers ascends**, since no identifier occurs twice. -/
theorem ascending_idEntries (h : g.positions = .ok positions) :
    Ascending g.idEntries.toArray := by
  have hsorted : g.idEntries.Pairwise fun e f => decide (e.id ≤ f.id) = true := by
    refine List.pairwise_mergeSort (fun e f k hef hfk => ?_) (fun e f => ?_) _
    · simp only [decide_eq_true_eq] at hef hfk ⊢
      exact UInt64.le_trans hef hfk
    · simp only [Bool.or_eq_true, decide_eq_true_eq]
      exact UInt64.le_total e.id f.id
  have hne := List.pairwise_map.mp (nodup_idEntries h)
  show List.Pairwise _ _
  refine (hsorted.and hne).imp fun {e f} hef => ?_
  exact UInt64.lt_of_le_of_ne (of_decide_eq_true hef.1) hef.2

end Graph

end FlatGraph
