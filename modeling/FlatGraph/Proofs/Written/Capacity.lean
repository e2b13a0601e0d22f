import FlatGraph.Proofs.Written.Accepted

/-! # Graphs that can be written

The positions and the ends are found of every graph whose identifiers are distinct and whose edges
name its nodes. What is left to fail is the size of the file. A file takes little more room than the
payloads, which the graph owns, so it never grows too large for a graph that is in memory.

* `Graph.InMemory`: a machine has room for the payloads of the graph.
* `Graph.write_or_tooLarge`: what it takes that a graph is written.
* `Graph.Writable.ends_eq`: the ends that are found are those that carry the identifiers. -/

namespace FlatGraph

open Bytes

/-- No machine has room for so many bytes: its addresses have 64 bits, and a program has at most
half of them. -/
def memoryBound : Nat := 0x8000000000000000

/-- The number of bytes of a payload, none if it is absent. -/
def heldBytes : Option ByteArray → Nat
  | none => 0
  | some payload => payload.size

/-- **The payloads of the graph are in memory**, each by itself. -/
def Graph.InMemory (g : Graph) : Prop := total heldBytes g.payloads < memoryBound

theorem payloadsSize_le {payloads : List (Option ByteArray)}
    (h : total heldBytes payloads < memoryBound) :
    payloadsSize payloads ≤ total heldBytes payloads + Varint.maxLength * payloads.length := by
  induction payloads with
  | nil => exact Nat.zero_le _
  | cons payload rest ih =>
    rw [total_cons] at h ⊢
    have hrest := ih (by omega)
    rw [List.length_cons, Nat.mul_succ]
    cases payload with
    | none =>
      show payloadsSize rest ≤ _
      omega
    | some payload =>
      have hheld : heldBytes (some payload) = payload.size := rfl
      have hbound : memoryBound < 2 ^ 64 := by decide
      have hlength := Varint.encodedLength_le_maxLength (n := payload.size) (by omega)
      show entrySize payload + payloadsSize rest ≤ _
      rw [entrySize, hheld]
      omega

namespace Graph

variable {g : Graph}

theorem isEmpty_eq_false_iff : g.isEmpty = false ↔ 0 < g.nodes.size := by
  rw [isEmpty, ← Bool.not_eq_true, Array.isEmpty_iff_size_eq_zero]
  omega

/-- **The file of a graph in memory** is not too large. -/
theorem InMemory.total_lt (h : g.InMemory) (hnodes : g.nodes.size ≤ maxElements)
    (hedges : g.edges.size ≤ maxElements) (o : Options) (dense : Bool) :
    (g.layout o dense).total < sizeBound := by
  have htotal := Layout.total_plan_le o dense g.nodes.size g.edges.size (payloadsSize g.payloads)
  have hsize := payloadsSize_le h
  have hheld : total heldBytes g.payloads < 2 ^ 63 := h
  have hmax : maxElements < 2 ^ 32 := by decide
  have hfront : preambleSize + (Record.width Statistics + 28) ≤ 256 := by decide
  have hlength : Varint.maxLength = 10 := rfl
  have hbound : sizeBound = 2 ^ 64 := rfl
  rw [length_payloads, hlength] at hsize
  rw [layout, hbound]
  omega

/-- **What it takes that a graph is written**: counts in range, a node, distinct identifiers and
edges that name nodes. Nothing else fails but the size of the file, and this only for payloads that
no machine has room for. -/
theorem write_or_tooLarge (o : Options) {ends : List (Nat × Nat)}
    (hnodes : g.nodes.size ≤ maxElements) (hedges : g.edges.size ≤ maxElements)
    (hpos : 0 < g.nodes.size)
    (hdistinct : ∀ p q (hp : p < g.nodes.size) (hq : q < g.nodes.size),
      g.nodes[p].id = g.nodes[q].id → p = q)
    (hlength : ends.length = g.edges.size)
    (hends : ∀ i (hi : i < g.edges.size) (hi' : i < ends.length),
      g.Carries ends[i].1 g.edges[i].source ∧ g.Carries ends[i].2 g.edges[i].target) :
    (∃ b, g.write o = .ok b) ∨ (g.write o = .error .tooLarge ∧ ¬ g.InMemory) := by
  obtain ⟨positions, hpositions⟩ := exists_positions hdistinct
  have hfound := endpoints_of_carries hpositions hlength hends
  have hinhabited : g.isEmpty = false := isEmpty_eq_false_iff.mpr hpos
  rcases Nat.lt_or_ge (g.layout o positions.isDense).total sizeBound with htotal | htotal
  · have hw : g.Writable o positions ends :=
      ⟨hnodes, hedges, hinhabited, hpositions, hfound, htotal⟩
    exact Or.inl ⟨_, write_eq_ok_iff.mpr ⟨_, _, hw, rfl⟩⟩
  · refine Or.inr ⟨?_, fun hmemory => ?_⟩
    · unfold write
      rw [if_neg (by omega), if_neg (by omega), if_neg (by simp [hinhabited]), hpositions]
      show (g.endpoints positions >>= fun ends => _) = _
      rw [hfound]
      exact if_pos htotal
    · have hlt := hmemory.total_lt hnodes hedges o positions.isDense
      omega

/-- **The ends that are found** are those that carry the identifiers. -/
theorem Writable.ends_eq {o : Options} {positions : Positions} {ends found : List (Nat × Nat)}
    (h : g.Writable o positions found) (hlength : ends.length = g.edges.size)
    (hends : ∀ i (hi : i < g.edges.size) (hi' : i < ends.length),
      g.Carries ends[i].1 g.edges[i].source ∧ g.Carries ends[i].2 g.edges[i].target) :
    found = ends := by
  have hfound := endpoints_of_carries h.positions_eq hlength hends
  rw [h.endpoints_eq] at hfound
  exact Except.ok.inj hfound

end Graph

end FlatGraph
