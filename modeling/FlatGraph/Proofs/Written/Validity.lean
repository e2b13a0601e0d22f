import Mathlib.Order.Bounds.Basic
import FlatGraph.Proofs.Written.Capacity
import FlatGraph.Proofs.Written.RoundTrip

/-! # Which graphs are written

A graph is written exactly if it is valid, and a graph that is not is refused with its first fault.
Identifiers that are their positions need no table, and then nothing looks for an identifier that
occurs twice: there is none. Both ways of finding positions, by a bound and by a table, find the one
position that carries an identifier.

* `Graph.Valid` and `Graph.FirstFault`: what is asked of a graph, without the order of the code.
* `Positions.enter_eq_error_iff`, `Positions.resolve_eq_error_iff`: what stops the two passes.
* `Graph.write_iff_valid`: the verdict on every graph that is in memory. -/

namespace FlatGraph

/-! ### The least of some numbers -/

section

variable {P Q R : Nat → Prop}

theorem exists_isLeast_of_zero (h : P 0) : (∃ k, IsLeast {k | P k} k ∧ R k) ↔ R 0 := by
  have hzero : IsLeast {k | P k} 0 := ⟨h, fun k _ => Nat.zero_le k⟩
  constructor
  · rintro ⟨k, hk, hr⟩
    rwa [← hk.unique hzero]
  · exact fun hr => ⟨0, hzero, hr⟩

theorem exists_isLeast_of_succ (h : ¬ P 0) (hsucc : ∀ k, P (k + 1) ↔ Q k) :
    (∃ k, IsLeast {k | P k} k ∧ R k) ↔ ∃ k, IsLeast {k | Q k} k ∧ R (k + 1) := by
  constructor
  · rintro ⟨k, ⟨hk, hmin⟩, hr⟩
    cases k with
    | zero => exact absurd hk h
    | succ k =>
      refine ⟨k, ⟨(hsucc k).mp hk, fun j hj => ?_⟩, hr⟩
      exact Nat.le_of_succ_le_succ (hmin ((hsucc j).mpr hj))
  · rintro ⟨k, ⟨hk, hmin⟩, hr⟩
    refine ⟨k + 1, ⟨(hsucc k).mpr hk, fun j hj => ?_⟩, hr⟩
    cases j with
    | zero => exact absurd hj h
    | succ j => exact Nat.succ_le_succ (hmin ((hsucc j).mp hj))

end

/-! ### What stops the two passes -/

theorem bind_eq_error_iff {ε α β : Type} {x : Except ε α} {f : α → Except ε β} {e : ε} :
    (x >>= f) = .error e ↔ x = .error e ∨ ∃ a, x = .ok a ∧ f a = .error e := by
  cases x with
  | error e => simp [bind, Except.bind]
  | ok a => simp [bind, Except.bind]

namespace Positions

variable {nodes : List Node} {table : Std.HashMap UInt64 Nat} {fault : Misuse}

/-- The identifier of a node is in the table, or it is that of an earlier node. -/
def Again (nodes : List Node) (table : Std.HashMap UInt64 Nat) (k : Nat) : Prop :=
  ∃ node, nodes[k]? = some node ∧
    (node.id ∈ table ∨ ∃ j < k, ∃ other, nodes[j]? = some other ∧ other.id = node.id)

theorem again_zero {node : Node} {rest : List Node} :
    Again (node :: rest) table 0 ↔ node.id ∈ table := by
  simp [Again]

/-- What comes again behind a node is in the table once the node is entered. -/
theorem again_succ {node : Node} {rest : List Node} (i k : Nat) :
    Again (node :: rest) table (k + 1) ↔ Again rest (table.insert node.id i) k := by
  refine exists_congr fun later => and_congr Iff.rfl ?_
  rw [Std.HashMap.mem_insert, beq_iff_eq]
  constructor
  · rintro (hin | ⟨j, hj, other, hother, hid⟩)
    · exact Or.inl (Or.inr hin)
    · cases j with
      | zero =>
        cases hother
        exact Or.inl (Or.inl hid)
      | succ j => exact Or.inr ⟨j, Nat.lt_of_succ_lt_succ hj, other, hother, hid⟩
  · rintro ((hid | hin) | ⟨j, hj, other, hother, hid⟩)
    · exact Or.inr ⟨0, Nat.succ_pos k, node, rfl, hid⟩
    · exact Or.inl hin
    · exact Or.inr ⟨j + 1, Nat.succ_lt_succ hj, other, hother, hid⟩

/-- **Entering nodes stops** at the first identifier that comes again. -/
theorem enter_eq_error_iff (i : Nat) : enter nodes i table = .error fault ↔
    ∃ k, IsLeast {k | Again nodes table k} k ∧
      ∃ node, nodes[k]? = some node ∧ fault = .duplicateId node.id := by
  induction nodes generalizing i table with
  | nil => simp [enter]
  | cons node rest ih =>
    rw [enter]
    split_ifs with hmem
    · rw [exists_isLeast_of_zero (again_zero.mpr hmem)]
      simp [eq_comm]
    · rw [ih, exists_isLeast_of_succ (mt again_zero.mp hmem) (again_succ i)]
      rfl

variable {p : Positions} {edges : List Edge}

/-- An end of an edge is not found. -/
def Lost (p : Positions) (edges : List Edge) (k : Nat) : Prop :=
  ∃ edge, edges[k]? = some edge ∧ (p.find? edge.source = none ∨ p.find? edge.target = none)

/-- The fault of an edge with an end that is not found: its source, if that is not found. -/
def lostEnd (p : Positions) (i : Nat) (edge : Edge) : Misuse :=
  match p.find? edge.source with
  | none => .unknownSource i edge.source
  | some _ => .unknownTarget i edge.target

theorem lost_zero {edge : Edge} {rest : List Edge} : p.Lost (edge :: rest) 0 ↔
    p.find? edge.source = none ∨ p.find? edge.target = none := by
  simp [Lost]

/-- The first edge stops the pass if an end of it is not found, and else the others may. -/
theorem resolve_cons_eq_error_iff {edge : Edge} {rest : List Edge} (i : Nat) :
    p.resolve (edge :: rest) i = .error fault ↔
      if p.find? edge.source = none ∨ p.find? edge.target = none then fault = p.lostEnd i edge
      else p.resolve rest (i + 1) = .error fault := by
  rw [resolve, lostEnd]
  cases hs : p.find? edge.source with
  | none => simp [eq_comm]
  | some source =>
    cases ht : p.find? edge.target with
    | none => simp [eq_comm]
    | some target => cases p.resolve rest (i + 1) <;> simp [Except.map]

/-- **Finding ends stops** at the first edge with an end that is not found. -/
theorem resolve_eq_error_iff (i : Nat) : p.resolve edges i = .error fault ↔
    ∃ k, IsLeast {k | p.Lost edges k} k ∧
      ∃ edge, edges[k]? = some edge ∧ fault = p.lostEnd (i + k) edge := by
  induction edges generalizing i with
  | nil => simp [resolve]
  | cons edge rest ih =>
    rw [resolve_cons_eq_error_iff]
    split_ifs with hlost
    · rw [exists_isLeast_of_zero (lost_zero.mpr hlost)]
      simp
    · rw [ih, exists_isLeast_of_succ (Q := p.Lost rest) (mt lost_zero.mp hlost) fun k => Iff.rfl]
      simp only [List.getElem?_cons_succ, Nat.add_assoc, Nat.add_comm 1]

end Positions

namespace Graph

variable {g : Graph} {positions : Positions} {fault : Misuse}

/-! ### Valid graphs -/

/-- Some node carries the identifier. -/
def Named (g : Graph) (id : UInt64) : Prop := ∃ p, g.Carries p id

/-- The node at the position carries an identifier that an earlier node carries. -/
def Repeats (g : Graph) (p : Nat) : Prop := ∃ id, g.Carries p id ∧ ∃ q < p, g.Carries q id

/-- The edge names an identifier that no node carries. -/
def Dangling (g : Graph) (i : Nat) : Prop :=
  ∃ edge, g.edges[i]? = some edge ∧ ¬ (g.Named edge.source ∧ g.Named edge.target)

/-- **A valid graph** has a node, all its identifiers are distinct, and nodes carry both identifiers
of every edge. -/
structure Valid (g : Graph) : Prop where
  inhabited : 0 < g.nodes.size
  distinct : (g.nodes.toList.map Node.id).Nodup
  named : ∀ edge ∈ g.edges, g.Named edge.source ∧ g.Named edge.target

/-- **The first fault of a graph**: that it has no nodes, else the first identifier that occurred
before, else the first edge with an unknown end, of which the source comes first. -/
inductive FirstFault (g : Graph) : Misuse → Prop
  | noNodes (empty : g.nodes.size = 0) : FirstFault g .noNodes
  | duplicateId {p : Nat} {id : UInt64} (first : IsLeast {p | g.Repeats p} p)
      (carries : g.Carries p id) : FirstFault g (.duplicateId id)
  | unknownSource {i : Nat} {edge : Edge} (inhabited : 0 < g.nodes.size)
      (distinct : ∀ p, ¬ g.Repeats p) (first : IsLeast {i | g.Dangling i} i)
      (edge_eq : g.edges[i]? = some edge) (unknown : ¬ g.Named edge.source) :
      FirstFault g (.unknownSource i edge.source)
  | unknownTarget {i : Nat} {edge : Edge} (inhabited : 0 < g.nodes.size)
      (distinct : ∀ p, ¬ g.Repeats p) (first : IsLeast {i | g.Dangling i} i)
      (edge_eq : g.edges[i]? = some edge) (known : g.Named edge.source)
      (unknown : ¬ g.Named edge.target) : FirstFault g (.unknownTarget i edge.target)

theorem carries_iff {p : Nat} {id : UInt64} :
    g.Carries p id ↔ ∃ node, g.nodes[p]? = some node ∧ node.id = id := by
  constructor
  · rintro ⟨hp, rfl⟩
    exact ⟨_, Array.getElem?_eq_getElem hp, rfl⟩
  · rintro ⟨node, hnode, rfl⟩
    obtain ⟨hp, rfl⟩ := Array.getElem?_eq_some_iff.mp hnode
    exact ⟨hp, rfl⟩

theorem nodup_iff : (g.nodes.toList.map Node.id).Nodup ↔ ∀ p, ¬ g.Repeats p := by
  rw [List.nodup_iff_pairwise_ne, List.pairwise_map, List.pairwise_iff_getElem]
  constructor
  · rintro h p ⟨id, ⟨hp, hid⟩, q, hqp, hq, hid'⟩
    exact h q p hq hp hqp (hid'.trans hid.symm)
  · intro h q p hq hp hqp heq
    exact h p ⟨_, ⟨hp, rfl⟩, q, hqp, hq, heq⟩

theorem named_iff : (∀ edge ∈ g.edges, g.Named edge.source ∧ g.Named edge.target) ↔
    ∀ i, ¬ g.Dangling i := by
  constructor
  · rintro h i ⟨edge, hedge, hnot⟩
    exact hnot (h edge (Array.mem_of_getElem? hedge))
  · intro h edge hedge
    obtain ⟨i, hi⟩ := Array.mem_iff_getElem?.mp hedge
    by_contra hnot
    exact h i ⟨edge, hi, hnot⟩

/-! ### The faults of the two passes -/

theorem again_iff (g : Graph) (p : Nat) : Positions.Again g.nodes.toList ∅ p ↔ g.Repeats p := by
  simp only [Positions.Again, Repeats, carries_iff, Array.getElem?_toList,
    Std.HashMap.not_mem_empty, false_or]
  constructor
  · rintro ⟨node, hnode, q, hq, other, hother, hid⟩
    exact ⟨node.id, ⟨node, hnode, rfl⟩, q, hq, other, hother, hid⟩
  · rintro ⟨_, ⟨node, hnode, rfl⟩, q, hq, other, hother, hid⟩
    exact ⟨node, hnode, q, hq, other, hother, hid⟩

/-- No identifier comes again in a graph whose identifiers are their positions. -/
theorem not_repeats_of_isDense (hd : g.isDense = true) (p : Nat) : ¬ g.Repeats p := by
  rintro ⟨id, ⟨hp, hid⟩, q, hqp, hq, hid'⟩
  have heq := isDense_iff.mp hd p hp
  rw [hid, ← hid', isDense_iff.mp hd q hq] at heq
  omega

/-- **Positions are refused** for the first identifier that occurred before. -/
theorem positions_eq_error_iff : g.positions = .error fault ↔
    ∃ p, IsLeast {p | g.Repeats p} p ∧ ∃ id, g.Carries p id ∧ fault = .duplicateId id := by
  unfold Graph.positions
  split_ifs with hd
  · refine iff_of_false (fun h => by cases h) ?_
    rintro ⟨p, hleast, -⟩
    exact not_repeats_of_isDense hd p hleast.1
  · have hmap : (Positions.enter g.nodes.toList 0 ∅).map Positions.sparse = .error fault ↔
        Positions.enter g.nodes.toList 0 ∅ = .error fault := by
      cases Positions.enter g.nodes.toList 0 ∅ <;> simp [Except.map]
    rw [hmap, Positions.enter_eq_error_iff]
    simp only [again_iff, Array.getElem?_toList, carries_iff]
    refine exists_congr fun p => and_congr_right fun _ => ?_
    constructor
    · rintro ⟨node, hnode, rfl⟩
      exact ⟨node.id, ⟨node, hnode, rfl⟩, rfl⟩
    · rintro ⟨_, ⟨node, hnode, rfl⟩, rfl⟩
      exact ⟨node, hnode, rfl⟩

theorem find?_eq_none_iff (hp : g.positions = .ok positions) (id : UInt64) :
    positions.find? id = none ↔ ¬ g.Named id := by
  rw [Option.eq_none_iff_forall_ne_some, Named, not_exists]
  exact forall_congr' fun p => not_congr (find?_iff hp id p)

theorem lost_iff (hp : g.positions = .ok positions) (i : Nat) :
    positions.Lost g.edges.toList i ↔ g.Dangling i := by
  simp only [Positions.Lost, Dangling, Array.getElem?_toList, find?_eq_none_iff hp,
    not_and_or]

/-- **Ends are refused** for the first edge with an unknown end. -/
theorem endpoints_eq_error_iff (hp : g.positions = .ok positions) :
    g.endpoints positions = .error fault ↔ ∃ i, IsLeast {i | g.Dangling i} i ∧
      ∃ edge, g.edges[i]? = some edge ∧
        (¬ g.Named edge.source ∧ fault = .unknownSource i edge.source ∨
          g.Named edge.source ∧ fault = .unknownTarget i edge.target) := by
  unfold endpoints
  rw [Positions.resolve_eq_error_iff]
  simp only [lost_iff hp, Array.getElem?_toList, Nat.zero_add]
  refine exists_congr fun i => and_congr_right fun _ => exists_congr fun edge =>
    and_congr_right fun _ => ?_
  have hnone := find?_eq_none_iff hp edge.source
  unfold Positions.lostEnd
  cases hs : positions.find? edge.source with
  | none => simp [hnone.mp hs]
  | some source =>
    have hknown : g.Named edge.source := by
      by_contra hnot
      rw [hnone.mpr hnot] at hs
      cases hs
    simp [hknown]

/-! ### The verdict -/

theorem not_repeats (hp : g.positions = .ok positions) (p : Nat) : ¬ g.Repeats p := by
  rintro ⟨id, ⟨hlt, hid⟩, q, hqp, hq, hid'⟩
  exact Nat.ne_of_lt hqp (eq_of_id_eq hp hq hlt (hid'.trans hid.symm))

theorem exists_positions_of_not_repeats (h : ∀ p, ¬ g.Repeats p) :
    ∃ positions, g.positions = .ok positions := by
  cases hp : g.positions with
  | ok positions => exact ⟨positions, rfl⟩
  | error fault =>
    obtain ⟨p, hleast, -⟩ := positions_eq_error_iff.mp hp
    exact absurd hleast.1 (h p)

/-- **The two passes stop at the first fault** of a graph that has a node. -/
theorem firstFault_iff (hpos : 0 < g.nodes.size) : g.FirstFault fault ↔
    g.positions = .error fault ∨
      ∃ positions, g.positions = .ok positions ∧ g.endpoints positions = .error fault := by
  constructor
  · rintro (hempty | ⟨hfirst, hcarries⟩ | ⟨-, hdistinct, hfirst, hedge, hunknown⟩ |
      ⟨-, hdistinct, hfirst, hedge, hknown, -⟩)
    · omega
    · exact Or.inl (positions_eq_error_iff.mpr ⟨_, hfirst, _, hcarries, rfl⟩)
    · obtain ⟨positions, hp⟩ := exists_positions_of_not_repeats hdistinct
      exact Or.inr ⟨positions, hp, (endpoints_eq_error_iff hp).mpr
        ⟨_, hfirst, _, hedge, Or.inl ⟨hunknown, rfl⟩⟩⟩
    · obtain ⟨positions, hp⟩ := exists_positions_of_not_repeats hdistinct
      exact Or.inr ⟨positions, hp, (endpoints_eq_error_iff hp).mpr
        ⟨_, hfirst, _, hedge, Or.inr ⟨hknown, rfl⟩⟩⟩
  · rintro (hp | ⟨positions, hp, he⟩)
    · obtain ⟨p, hfirst, id, hcarries, rfl⟩ := positions_eq_error_iff.mp hp
      exact .duplicateId hfirst hcarries
    · obtain ⟨i, hfirst, edge, hedge, hend⟩ := (endpoints_eq_error_iff hp).mp he
      rcases hend with ⟨hunknown, rfl⟩ | ⟨hknown, rfl⟩
      · exact .unknownSource hpos (not_repeats hp) hfirst hedge hunknown
      · refine .unknownTarget hpos (not_repeats hp) hfirst hedge hknown fun htarget => ?_
        obtain ⟨edge', hedge', hnot⟩ := hfirst.1
        rw [hedge] at hedge'
        cases hedge'
        exact hnot ⟨hknown, htarget⟩

theorem Valid.not_firstFault (h : g.Valid) : ¬ g.FirstFault fault := by
  have hdistinct := nodup_iff.mp h.distinct
  have hnamed := named_iff.mp h.named
  rintro (hempty | ⟨hfirst, -⟩ | ⟨-, -, hfirst, -⟩ | ⟨-, -, hfirst, -⟩)
  · exact absurd h.inhabited (by omega)
  · exact hdistinct _ hfirst.1
  · exact hnamed _ hfirst.1
  · exact hnamed _ hfirst.1

section

variable (hnodes : g.nodes.size ≤ maxElements) (hedges : g.edges.size ≤ maxElements)
  (hmemory : g.InMemory)
include hnodes hedges hmemory

/-- **A graph is refused** with its first fault. -/
theorem write_eq_error_iff (o : Options) : g.write o = .error fault ↔ g.FirstFault fault := by
  unfold write
  rw [if_neg (by omega), if_neg (by omega)]
  rcases Nat.eq_zero_or_pos g.nodes.size with hempty | hpos
  · rw [if_pos (by simpa [isEmpty] using hempty)]
    constructor
    · rintro ⟨⟩
      exact .noNodes hempty
    · rintro (- | ⟨-, hlt, -⟩ | ⟨hpos, -⟩ | ⟨hpos, -⟩)
      · rfl
      · omega
      · omega
      · omega
  · rw [if_neg (by simp [isEmpty_eq_false_iff.mpr hpos]), firstFault_iff hpos, bind_eq_error_iff]
    refine or_congr Iff.rfl (exists_congr fun positions => and_congr_right fun _ => ?_)
    rw [bind_eq_error_iff]
    refine or_iff_left ?_
    rintro ⟨ends, -, hlarge⟩
    rw [if_neg (Nat.not_le_of_lt (hmemory.total_lt hnodes hedges o positions.isDense))] at hlarge
    cases hlarge

/-- **A graph is written** exactly if it is valid. -/
theorem exists_write_iff (o : Options) : (∃ b, g.write o = .ok b) ↔ g.Valid := by
  constructor
  · rintro ⟨b, hb⟩
    obtain ⟨positions, ends, h, -⟩ := write_eq_ok_iff.mp hb
    refine ⟨isEmpty_eq_false_iff.mp h.inhabited, nodup_iff.mpr (not_repeats h.positions_eq),
      fun edge hedge => ?_⟩
    obtain ⟨i, hi, rfl⟩ := Array.mem_iff_getElem.mp hedge
    obtain ⟨hsource, htarget⟩ :=
      endpoints_eq h.positions_eq h.endpoints_eq hi (h.resolved.1 ▸ hi)
    exact ⟨⟨_, hsource⟩, ⟨_, htarget⟩⟩
  · intro hvalid
    cases hw : g.write o with
    | ok b => exact ⟨b, rfl⟩
    | error fault =>
      have hfault := (write_eq_error_iff hnodes hedges hmemory o).mp hw
      exact absurd hfault hvalid.not_firstFault

end

theorem carries_iff_eq (hp : g.positions = .ok positions) {p : Nat} {id : UInt64}
    (h : g.Carries p id) (q : Nat) : g.Carries q id ↔ q = p := by
  rw [← find?_iff hp, (find?_iff hp id p).mpr h, Option.some.injEq, eq_comm]

/-- **The verdict on a graph** whose counts are in range and that is in memory: it is written
exactly if it is valid, and else it is refused with its first fault. Whether or not a table of
identifiers is needed, the positions that are found are those of the nodes that carry the
identifiers, and the records of the edges hold the one position that carries each of their ends. -/
theorem write_iff_valid (hnodes : g.nodes.size ≤ maxElements)
    (hedges : g.edges.size ≤ maxElements) (hmemory : g.InMemory) (o : Options) :
    ((∃ b, g.write o = .ok b) ↔ g.Valid) ∧
    (∀ fault, g.write o = .error fault ↔ g.FirstFault fault) ∧
    ∀ b, g.write o = .ok b → ∃ positions image, g.positions = .ok positions ∧
      (positions.isDense = true ↔ ∀ p (hp : p < g.nodes.size), g.nodes[p].id.toNat = p) ∧
      (∀ id p, positions.find? id = some p ↔ g.Carries p id) ∧
      Image.parse b = .ok image ∧
      ∀ i (hi : i < g.edges.size), ∃ r, image.edges[i]? = some r ∧
        (∀ p, g.Carries p g.edges[i].source ↔ p = r.source.toNat) ∧
        ∀ p, g.Carries p g.edges[i].target ↔ p = r.target.toNat := by
  refine ⟨exists_write_iff hnodes hedges hmemory o,
    fun fault => write_eq_error_iff hnodes hedges hmemory o, fun b hb => ?_⟩
  obtain ⟨positions, ends, h, rfl⟩ := write_eq_ok_iff.mp hb
  have hp := h.positions_eq
  refine ⟨positions, _, hp, ?_, find?_iff hp, h.parse_eq, fun i hi => ?_⟩
  · rw [isDense_positions hp, isDense_iff]
  · obtain ⟨link, offset, -, hrecord⟩ := h.edge_file hi (h.resolved.1 ▸ hi)
    obtain ⟨hsource, htarget⟩ := h.carries_ends hi hrecord
    exact ⟨_, hrecord, carries_iff_eq hp hsource, carries_iff_eq hp htarget⟩

/-- Three nodes, of which the last has the identifier of the first, and an edge to no node. -/
def faulty : Graph where
  nodes := #[{ id := 7 }, { id := 3 }, { id := 7 }]
  edges := #[{ source := 3, target := 9 }]

theorem write_iff_valid_sample : sample.Valid ∧
    ∀ o, faulty.write o = .error (.duplicateId 7) := by
  have hmemory : sample.InMemory ∧ faulty.InMemory := by
    unfold InMemory
    decide
  constructor
  · exact (write_iff_valid (by decide) (by decide) hmemory.1 Options.sample).1.mp
      exists_write_sample
  · intro o
    refine ((write_iff_valid (by decide) (by decide) hmemory.2 o).2.1 _).mpr ?_
    refine .duplicateId (p := 2) ⟨⟨7, ⟨by decide, rfl⟩, 0, by decide, by decide, rfl⟩, ?_⟩
      ⟨by decide, rfl⟩
    -- the first two identifiers differ
    rintro p ⟨id, ⟨hp, hid⟩, q, hq, hq', hid'⟩
    by_contra hlt
    obtain ⟨rfl, rfl⟩ : p = 1 ∧ q = 0 := by omega
    have hfirst : faulty.nodes[0].id = 7 := rfl
    have hsecond : faulty.nodes[1].id = 3 := rfl
    rw [← hid', hfirst, hsecond] at hid
    cases hid

end Graph

end FlatGraph
