import Mathlib.Data.List.Sort
import FlatGraph.Image.Parse

/-! # Identifiers and positions

An index of identifiers fits a row of nodes if it is dense and every node carries its own position,
or if it has as many entries as there are nodes, in strictly ascending order, each of which names a
node that carries its identifier (`IdIndex.Fits`).

* `searchEntries_eq_some_iff`: the binary search finds the entry with an identifier.
* `IdIndex.Fits.exists_entry`: every node has an entry. Nothing checks this; there are as many
  entries as nodes, and no two of them name the same node.
* `IdIndex.Fits.find?_eq_some_iff`: an index that fits finds a position exactly if the node there
  carries the identifier. -/

namespace FlatGraph

/-! ### Entries with their numbers -/

theorem mem_zipIdx_toList_iff {α : Type} {xs : Array α} {x : α} {i : Nat} :
    (x, i) ∈ xs.toList.zipIdx ↔ ∃ hi : i < xs.size, xs[i] = x := by
  rw [List.mk_mem_zipIdx_iff_getElem?, Array.getElem?_toList, Array.getElem?_eq_some_iff]

theorem findSome?_zipIdx_eq_none_iff {α β : Type} {xs : Array α} {f : α × Nat → Option β} :
    xs.toList.zipIdx.findSome? f = none ↔ ∀ i (hi : i < xs.size), f (xs[i], i) = none := by
  rw [List.findSome?_eq_none_iff]
  constructor
  · intro h i hi
    exact h _ (mem_zipIdx_toList_iff.mpr ⟨hi, rfl⟩)
  · rintro h ⟨x, i⟩ hx
    obtain ⟨hi, rfl⟩ := mem_zipIdx_toList_iff.mp hx
    exact h i hi

/-! ### Binary search -/

/-- The entries are in strictly ascending order of their identifiers. -/
def Ascending (entries : Array IdEntry) : Prop :=
  entries.toList.Pairwise fun e f => e.id < f.id

theorem Ascending.id_lt {entries : Array IdEntry} (h : Ascending entries) {i j : Nat} (hij : i < j)
    (hj : j < entries.size) : entries[i].id < entries[j].id := by
  have := List.pairwise_iff_getElem.mp h i j (by simpa using Nat.lt_trans hij hj)
    (by simpa using hj) hij
  simpa using this

theorem searchEntries_sound {entries : Array IdEntry} {id : UInt64} {base size : Nat} {e : IdEntry}
    (h : searchEntries entries id base size = some e) : e ∈ entries ∧ e.id = id := by
  fun_induction searchEntries entries id base size with
  | case1 => cases h
  | case2 base size _ middle entry _ _ ih => exact ih h
  | case3 base size _ middle entry _ _ ih => exact ih h
  | case4 base size _ =>
    rw [Option.filter_eq_some_iff] at h
    exact ⟨Array.mem_of_getElem? h.1, by simpa using h.2⟩

/-- The search never drops the entry with the identifier from its window. -/
theorem searchEntries_complete {entries : Array IdEntry} (ha : Ascending entries) {id : UInt64}
    {base size k : Nat} (hbase : base ≤ k) (hk : k < base + size)
    (hsize : base + size ≤ entries.size) (hid : entries[k].id = id) :
    searchEntries entries id base size = some entries[k] := by
  fun_induction searchEntries entries id base size with
  | case1 base size _ middle hm =>
    have := Array.getElem?_eq_none_iff.mp hm
    omega
  | case2 base size _ middle entry hm hlt ih =>
    obtain ⟨hms, rfl⟩ := Array.getElem?_eq_some_iff.mp hm
    have hkm : k < middle := by
      by_contra hge
      rcases Nat.lt_or_eq_of_le (Nat.le_of_not_lt hge) with hmk | hmk
      · have := ha.id_lt hmk (by omega)
        rw [hid] at this
        exact absurd hlt (UInt64.lt_asymm this)
      · subst hmk
        rw [hid] at hlt
        exact UInt64.lt_irrefl _ hlt
    exact ih hbase (by omega) (by omega) hid
  | case3 base size _ middle entry hm hge ih =>
    obtain ⟨hms, rfl⟩ := Array.getElem?_eq_some_iff.mp hm
    have hmk : middle ≤ k := by
      by_contra hlt
      have := ha.id_lt (Nat.lt_of_not_le hlt) hms
      rw [hid] at this
      exact hge this
    exact ih hmk (by omega) (by omega) hid
  | case4 base size hs =>
    obtain rfl : base = k := by omega
    rw [Array.getElem?_eq_getElem (by omega), Option.filter_some, if_pos (by simpa using hid)]

/-- **The binary search** in ascending entries finds the entry with the identifier. -/
theorem searchEntries_eq_some_iff {entries : Array IdEntry} (ha : Ascending entries) {id : UInt64}
    {e : IdEntry} : searchEntries entries id 0 entries.size = some e ↔ e ∈ entries ∧ e.id = id := by
  refine ⟨searchEntries_sound, ?_⟩
  rintro ⟨he, hid⟩
  obtain ⟨k, hk, rfl⟩ := Array.mem_iff_getElem.mp he
  exact searchEntries_complete ha (Nat.zero_le k) (by omega) (by omega) hid

/-! ### Indices that fit -/

/-- **The index fits the nodes**: every identifier is its position, or there are as many ascending
entries as nodes and each names a node with its identifier. -/
inductive IdIndex.Fits (nodes : Array NodeRecord) : IdIndex → Prop
  | dense (positional : ∀ p (hp : p < nodes.size), nodes[p].id.toNat = p) :
    Fits nodes (.dense nodes.size)
  | sparse {entries : Array IdEntry} (size : entries.size = nodes.size)
    (ascending : Ascending entries)
    (named : ∀ e ∈ entries, nodes[e.position.toNat]?.map (·.id) = some e.id) :
    Fits nodes (.sparse entries)

namespace IdIndex

variable {nodes : Array NodeRecord} {entries : Array IdEntry}

theorem fits_dense_iff {count : Nat} : Fits nodes (.dense count) ↔
    count = nodes.size ∧ ∀ p (hp : p < nodes.size), nodes[p].id.toNat = p := by
  constructor
  · rintro ⟨h⟩
    exact ⟨rfl, h⟩
  · rintro ⟨rfl, h⟩
    exact .dense h

theorem fits_sparse_iff : Fits nodes (.sparse entries) ↔
    entries.size = nodes.size ∧ Ascending entries ∧
      ∀ e ∈ entries, nodes[e.position.toNat]?.map (·.id) = some e.id := by
  constructor
  · rintro (_ | ⟨h1, h2, h3⟩)
    exact ⟨h1, h2, h3⟩
  · rintro ⟨h1, h2, h3⟩
    exact .sparse h1 h2 h3

theorem Fits.position_lt (h : Fits nodes (.sparse entries)) {e : IdEntry} (he : e ∈ entries) :
    ∃ hp : e.position.toNat < nodes.size, nodes[e.position.toNat].id = e.id := by
  obtain ⟨n, hn, hid⟩ := Option.map_eq_some_iff.mp ((fits_sparse_iff.mp h).2.2 e he)
  obtain ⟨hp, rfl⟩ := Array.getElem?_eq_some_iff.mp hn
  exact ⟨hp, hid⟩

/-- No two entries name the same node: it carries only one of their identifiers. -/
theorem Fits.nodup_positions (h : Fits nodes (.sparse entries)) :
    (entries.toList.map fun e => e.position.toNat).Nodup := by
  rw [List.Nodup, List.pairwise_map]
  refine (fits_sparse_iff.mp h).2.1.imp_of_mem fun {e f} he hf hlt hpos => ?_
  obtain ⟨hp, hid⟩ := h.position_lt (Array.mem_toList_iff.mp he)
  obtain ⟨hq, hid'⟩ := h.position_lt (Array.mem_toList_iff.mp hf)
  have : e.id = f.id := by
    rw [← hid, ← hid']
    congr 1
    simp only [hpos]
  rw [this] at hlt
  exact UInt64.lt_irrefl _ hlt

/-- **Every node has an entry**, by counting. -/
theorem Fits.exists_entry (h : Fits nodes (.sparse entries)) {p : Nat} (hp : p < nodes.size) :
    ∃ e ∈ entries, e.position.toNat = p := by
  have hsub : (entries.toList.map fun e => e.position.toNat) ⊆ List.range nodes.size := by
    intro q hq
    obtain ⟨e, he, rfl⟩ := List.mem_map.mp hq
    exact List.mem_range.mpr (h.position_lt (Array.mem_toList_iff.mp he)).1
  -- distinct positions below the number of nodes, as many as there are nodes, are all of them
  have hperm := (List.subperm_of_subset h.nodup_positions hsub).perm_of_length_le
    (by rw [List.length_range, List.length_map, Array.length_toList, (fits_sparse_iff.mp h).1])
  obtain ⟨e, he, hep⟩ := List.mem_map.mp (hperm.mem_iff.mpr (List.mem_range.mpr hp))
  exact ⟨e, Array.mem_toList_iff.mp he, hep⟩

/-- **An index that fits** finds a position exactly if the node there carries the identifier. -/
theorem Fits.find?_eq_some_iff {index : IdIndex} (h : index.Fits nodes) {id : UInt64} {p : Nat} :
    index.find? id = some p ↔ ∃ hp : p < nodes.size, nodes[p].id = id := by
  cases index with
  | dense count =>
    obtain ⟨rfl, hid⟩ := fits_dense_iff.mp h
    simp only [find?, Option.ite_none_right_eq_some, Option.some.injEq]
    constructor
    · rintro ⟨hlt, rfl⟩
      exact ⟨hlt, UInt64.toNat_inj.mp (hid _ hlt)⟩
    · rintro ⟨hp, rfl⟩
      rw [hid p hp]
      exact ⟨hp, rfl⟩
  | sparse entries =>
    simp only [find?, Option.map_eq_some_iff,
      searchEntries_eq_some_iff (fits_sparse_iff.mp h).2.1]
    constructor
    · rintro ⟨e, ⟨he, rfl⟩, rfl⟩
      exact h.position_lt he
    · rintro ⟨hp, rfl⟩
      obtain ⟨e, he, rfl⟩ := h.exists_entry hp
      obtain ⟨_, hid⟩ := h.position_lt he
      exact ⟨e, ⟨he, hid.symm⟩, rfl⟩

theorem Fits.positionOf_id {index : IdIndex} (h : index.Fits nodes) {p : Nat}
    (hp : p < nodes.size) : index.positionOf nodes[p].id = .ok p := by
  unfold positionOf
  rw [h.find?_eq_some_iff.mpr ⟨hp, rfl⟩]

end IdIndex

/-! ### The check of the identifiers -/

namespace Image

theorem ascending_iff (entries : List IdEntry) :
    ascending entries = true ↔ entries.Pairwise fun e f => e.id < f.id := by
  fun_induction ascending entries with
  | case1 e f rest ih =>
    rw [Bool.and_eq_true, decide_eq_true_eq, ih, List.pairwise_cons (a := e)]
    constructor
    · rintro ⟨h, hp⟩
      refine ⟨fun g hg => ?_, hp⟩
      rcases List.mem_cons.mp hg with rfl | hg
      · exact h
      · exact UInt64.lt_trans h ((List.pairwise_cons.mp hp).1 g hg)
    · rintro ⟨h, hp⟩
      exact ⟨h f List.mem_cons_self, hp⟩
  | case2 entries hne =>
    match entries, hne with
    | [], _ => simp
    | [e], _ => simp
    | e :: f :: rest, hne => exact (hne e f rest rfl).elim

/-- **The check of the identifiers** passes exactly if the index fits the nodes. -/
theorem idDamage?_eq_none_iff {image : Image} (hs : image.ids.size = image.nodes.size) :
    image.idDamage? = none ↔ image.ids.Fits image.nodes := by
  unfold idDamage?
  cases hi : image.ids with
  | dense count =>
    rw [hi] at hs
    simp only [IdIndex.fits_dense_iff, findSome?_zipIdx_eq_none_iff]
    constructor
    · intro h
      refine ⟨hs, fun p hp => ?_⟩
      by_contra hne
      have hdamage := h p hp
      rw [if_pos hne] at hdamage
      cases hdamage
    · rintro ⟨-, h⟩ p hp
      rw [if_neg (not_not.mpr (h p hp))]
  | sparse entries =>
    rw [hi] at hs
    simp only [IdIndex.fits_sparse_iff, Ascending, ← ascending_iff]
    by_cases ha : ascending entries.toList = true
    · rw [if_pos ha, List.findSome?_eq_none_iff]
      simp only [ha, true_and, entryDamage?, Array.mem_toList_iff]
      refine ⟨fun h => ⟨hs, fun e he => ?_⟩, fun ⟨_, h⟩ e he => if_pos (h e he)⟩
      by_contra hne
      have := h e he
      rw [if_neg hne] at this
      cases this
    · rw [if_neg ha]
      simp [ha]

end Image

end FlatGraph
