import FlatGraph.Proofs.Image.Adjacency

/-! # Looking identifiers up in an accepted file

In an accepted file identifiers and positions are in bijection, whether its identifiers are their
positions or are found in an index. The look-up answers by the node table alone: two accepted files
whose nodes carry the same identifiers answer every look-up alike.

* `Image.Sound.positionOf_eq_ok_iff`, `Image.Sound.positionOf_of_absent`: what is answered for an
  identifier that a node carries, and for one that none carries.
* `Image.identifiers_of_accepted`: the identifiers of every accepted file. -/

namespace FlatGraph.Image

variable {image other : Image}

theorem size_nodes_of_parse {b : ByteArray} (h : parse b = .ok image) :
    image.nodes.size = image.header.nodeCount.toNat := by
  obtain ⟨-, rfl⟩ := parse_eq_ok_iff.mp h
  rw [ofFile_nodes, ofFile_header, size_nodesOf]

theorem size_edges_of_parse {b : ByteArray} (h : parse b = .ok image) :
    image.edges.size = image.header.edgeCount.toNat := by
  obtain ⟨-, rfl⟩ := parse_eq_ok_iff.mp h
  rw [ofFile_edges, ofFile_header]
  exact Table.size_readAt _ _ _

theorem getElem?_ids {ids : Array UInt64} (h : image.nodes.map NodeRecord.id = ids) {p : Nat}
    (hp : p < image.nodes.size) : ids[p]? = some image.nodes[p].id := by
  rw [← h, Array.getElem?_map, Array.getElem?_eq_getElem hp]
  rfl

namespace Sound

variable (hs : image.Sound)
include hs

theorem size_ids : image.ids.size = image.nodes.size := by
  have hfits := hs.ids
  cases hi : image.ids with
  | dense count =>
    rw [hi] at hfits
    exact (IdIndex.fits_dense_iff.mp hfits).1
  | sparse entries =>
    rw [hi] at hfits
    exact (IdIndex.fits_sparse_iff.mp hfits).1

/-- **A position is answered** exactly if the node there carries the identifier. -/
theorem positionOf_eq_ok_iff {id : UInt64} {p : Nat} : image.positionOf id = .ok p ↔
    ∃ hp : p < image.nodes.size, image.nodes[p].id = id := by
  rw [← hs.ids.find?_eq_some_iff]
  unfold positionOf IdIndex.positionOf
  cases image.ids.find? id with
  | none => simp
  | some q => simp

/-- **An identifier that no node carries** is refused with its name and the number of nodes. -/
theorem positionOf_of_absent {id : UInt64}
    (h : ∀ p (hp : p < image.nodes.size), image.nodes[p].id ≠ id) :
    image.positionOf id = .error (.outOfRange .nodeId id.toNat image.nodes.size) := by
  have hfind : image.ids.find? id = none := by
    rw [Option.eq_none_iff_forall_ne_some]
    intro p hp
    obtain ⟨hlt, hid⟩ := hs.ids.find?_eq_some_iff.mp hp
    exact h p hlt hid
  unfold positionOf IdIndex.positionOf
  rw [hfind, hs.size_ids]

theorem positionOf_id {p : Nat} (hp : p < image.nodes.size) :
    image.positionOf image.nodes[p].id = .ok p := hs.positionOf_eq_ok_iff.mpr ⟨hp, rfl⟩

theorem eq_of_id_eq {p q : Nat} (hp : p < image.nodes.size) (hq : q < image.nodes.size)
    (heq : image.nodes[p].id = image.nodes[q].id) : p = q := by
  have hfound := hs.positionOf_id hp
  rw [heq, hs.positionOf_id hq] at hfound
  exact (Except.ok.inj hfound).symm

/-- **The node table alone** tells what is answered for an identifier. -/
theorem positionOf_congr (ho : other.Sound)
    (hids : image.nodes.map NodeRecord.id = other.nodes.map NodeRecord.id) (id : UInt64) :
    image.positionOf id = other.positionOf id := by
  have hsize : image.nodes.size = other.nodes.size := by simpa using congrArg Array.size hids
  have hid : ∀ p (hp : p < image.nodes.size) (hp' : p < other.nodes.size),
      image.nodes[p].id = other.nodes[p].id := by
    intro p hp hp'
    have hat := getElem?_ids hids hp
    rw [getElem?_ids rfl hp'] at hat
    exact (Option.some.inj hat).symm
  by_cases hfound : ∃ p, ∃ hp : p < image.nodes.size, image.nodes[p].id = id
  · obtain ⟨p, hp, rfl⟩ := hfound
    have hp' : p < other.nodes.size := by omega
    rw [hs.positionOf_id hp, hid p hp hp', ho.positionOf_id hp']
  · push Not at hfound
    have habsent : ∀ p (hp : p < other.nodes.size), other.nodes[p].id ≠ id := by
      intro p hp
      rw [← hid p (by omega) hp]
      exact hfound p (by omega)
    rw [hs.positionOf_of_absent hfound, ho.positionOf_of_absent habsent, hsize]

end Sound

/-- **The identifiers of an accepted file** and its positions are in bijection. An identifier is
found at a position exactly if the node there carries it, and is refused if no node does; no two
nodes carry one identifier, and every node is found by its own. -/
theorem identifiers_of_accepted {b : ByteArray} (h : parse b = .ok image) :
    image.nodes.size = image.header.nodeCount.toNat ∧
    (∀ id p, image.positionOf id = .ok p ↔
      ∃ hp : p < image.nodes.size, image.nodes[p].id = id) ∧
    (∀ id, (∀ p (hp : p < image.nodes.size), image.nodes[p].id ≠ id) →
      image.positionOf id =
        .error (.outOfRange .nodeId id.toNat image.header.nodeCount.toNat)) ∧
    (∀ p q (hp : p < image.nodes.size) (hq : q < image.nodes.size),
      image.nodes[p].id = image.nodes[q].id → p = q) ∧
    (∀ p < image.nodes.size, ∃ id, image.idOf p = .ok id ∧ image.positionOf id = .ok p) := by
  have hs := Sound.of_parse h
  have hsize := size_nodes_of_parse h
  refine ⟨hsize, fun id p => hs.positionOf_eq_ok_iff, fun id hid => ?_,
    fun p q hp hq => hs.eq_of_id_eq hp hq, fun p hp => ⟨image.nodes[p].id, ?_, ?_⟩⟩
  · rw [hs.positionOf_of_absent hid, hsize]
  · unfold idOf
    rw [node_of_lt hp]
    rfl
  · exact hs.positionOf_id hp

theorem identifiers_of_accepted_sample : ∃ b image, parse b = .ok image ∧
    image.positionOf 3 = .ok 1 ∧
    image.positionOf 1 = .error (.outOfRange .nodeId 1 image.header.nodeCount.toNat) := by
  obtain ⟨b, image, h, hids⟩ := Graph.exists_parse_sample_ids
  obtain ⟨-, hfound, hrefused, -⟩ := identifiers_of_accepted h
  have hsize : image.nodes.size = 2 := by simpa using congrArg Array.size hids
  refine ⟨b, image, h, (hfound 3 1).mpr ⟨by omega, ?_⟩, hrefused 1 fun p hp hid => ?_⟩
  · have hone := getElem?_ids hids (show 1 < image.nodes.size by omega)
    exact (Option.some.inj hone).symm
  · have hat := getElem?_ids hids hp
    rw [hid] at hat
    have hmem := Array.mem_of_getElem? hat
    simp at hmem

end FlatGraph.Image
