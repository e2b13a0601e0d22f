import Mathlib.Combinatorics.SimpleGraph.Connectivity.Connected
import FlatGraph.Proofs.Search.Roots

/-! # The two counts of components

Weak components are those of the undirected graph. Each of them has a lowest position, which no
lower position reaches, so a sweep starts in it: there are at least as many sweeps as components.
Two sweeps start in one component only if some edge has none that leads back.

* `Image.undirected`: the graph whose components the weak count is of, with
  `Image.Sound.card_components`.
* `Image.Sound.exists_root`: a sweep starts in every component. `Image.root_injective`: and only one,
  if every edge has one that leads back.
* `Image.components_of_accepted`: both counts of an accepted file. -/

namespace FlatGraph.Image

variable {image : Image}

/-- **The undirected graph** on all positions: two of them are joined if an edge leads from one of
them to the other. -/
def undirected (image : Image) : SimpleGraph (Fin image.nodes.size) :=
  SimpleGraph.fromRel fun u v => image.Link u v

theorem link_iff_mem_ends {u v : Nat} : image.Link u v ↔ (u, v) ∈ image.ends := by
  rw [ends, List.mem_map]
  simp only [Array.mem_toList_iff, Prod.mk.injEq, Link]

theorem reachable_of_link {u v : Fin image.nodes.size} (h : image.Link u v) :
    image.undirected.Reachable u v := by
  rcases eq_or_ne u v with rfl | hne
  · exact SimpleGraph.Reachable.refl u
  · exact SimpleGraph.Adj.reachable ((SimpleGraph.fromRel_adj _ u v).mpr ⟨hne, Or.inl h⟩)

/-! ### Weak components -/

/-- The positions that the edges connect are those joined by paths of the undirected graph. -/
theorem component_eq_reachable (image : Image) :
    component image.nodes.size image.ends = image.undirected.reachableSetoid := by
  refine le_antisymm (Setoid.eqvGen_le fun u v huv => ?_) fun u v huv => ?_
  · exact reachable_of_link (link_iff_mem_ends.mpr huv)
  · have hpath := (SimpleGraph.reachable_iff_reflTransGen u v).mp huv
    induction hpath with
    | refl => exact Setoid.refl' _ u
    | @tail v w hpath hadj ih =>
      have ih := ih ((SimpleGraph.reachable_iff_reflTransGen u v).mpr hpath)
      refine Setoid.trans' _ ih ?_
      rcases ((SimpleGraph.fromRel_adj _ v w).mp hadj).2 with hlink | hlink
      · exact Relation.EqvGen.rel v w (link_iff_mem_ends.mp hlink)
      · exact (Relation.EqvGen.rel w v (link_iff_mem_ends.mp hlink)).symm

/-- **The weak components** are the connected components of the undirected graph. -/
theorem componentCount_weak_eq (image : Image) :
    image.componentCount .weak = .ok (Nat.card image.undirected.ConnectedComponent) := by
  show Except.ok (weakComponents image.nodes.size image.ends) = _
  rw [weakComponents_eq, Partition.classes_joinAll, component_eq_reachable]
  rfl

/-! ### Sweeps -/

theorem Sound.reachable_of_reaches (hs : image.Sound) {u v : Nat} (h : image.Reaches u v)
    (hu : u < image.nodes.size) (hv : v < image.nodes.size) :
    image.undirected.Reachable ⟨u, hu⟩ ⟨v, hv⟩ := by
  induction h with
  | refl => exact SimpleGraph.Reachable.refl _
  | @tail v w _ hlink ih =>
    have hv' : v < image.nodes.size := by
      obtain ⟨e, he, rfl, -⟩ := hlink
      obtain ⟨i, hi, rfl⟩ := Array.mem_iff_getElem.mp he
      exact (hs.ends i hi).1
    exact (ih hv').trans (reachable_of_link hlink)

theorem reaches_of_reachable (hback : ∀ u v, image.Link u v → image.Link v u)
    {u v : Fin image.nodes.size} (h : image.undirected.Reachable u v) : image.Reaches u v := by
  have hpath := (SimpleGraph.reachable_iff_reflTransGen u v).mp h
  refine Relation.ReflTransGen.lift Fin.val (fun v w hadj => ?_) u v hpath
  rcases ((SimpleGraph.fromRel_adj _ v w).mp hadj).2 with hlink | hlink
  · exact hlink
  · exact hback _ _ hlink

section

variable {roots : Finset Nat}
  (hroots : ∀ p, p ∈ roots ↔ p < image.nodes.size ∧ ∀ q < p, ¬ image.Reaches q p)
include hroots

/-- The component that a sweep starts in. -/
def rootComponent (root : roots) : image.undirected.ConnectedComponent :=
  image.undirected.connectedComponentMk ⟨root, ((hroots root).mp root.2).1⟩

/-- **A sweep starts in every component**, at the lowest of its positions. -/
theorem Sound.exists_root (hs : image.Sound) : Function.Surjective (rootComponent hroots) := by
  classical
  intro c
  obtain ⟨v, hv⟩ := c.exists_rep
  have hinhabited : ∃ p, ∃ hp : p < image.nodes.size,
      image.undirected.connectedComponentMk ⟨p, hp⟩ = c := ⟨v, v.2, hv⟩
  obtain ⟨hp, hmember⟩ := Nat.find_spec hinhabited
  refine ⟨⟨Nat.find hinhabited, (hroots _).mpr ⟨hp, fun q hq hreach => ?_⟩⟩, hmember⟩
  have hq' := hq.trans hp
  have hsame := SimpleGraph.ConnectedComponent.eq.mpr (hs.reachable_of_reaches hreach hq' hp)
  exact Nat.find_min hinhabited hq ⟨hq', hsame.trans hmember⟩

/-- **Only one sweep starts in a component** if every edge has one that leads back. -/
theorem root_injective (hback : ∀ u v, image.Link u v → image.Link v u) :
    Function.Injective (rootComponent hroots) := by
  intro p q hpq
  have hreach := SimpleGraph.ConnectedComponent.eq.mp hpq
  have hp := (hroots p).mp p.2
  have hq := (hroots q).mp q.2
  rcases Nat.lt_trichotomy p.1 q.1 with hlt | heq | hlt
  · exact absurd (reaches_of_reachable hback hreach) (hq.2 p hlt)
  · exact Subtype.ext heq
  · exact absurd (reaches_of_reachable hback hreach.symm) (hp.2 q hlt)

/-- There are at least as many sweeps as components, and at most as many as positions. -/
theorem Sound.card_components (hs : image.Sound) :
    Nat.card image.undirected.ConnectedComponent ≤ roots.card ∧
      roots.card ≤ image.nodes.size := by
  constructor
  · have hle := Nat.card_le_card_of_surjective _ (hs.exists_root hroots)
    rwa [Nat.card_eq_fintype_card (α := roots), Fintype.card_coe] at hle
  · have hsub : roots ⊆ Finset.range image.nodes.size :=
      fun p hp => Finset.mem_range.mpr ((hroots p).mp hp).1
    exact (Finset.card_le_card hsub).trans_eq (Finset.card_range _)

theorem Sound.card_components_eq (hs : image.Sound)
    (hback : ∀ u v, image.Link u v → image.Link v u) :
    Nat.card image.undirected.ConnectedComponent = roots.card := by
  rw [← Nat.card_eq_of_bijective _ ⟨root_injective hroots hback, hs.exists_root hroots⟩,
    Nat.card_eq_fintype_card (α := roots), Fintype.card_coe]

end

/-- **The two counts of an accepted file** are answered without a fault. The weak count is the
number of connected components of the undirected graph. The sweeps are at least as many, and at most
as many as the nodes; they are exactly as many if for every edge there is one that leads back. -/
theorem components_of_accepted {b : ByteArray} (h : parse b = .ok image) :
    ∃ weak sweeps, image.componentCount .weak = .ok weak ∧
      image.componentCount .reachability = .ok sweeps ∧
      weak = Nat.card image.undirected.ConnectedComponent ∧
      weak ≤ sweeps ∧ sweeps ≤ image.header.nodeCount.toNat ∧
      ((∀ e ∈ image.edges, ∃ f ∈ image.edges, f.source = e.target ∧ f.target = e.source) →
        weak = sweeps) := by
  have hs := Sound.of_parse h
  obtain ⟨roots, hroots, hsweeps⟩ :=
    (SweepState.Swept.initial image.adjacency).sweepsFrom hs.closed
  rw [hs.adjacency_reaches] at hroots
  obtain ⟨hweak, hcount⟩ := hs.card_components hroots
  refine ⟨_, _, componentCount_weak_eq image, hsweeps, rfl, hweak, ?_, fun hback => ?_⟩
  · rwa [← size_nodes_of_parse h]
  · refine hs.card_components_eq hroots ?_
    rintro _ _ ⟨e, he, rfl, rfl⟩
    obtain ⟨f, hf, hsource, htarget⟩ := hback e he
    exact ⟨f, hf, by rw [hsource], by rw [htarget]⟩

theorem components_of_accepted_sample : ∃ b image weak sweeps, parse b = .ok image ∧
    image.componentCount .weak = .ok weak ∧ image.componentCount .reachability = .ok sweeps ∧
    0 < weak ∧ weak ≤ sweeps ∧ sweeps ≤ 2 := by
  obtain ⟨b, image, h, hnodes, -⟩ := Graph.exists_parse_sample
  obtain ⟨weak, sweeps, hweak, hsweeps, hcard, hle, hcount, -⟩ := components_of_accepted h
  rw [← size_nodes_of_parse h, hnodes] at hcount
  -- the component of the first position
  have hinhabited : Nonempty image.undirected.ConnectedComponent :=
    ⟨image.undirected.connectedComponentMk ⟨0, by omega⟩⟩
  exact ⟨b, image, weak, sweeps, h, hweak, hsweeps, by rw [hcard]; exact Nat.card_pos, hle, hcount⟩

end FlatGraph.Image
