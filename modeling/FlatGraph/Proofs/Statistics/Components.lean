import Mathlib.Data.Set.Card
import Mathlib.Data.Setoid.Basic
import FlatGraph.Proofs.Container.Partition

/-! # Components of a graph

The edges of a graph connect positions whatever their direction. Joining the ends of the edges, one
after the other, leaves one class for each component, whatever order the edges come in and whichever
links the searches for roots have left.

* `component`: the positions that the edges connect.
* `Partition.Connects`: the labels of a partition tell the components apart.
  `Partition.exists_joinAll`: they do when the ends of all edges have been joined.
* `Partition.classes_joinAll`: the number of classes is that of the components. -/

namespace FlatGraph

variable {count : Nat} {edges other : List (Nat × Nat)}

/-- An edge leads from a position to another. -/
def Joined (count : Nat) (edges : List (Nat × Nat)) (i j : Fin count) : Prop :=
  (i.val, j.val) ∈ edges

/-- **The positions that the edges connect**, whatever their direction: the least equivalence of the
positions for which the ends of every edge are equivalent. -/
def component (count : Nat) (edges : List (Nat × Nat)) : Setoid (Fin count) :=
  Relation.EqvGen.setoid (Joined count edges)

/-- The components are no more than those of other edges that have the same ends, in whatever
direction. -/
theorem component_le (h : ∀ u v, (u, v) ∈ edges → (u, v) ∈ other ∨ (v, u) ∈ other) :
    component count edges ≤ component count other := by
  refine Setoid.eqvGen_le fun i j hij => ?_
  rcases h _ _ hij with hij | hji
  · exact Relation.EqvGen.rel i j hij
  · exact (Relation.EqvGen.rel j i hji).symm

theorem component_congr
    (h : ∀ u v, (u, v) ∈ edges ∨ (v, u) ∈ edges ↔ (u, v) ∈ other ∨ (v, u) ∈ other) :
    component count edges = component count other :=
  le_antisymm (component_le fun u v huv => (h u v).mp (Or.inl huv))
    (component_le fun u v huv => (h u v).mpr (Or.inl huv))

namespace Partition

/-- Joins the ends of some edges. -/
def joinAll (p : Partition) (edges : List (Nat × Nat)) : Partition :=
  edges.foldl (fun p e => (p.union e.1 e.2).2) p

/-- **One more edge** joins the components of its ends, as a union does the classes. -/
theorem ker_append {label after : Nat → Nat} {e : Nat × Nat}
    (hker : Setoid.ker (fun i : Fin count => label i) = component count edges)
    (hafter : ∀ x y, after x = after y ↔ label x = label y ∨ e.1 < count ∧ e.2 < count ∧
      (label x = label e.1 ∧ label y = label e.2 ∨ label x = label e.2 ∧ label y = label e.1)) :
    Setoid.ker (fun i : Fin count => after i) = component count (edges ++ [e]) := by
  have hold : ∀ i j : Fin count, label i = label j ↔ component count edges i j := by
    intro i j
    rw [← hker]
    exact Iff.rfl
  have hgrows : component count edges ≤ component count (edges ++ [e]) :=
    component_le fun u v huv => Or.inl (List.mem_append_left _ huv)
  refine le_antisymm ?_ ?_
  · intro i j hij
    rcases (hafter i j).mp hij with hij | ⟨ha, hb, hends⟩
    · exact hgrows ((hold i j).mp hij)
    · have hedge : component count (edges ++ [e]) ⟨e.1, ha⟩ ⟨e.2, hb⟩ :=
        Relation.EqvGen.rel _ _ (List.mem_append_right _ List.mem_cons_self)
      rcases hends with ⟨hi, hj⟩ | ⟨hi, hj⟩
      · have hstart := hgrows ((hold i ⟨e.1, ha⟩).mp hi)
        have hend := hgrows ((hold ⟨e.2, hb⟩ j).mp hj.symm)
        exact Setoid.trans' _ hstart (Setoid.trans' _ hedge hend)
      · have hstart := hgrows ((hold i ⟨e.2, hb⟩).mp hi)
        have hend := hgrows ((hold ⟨e.1, ha⟩ j).mp hj.symm)
        exact Setoid.trans' _ hstart (Setoid.trans' _ (Setoid.symm' _ hedge) hend)
  · refine Setoid.eqvGen_le fun i j hij => (hafter i j).mpr ?_
    rcases List.mem_append.mp hij with hij | hij
    · exact Or.inl ((hold i j).mpr (Relation.EqvGen.rel i j hij))
    · obtain rfl := List.mem_singleton.mp hij
      exact Or.inr ⟨i.2, j.2, Or.inl ⟨rfl, rfl⟩⟩

theorem ker_id (count : Nat) : Setoid.ker (fun i : Fin count => id i.val) = component count [] := by
  refine le_antisymm ?_ ?_
  · intro i j hij
    have hij : i = j := Fin.ext hij
    rw [hij]
  · exact Setoid.eqvGen_le fun i j hij => absurd hij List.not_mem_nil

theorem Labelled.range_label {label : Nat → Nat} {p : Partition} (h : Labelled label p) :
    Set.range (fun i : Fin p.size => label i) = (roots label p.size : Set Nat) := by
  ext r
  simp only [Set.mem_range, roots, Finset.coe_filter, Finset.mem_range, Set.mem_ofPred_eq]
  constructor
  · rintro ⟨i, rfl⟩
    exact ⟨h.forest.label_lt i i.2, h.forest.label_label i i.2⟩
  · rintro ⟨hr, hroot⟩
    exact ⟨⟨r, hr⟩, hroot⟩

/-- **The partition has the labels, and they tell the components apart.** -/
structure Connects (count : Nat) (edges : List (Nat × Nat)) (label : Nat → Nat) (p : Partition) :
    Prop where
  labelled : Labelled label p
  size_eq : p.size = count
  ker_eq : Setoid.ker (fun i : Fin count => label i) = component count edges

theorem connects_discrete (count : Nat) : Connects count [] id (discrete count) :=
  ⟨labelled_discrete count, Array.size_ofFn, ker_id count⟩

namespace Connects

variable {label : Nat → Nat} {p : Partition}

theorem exists_union (h : Connects count edges label p) (e : Nat × Nat) :
    ∃ after, Connects count (edges ++ [e]) after (p.union e.1 e.2).2 := by
  obtain ⟨after, hafter, hsize, hiff⟩ := h.labelled.exists_union e.1 e.2
  rw [h.size_eq] at hsize hiff
  exact ⟨after, hafter, hsize, ker_append h.ker_eq hiff⟩

theorem classes_eq (h : Connects count edges label p) :
    p.classes = Nat.card (Quotient (component count edges)) := by
  have hrange := h.labelled.range_label
  rw [h.size_eq] at hrange
  rw [← h.ker_eq, Nat.card_congr (Setoid.quotientKerEquivRange _), hrange, h.labelled.classes,
    h.size_eq, Nat.card_coe_set_eq, Set.ncard_coe_finset]

end Connects

/-- **Joining the ends of all edges** gives two positions one label exactly if the edges connect
them. -/
theorem exists_joinAll (count : Nat) (edges : List (Nat × Nat)) :
    ∃ label, Connects count edges label ((discrete count).joinAll edges) := by
  -- on the edges joined so far
  induction edges using List.reverseRecOn with
  | nil => exact ⟨id, connects_discrete count⟩
  | append_singleton edges e ih =>
    obtain ⟨label, hlabel⟩ := ih
    have hjoin : (discrete count).joinAll (edges ++ [e]) =
        (((discrete count).joinAll edges).union e.1 e.2).2 := List.foldl_append
    rw [hjoin]
    exact hlabel.exists_union e

/-- **The number of classes** is that of the components. -/
theorem classes_joinAll (count : Nat) (edges : List (Nat × Nat)) :
    ((discrete count).joinAll edges).classes = Nat.card (Quotient (component count edges)) := by
  obtain ⟨label, hlabel⟩ := exists_joinAll count edges
  exact hlabel.classes_eq

theorem classes_joinAll_le (count : Nat) (edges : List (Nat × Nat)) :
    ((discrete count).joinAll edges).classes ≤ count := by
  obtain ⟨label, hlabel⟩ := exists_joinAll count edges
  have hle := hlabel.labelled.classes_le
  rwa [hlabel.size_eq] at hle

end Partition

end FlatGraph
