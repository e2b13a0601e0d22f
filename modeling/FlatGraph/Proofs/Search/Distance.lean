import Mathlib.Data.Fintype.Card
import Mathlib.Data.Nat.Find
import Mathlib.Logic.Relation
import FlatGraph.Search.Adjacency

/-! # Ways and distances

A way leads along edges, each step to one of the targets of the position it leaves. The distance of
a position is the least number of steps of a way to it (`Adjacency.Hop`).

* `Adjacency.hop_succ_iff`: the positions one step further are the targets of the positions at a
  distance that are not at this or a lesser distance. Every search by levels rests on it.
* `Adjacency.not_hop_of_le`: beyond a distance at which there is no position there is none.
* `Adjacency.Hop.level_lt`: so distances stay below the number of positions. -/

namespace FlatGraph.Adjacency

/-- A way of `k` steps leads from a position to another. -/
inductive Way (a : Adjacency) (start : Nat) : (k : Nat) → (v : Nat) → Prop
  | refl : Way a start 0 start
  | step {k u v : Nat} (way : Way a start k u) (edge : v ∈ a.out u) : Way a start (k + 1) v

/-- The position `v` is at distance `k`: no way to it is shorter. -/
def Hop (a : Adjacency) (start v k : Nat) : Prop :=
  Way a start k v ∧ ∀ j < k, ¬ Way a start j v

/-- Edges lead from a position to another, one after the other. -/
def Reaches (a : Adjacency) : Nat → Nat → Prop := Relation.ReflTransGen fun u v => v ∈ a.out u

variable {a : Adjacency} {start : Nat}

theorem way_zero_iff {v : Nat} : a.Way start 0 v ↔ v = start := by
  constructor
  · rintro ⟨⟩
    rfl
  · rintro rfl
    exact .refl

theorem way_succ_iff {k v : Nat} :
    a.Way start (k + 1) v ↔ ∃ u, a.Way start k u ∧ v ∈ a.out u := by
  constructor
  · rintro (_ | ⟨hw, he⟩)
    exact ⟨_, hw, he⟩
  · rintro ⟨u, hw, he⟩
    exact .step hw he

theorem Way.lt_count (hc : a.Closed) (hs : start < a.count) {k v : Nat} (h : a.Way start k v) :
    v < a.count := by
  induction h with
  | refl => exact hs
  | step _ he ih => exact hc _ ih _ he

theorem Way.exists_hop {k v : Nat} (h : a.Way start k v) : ∃ j ≤ k, a.Hop start v j := by
  classical
  have hex : ∃ j, a.Way start j v := ⟨k, h⟩
  exact ⟨Nat.find hex, Nat.find_min' hex h, Nat.find_spec hex, fun _ hj => Nat.find_min hex hj⟩

theorem Hop.lt_count (hc : a.Closed) (hs : start < a.count) {v k : Nat} (h : a.Hop start v k) :
    v < a.count := h.1.lt_count hc hs

theorem Hop.unique {v j k : Nat} (hj : a.Hop start v j) (hk : a.Hop start v k) : j = k := by
  rcases Nat.lt_trichotomy j k with h | h | h
  · exact absurd hj.1 (hk.2 j h)
  · exact h
  · exact absurd hk.1 (hj.2 k h)

theorem hop_zero_iff {v : Nat} : a.Hop start v 0 ↔ v = start := by
  rw [Hop, way_zero_iff]
  simp

/-- **The positions one step further**: targets of those at distance `k` that are not as near. -/
theorem hop_succ_iff {v k : Nat} : a.Hop start v (k + 1) ↔
    (∃ u, a.Hop start u k ∧ v ∈ a.out u) ∧ ∀ j ≤ k, ¬ a.Hop start v j := by
  constructor
  · rintro ⟨hw, hmin⟩
    obtain ⟨u, hu, he⟩ := way_succ_iff.mp hw
    refine ⟨⟨u, ⟨hu, fun j hj huj => ?_⟩, he⟩, fun j hj hv => hmin j (by omega) hv.1⟩
    exact hmin (j + 1) (by omega) (.step huj he)
  · rintro ⟨⟨u, hu, he⟩, hnot⟩
    refine ⟨.step hu.1 he, fun j hj hv => ?_⟩
    obtain ⟨i, hi, hvi⟩ := hv.exists_hop
    exact hnot i (by omega) hvi

theorem not_hop_of_le {k : Nat} (h : ∀ v, ¬ a.Hop start v k) {j : Nat} (hj : k ≤ j) (v : Nat) :
    ¬ a.Hop start v j := by
  induction j, hj using Nat.le_induction generalizing v with
  | base => exact h v
  | succ j _ ih =>
    intro hv
    obtain ⟨⟨u, hu, -⟩, -⟩ := hop_succ_iff.mp hv
    exact ih u hu

theorem reaches_iff {v : Nat} : a.Reaches start v ↔ ∃ k, a.Way start k v := by
  constructor
  · intro h
    induction h with
    | refl => exact ⟨0, .refl⟩
    | tail _ hedge ih =>
      obtain ⟨k, hway⟩ := ih
      exact ⟨k + 1, .step hway hedge⟩
  · rintro ⟨k, hway⟩
    induction hway with
    | refl => exact .refl
    | step _ hedge ih => exact ih.tail hedge

theorem exists_hop_iff {v : Nat} : (∃ k, a.Hop start v k) ↔ ∃ k, a.Way start k v := by
  constructor
  · rintro ⟨k, hv⟩
    exact ⟨k, hv.1⟩
  · rintro ⟨k, hway⟩
    obtain ⟨j, -, hv⟩ := hway.exists_hop
    exact ⟨j, hv⟩

theorem Hop.exists_of_le {v j k : Nat} (h : a.Hop start v k) (hj : j ≤ k) :
    ∃ u, a.Hop start u j := by
  by_contra hnone
  push Not at hnone
  exact not_hop_of_le hnone hj v h

/-- **Distances stay below the number of positions**, since positions at different distances are
different. -/
theorem Hop.level_lt (hc : a.Closed) (hs : start < a.count) {v k : Nat} (h : a.Hop start v k) :
    k < a.count := by
  choose position hposition using fun j : Fin (k + 1) => h.exists_of_le (Nat.le_of_lt_succ j.2)
  have hinj : Function.Injective fun j =>
      (⟨position j, (hposition j).lt_count hc hs⟩ : Fin a.count) := by
    intro i j hij
    have heq : position i = position j := congrArg Fin.val hij
    have hi := hposition i
    rw [heq] at hi
    exact Fin.ext (hi.unique (hposition j))
  have hcard := Fintype.card_le_of_injective _ hinj
  rwa [Fintype.card_fin, Fintype.card_fin] at hcard

end FlatGraph.Adjacency
