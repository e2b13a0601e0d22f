import Mathlib.Algebra.Order.Ring.Nat
import Mathlib.Data.List.Nodup
import Mathlib.Data.List.Perm.Subperm
import FlatGraph.Proofs.Search.Distance

/-! # The recursive walk

A call on a position marks it, appends it to the order of the walk and takes the targets of its
edges one after the other: a target that is marked is passed over, for any other there is a call one
deeper, which ends before the next target is taken. The marked positions are those of the order.

* `Adjacency.Takes`, `Adjacency.Calls`: what a call does to the walk, as a relation.
* `Adjacency.exists_takes`, `Adjacency.Takes.unique`: every call ends, and in one way only.
* `Adjacency.Calls.mem_order_iff`: the first call marks the positions to which edges lead.
* `Adjacency.Takes.deepest_le_length`: no call is deeper than there are marked positions. -/

namespace FlatGraph

/-- What a recursive walk has done: the positions that it has met, in this order, and the depth of
its deepest call. -/
structure Walk where
  order : List Nat := []
  deepest : Nat := 0

namespace Walk

/-- A call at the given depth meets the position `v`. -/
def meet (w : Walk) (depth v : Nat) : Walk := ⟨w.order ++ [v], max w.deepest depth⟩

/-- The walk has met positions of the graph only, each once. -/
structure Proper (a : Adjacency) (w : Walk) : Prop where
  nodup : w.order.Nodup
  lt_count : ∀ v ∈ w.order, v < a.count

theorem Proper.meet {a : Adjacency} {w : Walk} (h : w.Proper a) {v : Nat} (hv : v < a.count)
    (hnew : v ∉ w.order) (depth : Nat) : (w.meet depth v).Proper a where
  nodup := List.nodup_append.mpr ⟨h.nodup, List.nodup_singleton v, fun x hx y hy => by
    rw [List.mem_singleton.mp hy]
    rintro rfl
    exact hnew hx⟩
  lt_count x hx := by
    rcases List.mem_append.mp hx with hx | hx
    · exact h.lt_count x hx
    · rw [List.mem_singleton.mp hx]
      exact hv

theorem Proper.length_le {a : Adjacency} {w : Walk} (h : w.Proper a) :
    w.order.length ≤ a.count := by
  have hsub : w.order ⊆ List.range a.count := fun v hv => List.mem_range.mpr (h.lt_count v hv)
  have hle := (List.subperm_of_subset h.nodup hsub).length_le
  rwa [List.length_range] at hle

end Walk

namespace Adjacency

/-- **The targets of a call.** A call at the given depth takes some targets in order, and the walk
passes from one state to another. -/
inductive Takes (a : Adjacency) : (depth : Nat) → (targets : List Nat) → (before after : Walk) → Prop
  | done {depth : Nat} {w : Walk} : Takes a depth [] w w
  /-- The target is marked. -/
  | pass {depth target : Nat} {rest : List Nat} {w u : Walk} (marked : target ∈ w.order)
    (others : Takes a depth rest w u) : Takes a depth (target :: rest) w u
  /-- The target is not marked, so there is a call on it. -/
  | call {depth target : Nat} {rest : List Nat} {w u x : Walk} (unmarked : target ∉ w.order)
    (body : Takes a (depth + 1) (a.out target) (w.meet (depth + 1) target) u)
    (others : Takes a depth rest u x) : Takes a depth (target :: rest) w x

/-- **A call** at the given depth on a position that is not marked. -/
def Calls (a : Adjacency) (depth v : Nat) (before after : Walk) : Prop :=
  Takes a depth (a.out v) (before.meet depth v) after

variable {a : Adjacency} {depth start : Nat} {targets : List Nat} {w u x : Walk}

/-! ### What a call leaves as it was -/

theorem Takes.prefix_order (h : a.Takes depth targets w u) : w.order <+: u.order := by
  induction h with
  | done => exact List.prefix_rfl
  | pass _ _ ih => exact ih
  | call _ _ _ ihbody ihothers =>
    exact (List.prefix_append _ _).trans (ihbody.trans ihothers)

theorem Takes.mem_of_mem (h : a.Takes depth targets w u) {v : Nat} (hv : v ∈ w.order) :
    v ∈ u.order := h.prefix_order.subset hv

theorem Takes.le_deepest (h : a.Takes depth targets w u) : w.deepest ≤ u.deepest := by
  induction h with
  | done => exact le_rfl
  | pass _ _ ih => exact ih
  | call _ _ _ ihbody ihothers => exact (le_max_left _ _).trans (ihbody.trans ihothers)

theorem Takes.proper (hc : a.Closed) (h : a.Takes depth targets w u) (hw : w.Proper a)
    (ht : ∀ t ∈ targets, t < a.count) : u.Proper a := by
  induction h with
  | done => exact hw
  | @pass _ target _ _ _ _ _ ih => exact ih hw fun t h => ht t (List.mem_cons_of_mem target h)
  | @call _ target _ _ _ _ hnew _ _ ihbody ihothers =>
    have hlt := ht target List.mem_cons_self
    exact ihothers (ihbody (hw.meet hlt hnew _) (hc target hlt)) fun t h =>
      ht t (List.mem_cons_of_mem target h)

/-! ### Every call ends, in one way -/

theorem Takes.unique (h : a.Takes depth targets w u) (hx : a.Takes depth targets w x) : u = x := by
  induction h generalizing x with
  | done =>
    cases hx
    rfl
  | pass hmarked _ ih =>
    cases hx with
    | pass _ others => exact ih others
    | call hnew _ _ => exact absurd hmarked hnew
  | call hnew _ _ ihbody ihothers =>
    cases hx with
    | pass hmarked _ => exact absurd hmarked hnew
    | call _ body others =>
      obtain rfl := ihbody body
      exact ihothers others

theorem exists_takes (hc : a.Closed) (hw : w.Proper a) (depth : Nat)
    (ht : ∀ t ∈ targets, t < a.count) : ∃ u, a.Takes depth targets w u := by
  -- on the positions that are not marked, and for as many of them on the targets
  induction hn : a.count - w.order.length using Nat.strong_induction_on
    generalizing w depth targets with
  | h n ih =>
    subst hn
    induction targets with
    | nil => exact ⟨w, .done⟩
    | cons target rest ihrest =>
      have hlt := ht target List.mem_cons_self
      have hrest := fun t h => ht t (List.mem_cons_of_mem target h)
      by_cases hmem : target ∈ w.order
      · obtain ⟨u, hu⟩ := ihrest hrest
        exact ⟨u, .pass hmem hu⟩
      · have hmeet := hw.meet hlt hmem (depth + 1)
        have hlength : (w.meet (depth + 1) target).order.length = w.order.length + 1 :=
          List.length_append
        have hroom := hmeet.length_le
        obtain ⟨u, hu⟩ := ih _ (by omega) hmeet (depth + 1) (hc target hlt) rfl
        have hlonger := hu.prefix_order.length_le
        obtain ⟨x, hx⟩ := ih _ (by omega) (hu.proper hc hmeet (hc target hlt)) depth hrest rfl
        exact ⟨x, .call hmem hu hx⟩

/-! ### What a call marks -/

theorem Takes.mem_of_target (h : a.Takes depth targets w u) {t : Nat} (ht : t ∈ targets) :
    t ∈ u.order := by
  induction h with
  | done => cases ht
  | pass hmarked others ih =>
    rcases List.mem_cons.mp ht with rfl | ht
    · exact others.mem_of_mem hmarked
    · exact ih ht
  | call _ body others _ ihothers =>
    rcases List.mem_cons.mp ht with rfl | ht
    · exact others.mem_of_mem (body.mem_of_mem
        (List.mem_append_right _ (List.mem_singleton_self _)))
    · exact ihothers ht

/-- All targets of a position that is newly marked are marked in the end. -/
theorem Takes.closed (h : a.Takes depth targets w u) {v : Nat} (hv : v ∈ u.order) :
    v ∈ w.order ∨ ∀ t ∈ a.out v, t ∈ u.order := by
  induction h with
  | done => exact Or.inl hv
  | pass _ _ ih => exact ih hv
  | call _ body others ihbody ihothers =>
    rcases ihothers hv with hv | hclosed
    · rcases ihbody hv with hv | hclosed
      · rcases List.mem_append.mp hv with hv | hv
        · exact Or.inl hv
        · rw [List.mem_singleton.mp hv]
          exact Or.inr fun t ht => others.mem_of_mem (body.mem_of_target ht)
      · exact Or.inr fun t ht => others.mem_of_mem (hclosed t ht)
    · exact Or.inr hclosed

theorem Takes.reached (h : a.Takes depth targets w u) {v : Nat} (hv : v ∈ u.order) :
    v ∈ w.order ∨ ∃ t ∈ targets, a.Reaches t v := by
  induction h with
  | done => exact Or.inl hv
  | @pass _ target _ _ _ _ _ ih =>
    rcases ih hv with hv | ⟨t, ht, hreach⟩
    · exact Or.inl hv
    · exact Or.inr ⟨t, List.mem_cons_of_mem target ht, hreach⟩
  | @call _ target _ _ _ _ _ _ _ ihbody ihothers =>
    rcases ihothers hv with hv | ⟨t, ht, hreach⟩
    · rcases ihbody hv with hv | ⟨t, ht, hreach⟩
      · rcases List.mem_append.mp hv with hv | hv
        · exact Or.inl hv
        · rw [List.mem_singleton.mp hv]
          exact Or.inr ⟨target, List.mem_cons_self, .refl⟩
      · exact Or.inr ⟨target, List.mem_cons_self, .head ht hreach⟩
    · exact Or.inr ⟨t, List.mem_cons_of_mem target ht, hreach⟩

/-- **No call is deeper than there are marked positions**, since all callers are marked. -/
theorem Takes.deepest_le_length (h : a.Takes depth targets w u) (hd : depth ≤ w.order.length)
    (hw : w.deepest ≤ w.order.length) : u.deepest ≤ u.order.length := by
  induction h with
  | done => exact hw
  | pass _ _ ih => exact ih hd hw
  | @call depth target _ w _ _ _ body _ ihbody ihothers =>
    have hlength : (w.meet (depth + 1) target).order.length = w.order.length + 1 :=
      List.length_append
    have hbody := ihbody (by omega) (by rw [hlength]; exact max_le (by omega) (by omega))
    have hlonger := body.prefix_order.length_le
    exact ihothers (by omega) hbody

/-! ### The first call -/

theorem proper_first (hs : start < a.count) (depth : Nat) :
    (Walk.meet {} depth start).Proper a :=
  Walk.Proper.meet ⟨List.nodup_nil, fun _ hv => absurd hv List.not_mem_nil⟩ hs List.not_mem_nil depth

theorem exists_calls (hc : a.Closed) (hs : start < a.count) (depth : Nat) :
    ∃ w, a.Calls depth start {} w := exists_takes hc (proper_first hs depth) depth (hc start hs)

theorem Calls.proper (hc : a.Closed) (hs : start < a.count) (h : a.Calls depth start {} w) :
    w.Proper a := Takes.proper hc h (proper_first hs depth) (hc start hs)

/-- **The positions that the walk marks** are those to which edges lead from its start. -/
theorem Calls.mem_order_iff (h : a.Calls depth start {} w) {v : Nat} :
    v ∈ w.order ↔ a.Reaches start v := by
  constructor
  · intro hv
    rcases Takes.reached h hv with hv | ⟨t, ht, hreach⟩
    · rw [List.mem_singleton.mp hv]
      exact .refl
    · exact .head ht hreach
  · intro hreach
    induction hreach with
    | refl => exact Takes.mem_of_mem h (List.mem_singleton_self start)
    | tail _ hedge ih =>
      rcases Takes.closed h ih with hv | hclosed
      · rw [List.mem_singleton.mp hv] at hedge
        exact Takes.mem_of_target h hedge
      · exact hclosed _ hedge

theorem Calls.deepest_le (hc : a.Closed) (hs : start < a.count) (h : a.Calls 1 start {} w) :
    w.deepest ≤ a.count :=
  (Takes.deepest_le_length h le_rfl le_rfl).trans (Calls.proper hc hs h).length_le

end Adjacency

end FlatGraph
