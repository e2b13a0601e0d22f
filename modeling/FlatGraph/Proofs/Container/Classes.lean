import Mathlib.Logic.Relation
import FlatGraph.Proofs.Statistics.Components

/-! # The classes that unions make

Whatever searches and unions are made on a partition, its links lead every position to one
representative, and two positions have the same exactly if the unions connect them. A search is a
loop that relinks the positions it passes; it ends, answers the representative, and leaves those of
all positions as they are. A union leaves all but those of the smaller class.

* `Represents`: the links lead from a position to its representative.
* `Searches`: the search as a loop that nothing bounds. `Searches.unique`: it ends in one way only.
* `Labelled.represents_iff`: the representatives are the labels.
* `Faithful`: the partition has the classes. `faithful_run`: after every run it has those of its
  unions. -/

namespace FlatGraph.Partition

/-! ### Representatives -/

/-- Position `x` is linked to `y`. -/
def Linked (p : Partition) (x y : Nat) : Prop := p.parents[x]? = some y

/-- **The links lead from `x` to its representative**, which is linked to itself. -/
def Represents (p : Partition) (r x : Nat) : Prop :=
  Relation.ReflTransGen p.Linked x r ∧ p.Linked r r

/-- The positions that a position represents. -/
def classOf (p : Partition) (r : Nat) : Set Nat := {x | p.Represents r x}

variable {label : Nat → Nat} {p : Partition} {a b r s x y : Nat}

theorem Linked.lt (h : p.Linked x y) : x < p.size := (Array.getElem?_eq_some_iff.mp h).1

theorem exists_linked (hx : x < p.size) : ∃ y, p.Linked x y := ⟨_, Array.getElem?_eq_getElem hx⟩

namespace Labelled

variable (h : Labelled label p)
include h

theorem label_eq_of_linked (hxy : Relation.ReflTransGen p.Linked x y) : label y = label x := by
  induction hxy with
  | refl => rfl
  | tail _ hlink ih => rw [h.forest.label_parent _ _ hlink, ih]

/-- The links lead to the labels, since the sizes grow along them. -/
theorem represents_label (hx : x < p.size) : p.Represents (label x) x := by
  induction hn : p.size - p.sizes.getD x 0 using Nat.strong_induction_on generalizing x with
  | h n ih =>
    obtain ⟨y, hy⟩ := exists_linked hx
    by_cases hroot : y = x
    · rw [(h.forest.root_iff x y hy).mp hroot]
      rw [hroot] at hy
      exact ⟨.refl, hy⟩
    · have hylt := h.forest.parent_lt x y hy
      have hsize := h.forest.size_lt x y hy hroot
      have hle := h.size_le y hylt
      obtain ⟨hway, hself⟩ := ih _ (by omega) hylt rfl
      rw [h.forest.label_parent x y hy] at hway hself
      exact ⟨hway.head hy, hself⟩

/-- **The representative of a position is its label.** -/
theorem represents_iff : p.Represents r x ↔ x < p.size ∧ r = label x := by
  constructor
  · rintro ⟨hway, hself⟩
    have hx : x < p.size := by
      rcases hway.cases_head with rfl | ⟨y, hy, -⟩
      · exact hself.lt
      · exact hy.lt
    refine ⟨hx, ?_⟩
    rw [← h.label_eq_of_linked hway, (h.forest.root_iff r r hself).mp rfl]
  · rintro ⟨hx, rfl⟩
    exact h.represents_label hx

theorem linked_self_iff : p.Linked r r ↔ r < p.size ∧ label r = r := by
  constructor
  · intro hself
    exact ⟨hself.lt, (h.forest.root_iff r r hself).mp rfl⟩
  · rintro ⟨hr, hroot⟩
    have hself := (h.represents_label hr).2
    rwa [hroot] at hself

theorem ncard_classOf (hr : r < p.size) (hroot : label r = r) :
    (p.classOf r).ncard = p.sizes.getD r 0 := by
  have hset : p.classOf r = (members label p.size r : Set Nat) := by
    ext x
    simp only [classOf, Set.mem_ofPred_eq, h.represents_iff, members, Finset.coe_filter,
      Finset.mem_range, eq_comm (a := r)]
  rw [hset, Set.ncard_coe_finset, h.size_root r hr hroot]

theorem room (hr : p.Linked r r) (hs : p.Linked s s) (hne : r ≠ s) :
    p.sizes.getD r 0 + p.sizes.getD s 0 ≤ p.size ∧ 1 < p.classes := by
  obtain ⟨hr, hroot⟩ := h.linked_self_iff.mp hr
  obtain ⟨hs, hroot'⟩ := h.linked_self_iff.mp hs
  constructor
  · rw [h.size_root r hr hroot, h.size_root s hs hroot',
      ← Finset.card_union_of_disjoint (disjoint_members label p.size hne)]
    refine (Finset.card_le_card fun x hx => ?_).trans_eq (Finset.card_range p.size)
    rcases Finset.mem_union.mp hx with hx | hx
    · exact (Finset.mem_filter.mp hx).1
    · exact (Finset.mem_filter.mp hx).1
  · rw [h.classes, Finset.one_lt_card]
    exact ⟨r, Finset.mem_filter.mpr ⟨Finset.mem_range.mpr hr, hroot⟩, s,
      Finset.mem_filter.mpr ⟨Finset.mem_range.mpr hs, hroot'⟩, hne⟩

end Labelled

/-! ### Searches -/

/-- **The search as a loop**: a position that is linked to itself is the answer; any other is linked
to its grandparent, where the loop goes on. -/
inductive Searches : (parents : Array Nat) → (x : Nat) → Option Nat → Array Nat → Prop
  | past {parents : Array Nat} {x : Nat} (h : parents[x]? = none) :
      Searches parents x none parents
  | root {parents : Array Nat} {x : Nat} (h : parents[x]? = some x) :
      Searches parents x (some x) parents
  | lost {parents : Array Nat} {x y : Nat} (h : parents[x]? = some y) (hne : y ≠ x)
      (hy : parents[y]? = none) : Searches parents x none parents
  | halve {parents last : Array Nat} {x y z : Nat} {root : Option Nat}
      (h : parents[x]? = some y) (hne : y ≠ x) (hy : parents[y]? = some z)
      (hrest : Searches (parents.setIfInBounds x z) z root last) : Searches parents x root last

theorem Searches.unique {parents last last' : Array Nat} {root root' : Option Nat}
    (h : Searches parents x root last) (h' : Searches parents x root' last') :
    root = root' ∧ last = last' := by
  induction h generalizing root' last' with
  | past hx => cases h' <;> simp_all
  | root hx => cases h' <;> simp_all
  | lost hx hne hy => cases h' <;> simp_all
  | halve hx hne hy _ ih =>
    cases h' with
    | past hx' => simp_all
    | root hx' => simp_all
    | lost hx' _ hy' => simp_all
    | halve hx' hne' hy' hrest' =>
      obtain rfl := Option.some.inj (hx.symm.trans hx')
      obtain rfl := Option.some.inj (hy.symm.trans hy')
      exact ih hrest'

theorem searches_of_findWithin {steps root : Nat} {parents last : Array Nat}
    (h : findWithin steps parents x = (some root, last)) :
    Searches parents x (some root) last := by
  fun_induction findWithin steps parents x with
  | case1 => cases h
  | case2 => cases h
  | case3 _ parents x hx =>
    obtain ⟨hroot, rfl⟩ := Prod.mk.inj h
    obtain rfl := Option.some.inj hroot
    exact .root hx
  | case4 => cases h
  | case5 _ parents x parent hparent hne grandparent hgrandparent ih =>
    exact .halve hparent hne hgrandparent (ih h)

namespace Labelled

variable (h : Labelled label p)
include h

theorem find_of_lt (hx : x < p.size) : (p.find x).1 = some (label x) := by
  obtain ⟨q, hq, -⟩ := h.find hx
  rw [hq]

/-- **A search ends**, with what the loop answers and leaves. -/
theorem searches_find (x : Nat) : Searches p.parents x (p.find x).1 (p.find x).2.parents := by
  rcases Nat.lt_or_ge x p.size with hx | hx
  · obtain ⟨q, hq, -⟩ := h.find hx
    have hwithin := find_eq p x
    rw [hq] at hwithin ⊢
    obtain ⟨hroot, rfl⟩ := Prod.mk.inj hwithin
    exact searches_of_findWithin (Prod.ext hroot.symm rfl)
  · rw [find_of_ge hx]
    exact .past (Array.getElem?_eq_none hx)

theorem find_eq_some_iff : (p.find x).1 = some r ↔ p.Represents r x := by
  rw [h.represents_iff]
  rcases Nat.lt_or_ge x p.size with hx | hx
  · rw [h.find_of_lt hx, Option.some.injEq, and_iff_right hx, eq_comm]
  · rw [find_of_ge hx]
    simp [Nat.not_lt.mpr hx]

theorem find_eq_none_iff : (p.find x).1 = none ↔ p.size ≤ x := by
  rcases Nat.lt_or_ge x p.size with hx | hx
  · simp [h.find_of_lt hx, hx]
  · simp [find_of_ge hx, hx]

end Labelled

/-! ### Faithful partitions -/

/-- **The partition has the classes** of an equivalence. Every position has one representative,
shared by its class; a search ends, finds it, and changes none. A union joins two classes exactly if
they are different, and the positions of both are represented by that of the larger one, of two of
the same size by the first; all others are as before. The classes are counted, and the size at a
representative is that of its class. Two sizes add up to no more than all positions, so their sum
does not wrap around in a word that holds the count. -/
structure Faithful {count : Nat} (classes : Setoid (Fin count)) (p : Partition) : Prop where
  size_eq : p.size = count
  existsUnique_represents : ∀ x < count, ∃! r, p.Represents r x
  represents_iff : ∀ i j : Fin count, (∃ r, p.Represents r i ∧ p.Represents r j) ↔ classes i j
  searches_iff : ∀ x root last, Searches p.parents x root last ↔
    root = (p.find x).1 ∧ last = (p.find x).2.parents
  find_eq_some_iff : ∀ x r, (p.find x).1 = some r ↔ p.Represents r x
  find_eq_none_iff : ∀ x, (p.find x).1 = none ↔ count ≤ x
  find_keeps : ∀ x y r, (p.find x).2.Represents r y ↔ p.Represents r y
  union_iff : ∀ a b, (p.union a b).1 = true ↔
    ∃ (ha : a < count) (hb : b < count), ¬ classes ⟨a, ha⟩ ⟨b, hb⟩
  union_joins : ∀ a b r s, p.Represents r a → p.Represents s b → r ≠ s → ∃ kept,
    ((p.classOf s).ncard ≤ (p.classOf r).ncard ∧ kept = r ∨
      (p.classOf r).ncard < (p.classOf s).ncard ∧ kept = s) ∧
    ∀ x t, (p.union a b).2.Represents t x ↔
      (p.Represents r x ∨ p.Represents s x) ∧ t = kept ∨ p.Represents t x ∧ t ≠ r ∧ t ≠ s
  union_keeps : ∀ a b, (p.union a b).1 = false →
    ∀ x t, (p.union a b).2.Represents t x ↔ p.Represents t x
  classes_eq : p.classes = Nat.card (Quotient classes)
  size_root : ∀ r, p.Linked r r → p.sizes[r]? = some (p.classOf r).ncard
  room : ∀ r s, p.Linked r r → p.Linked s s → r ≠ s →
    p.sizes.getD r 0 + p.sizes.getD s 0 ≤ count ∧ 1 < p.classes
  sum_exact : ∀ r s, p.Linked r r → p.Linked s s → r ≠ s → count < 2 ^ 32 →
    (UInt32.ofNat (p.sizes.getD r 0) + UInt32.ofNat (p.sizes.getD s 0)).toNat =
      p.sizes.getD r 0 + p.sizes.getD s 0

namespace Labelled

variable (h : Labelled label p)
include h

theorem union_eq_true_iff : (p.union a b).1 = true ↔ a < p.size ∧ b < p.size ∧ label a ≠ label b := by
  rcases Nat.lt_or_ge a p.size with ha | ha
  · rcases Nat.lt_or_ge b p.size with hb | hb
    · by_cases heq : label a = label b
      · simp [(h.union_of_eq ha hb heq).1, heq]
      · obtain ⟨_, _, htrue, -⟩ := h.union_of_ne ha hb heq
        simp [htrue, ha, hb, heq]
    · simp [(h.union_of_ge (Or.inr hb)).1, Nat.not_lt.mpr hb]
  · simp [(h.union_of_ge (Or.inl ha)).1, Nat.not_lt.mpr ha]

/-- **A union of two classes** gives both the representative of the larger one. -/
theorem union_joins (hr : p.Represents r a) (hs : p.Represents s b) (hne : r ≠ s) : ∃ kept,
    ((p.classOf s).ncard ≤ (p.classOf r).ncard ∧ kept = r ∨
      (p.classOf r).ncard < (p.classOf s).ncard ∧ kept = s) ∧
    ∀ x t, (p.union a b).2.Represents t x ↔
      (p.Represents r x ∨ p.Represents s x) ∧ t = kept ∨ p.Represents t x ∧ t ≠ r ∧ t ≠ s := by
  obtain ⟨ha, rfl⟩ := h.represents_iff.mp hr
  obtain ⟨hb, rfl⟩ := h.represents_iff.mp hs
  obtain ⟨small, big, -, hsize, hafter, hcases⟩ := h.union_of_ne ha hb hne
  refine ⟨big, ?_, fun x t => ?_⟩
  · rw [h.ncard_classOf (h.forest.label_lt a ha) (h.forest.label_label a ha),
      h.ncard_classOf (h.forest.label_lt b hb) (h.forest.label_label b hb)]
    rcases hcases with ⟨hle, -, hbig⟩ | ⟨hlt, -, hbig⟩
    · exact Or.inl ⟨hle, hbig⟩
    · exact Or.inr ⟨hlt, hbig⟩
  · simp only [hafter.represents_iff, h.represents_iff, hsize, relabel]
    split_ifs <;> omega

theorem union_of_false (hf : (p.union a b).1 = false) :
    Labelled label (p.union a b).2 ∧ (p.union a b).2.size = p.size := by
  by_cases hin : a < p.size ∧ b < p.size
  · obtain ⟨ha, hb⟩ := hin
    have heq : label a = label b := by
      by_contra hne
      rw [h.union_eq_true_iff.mpr ⟨ha, hb, hne⟩] at hf
      cases hf
    obtain ⟨-, hsize, hafter⟩ := h.union_of_eq ha hb heq
    exact ⟨hafter, hsize⟩
  · obtain ⟨-, hsize, hafter⟩ := h.union_of_ge (a := a) (b := b) (by omega)
    exact ⟨hafter, hsize⟩

end Labelled

theorem Connects.faithful {count : Nat} {edges : List (Nat × Nat)}
    (hc : Connects count edges label p) : Faithful (component count edges) p := by
  have h := hc.labelled
  have hsize := hc.size_eq
  have hsame : ∀ i j : Fin count, label i = label j ↔ component count edges i j := by
    intro i j
    rw [← hc.ker_eq]
    exact Iff.rfl
  have hsearches := h.searches_find
  constructor
  case size_eq => exact hsize
  case existsUnique_represents =>
    intro x hx
    refine ⟨label x, h.represents_label (hsize ▸ hx), fun r hr => ?_⟩
    exact (h.represents_iff.mp hr).2
  case represents_iff =>
    intro i j
    rw [← hsame]
    constructor
    · rintro ⟨r, hi, hj⟩
      rw [← (h.represents_iff.mp hi).2, ← (h.represents_iff.mp hj).2]
    · intro heq
      refine ⟨label i, h.represents_label (hsize ▸ i.2), ?_⟩
      rw [heq]
      exact h.represents_label (hsize ▸ j.2)
  case searches_iff =>
    intro x root last
    constructor
    · intro hs
      exact hs.unique (hsearches x)
    · rintro ⟨rfl, rfl⟩
      exact hsearches x
  case find_eq_some_iff => exact fun x r => h.find_eq_some_iff
  case find_eq_none_iff =>
    intro x
    rw [h.find_eq_none_iff, hsize]
  case find_keeps =>
    intro x y r
    obtain ⟨hafter, hsize'⟩ := h.snd_find x
    rw [hafter.represents_iff, h.represents_iff, hsize']
  case union_iff =>
    intro a b
    simp only [h.union_eq_true_iff, hsize, ← hsame]
    constructor
    · rintro ⟨ha, hb, hne⟩
      exact ⟨ha, hb, hne⟩
    · rintro ⟨ha, hb, hne⟩
      exact ⟨ha, hb, hne⟩
  case union_joins => exact fun a b r s => h.union_joins
  case union_keeps =>
    intro a b hf x t
    obtain ⟨hafter, hsize'⟩ := h.union_of_false hf
    rw [hafter.represents_iff, h.represents_iff, hsize']
  case classes_eq => exact hc.classes_eq
  case size_root =>
    intro r hself
    obtain ⟨hr, hroot⟩ := h.linked_self_iff.mp hself
    have hr' : r < p.sizes.size := h.size_sizes ▸ hr
    rw [h.ncard_classOf hr hroot, Array.getElem?_eq_getElem hr', Array.getD_eq_getD_getElem?,
      Array.getElem?_eq_getElem hr', Option.getD_some]
  case room =>
    rw [← hsize]
    exact fun r s => h.room
  case sum_exact =>
    intro r s hr hs hne hcount
    have hle := (h.room hr hs hne).1
    rw [UInt32.toNat_add, UInt32.toNat_ofNat', UInt32.toNat_ofNat', ← Nat.add_mod]
    exact Nat.mod_eq_of_lt (by omega)

/-! ### Runs -/

/-- A search for the representative of a position, or a union of the classes of two. -/
inductive Call
  | find (x : Nat)
  | union (a b : Nat)

/-- The partition after a call. -/
def perform (p : Partition) : Call → Partition
  | .find x => (p.find x).2
  | .union a b => (p.union a b).2

/-- The partition after some calls. -/
def run (p : Partition) (calls : List Call) : Partition := calls.foldl perform p

/-- The positions that some calls join. -/
def unions : List Call → List (Nat × Nat)
  | [] => []
  | .find _ :: calls => unions calls
  | .union a b :: calls => (a, b) :: unions calls

theorem unions_append (calls others : List Call) :
    unions (calls ++ others) = unions calls ++ unions others := by
  induction calls with
  | nil => rfl
  | cons call calls ih =>
    cases call with
    | find x => exact ih
    | union a b => exact congrArg (List.cons (a, b)) ih

theorem exists_run (count : Nat) (calls : List Call) :
    ∃ label, Connects count (unions calls) label ((discrete count).run calls) := by
  -- on the calls made so far: a search keeps the labels, a union connects one more pair
  induction calls using List.reverseRecOn with
  | nil => exact ⟨id, connects_discrete count⟩
  | append_singleton calls call ih =>
    obtain ⟨label, h⟩ := ih
    have hrun : (discrete count).run (calls ++ [call]) =
        ((discrete count).run calls).perform call := List.foldl_append
    rw [hrun, unions_append]
    cases call with
    | find x =>
      obtain ⟨hlabel, hsize⟩ := h.labelled.snd_find x
      refine ⟨label, hlabel, hsize.trans h.size_eq, ?_⟩
      rw [h.ker_eq]
      exact congrArg (component count) (List.append_nil _).symm
    | union a b => exact h.exists_union (a, b)

/-- **After every run of searches and unions**, whatever their arguments, the partition has the
classes that the unions connect. -/
theorem faithful_run (count : Nat) (calls : List Call) :
    Faithful (component count (unions calls)) ((discrete count).run calls) := by
  obtain ⟨label, h⟩ := exists_run count calls
  exact h.faithful

/-- The first of two classes of the same size keeps its representative, and so does the larger of
two. -/
example : (((discrete 4).run [.union 2 3, .find 3, .union 0 3]).find 0).1 = some 2 := by decide

end FlatGraph.Partition
