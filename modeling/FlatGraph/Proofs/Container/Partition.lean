import Mathlib.Algebra.Order.Ring.Nat
import Mathlib.Data.Finset.Card
import FlatGraph.Container.Partition

/-! # Partitions and their labels

The links of a partition lead every position to the root of its class. The root is the label of the
position: a search answers it and changes no label, however it relinks the positions on its way, and
a union gives the positions of one class the label of the other.

The sizes bound every way to a root, since they grow along the links: a position is linked to a root
whose class is at least as large as its own, and larger from then on.

* `Partition.Forest`: the links lead to the labels; `Partition.Forest.findWithin`: and so does a
  search that halves its path.
* `Partition.Labelled`: the links, the sizes and the number of classes are right.
  `Partition.Labelled.find`, `Partition.Labelled.hang`: they stay right.
* `Partition.Labelled.exists_union`: what a union does to the labels. -/

namespace FlatGraph

namespace Partition

/-- **The links lead to the labels**: each position is linked to one of the same label, a position is
linked to itself exactly if it is its own label, and all other links lead to a greater size. -/
structure Forest (label : Nat → Nat) (sizes parents : Array Nat) : Prop where
  label_lt : ∀ x < parents.size, label x < parents.size
  label_label : ∀ x < parents.size, label (label x) = label x
  parent_lt : ∀ x y : Nat, parents[x]? = some y → y < parents.size
  label_parent : ∀ x y : Nat, parents[x]? = some y → label y = label x
  root_iff : ∀ x y : Nat, parents[x]? = some y → (y = x ↔ label x = x)
  size_lt : ∀ x y : Nat, parents[x]? = some y → y ≠ x → sizes.getD x 0 < sizes.getD y 0

variable {label : Nat → Nat} {sizes parents : Array Nat} {p : Partition} {a b x y z : Nat}

theorem link_cases (h : (parents.setIfInBounds x y)[z]? = some b) :
    z = x ∧ b = y ∨ z ≠ x ∧ parents[z]? = some b := by
  rw [Array.getElem?_setIfInBounds] at h
  split_ifs at h with hzx hx
  · exact Or.inl ⟨hzx.symm, (Option.some.inj h).symm⟩
  · exact Or.inr ⟨Ne.symm hzx, h⟩

theorem getD_setIfInBounds (hx : x < sizes.size) (y z : Nat) :
    (sizes.setIfInBounds x y).getD z 0 = if z = x then y else sizes.getD z 0 := by
  rw [Array.getD_eq_getD_getElem?, Array.getElem?_setIfInBounds, Array.getD_eq_getD_getElem?]
  by_cases hzx : x = z
  · rw [if_pos hzx, if_pos hx, if_pos hzx.symm, Option.getD_some]
  · rw [if_neg hzx, if_neg (Ne.symm hzx)]

/-! ### Searches -/

theorem Forest.halve (h : Forest label sizes parents) (hx : parents[x]? = some y) (hne : y ≠ x)
    (hy : parents[y]? = some z) : Forest label sizes (parents.setIfInBounds x z) := by
  have hlabel : label z = label x := (h.label_parent y z hy).trans (h.label_parent x y hx)
  have hsize : sizes.getD x 0 < sizes.getD z 0 := by
    have hxy := h.size_lt x y hx hne
    rcases eq_or_ne z y with rfl | hzy
    · exact hxy
    · exact hxy.trans (h.size_lt y z hy hzy)
  have hzx : z ≠ x := fun heq => by
    rw [heq] at hsize
    exact Nat.lt_irrefl _ hsize
  constructor
  case label_lt =>
    rw [Array.size_setIfInBounds]
    exact h.label_lt
  case label_label =>
    rw [Array.size_setIfInBounds]
    exact h.label_label
  case parent_lt =>
    intro u v huv
    rw [Array.size_setIfInBounds]
    rcases link_cases huv with ⟨-, rfl⟩ | ⟨-, huv⟩
    · exact h.parent_lt y _ hy
    · exact h.parent_lt u v huv
  case label_parent =>
    intro u v huv
    rcases link_cases huv with ⟨rfl, rfl⟩ | ⟨-, huv⟩
    · exact hlabel
    · exact h.label_parent u v huv
  case root_iff =>
    intro u v huv
    rcases link_cases huv with ⟨rfl, rfl⟩ | ⟨-, huv⟩
    · exact iff_of_false hzx fun hroot => hne ((h.root_iff u y hx).mpr hroot)
    · exact h.root_iff u v huv
  case size_lt =>
    intro u v huv huv'
    rcases link_cases huv with ⟨rfl, rfl⟩ | ⟨-, huv⟩
    · exact hsize
    · exact h.size_lt u v huv huv'

/-- **A search answers the label**, and the links still lead to the same labels. It makes a step
only to a greater size, and no size is above the bound. -/
theorem Forest.findWithin {bound steps : Nat} (h : Forest label sizes parents)
    (hbound : ∀ z < parents.size, sizes.getD z 0 ≤ bound) (hx : x < parents.size)
    (hsteps : bound < steps + sizes.getD x 0) :
    ∃ q, findWithin steps parents x = (some (label x), q) ∧ q.size = parents.size ∧
      Forest label sizes q := by
  induction steps generalizing parents x with
  | zero =>
    have hle := hbound x hx
    omega
  | succ steps ih =>
    obtain ⟨y, hy⟩ : ∃ y, parents[x]? = some y := ⟨_, Array.getElem?_eq_getElem hx⟩
    unfold Partition.findWithin
    rw [hy]
    dsimp only
    split_ifs with hroot
    · exact ⟨parents, by rw [(h.root_iff x y hy).mp hroot], rfl, h⟩
    · have hylt := h.parent_lt x y hy
      obtain ⟨z, hz⟩ : ∃ z, parents[y]? = some z := ⟨_, Array.getElem?_eq_getElem hylt⟩
      rw [hz]
      dsimp only
      have hxy := h.size_lt x y hy hroot
      have hyz : sizes.getD y 0 ≤ sizes.getD z 0 := by
        rcases eq_or_ne z y with rfl | hzy
        · exact le_rfl
        · exact (h.size_lt y z hz hzy).le
      have hsize : (parents.setIfInBounds x z).size = parents.size := Array.size_setIfInBounds
      obtain ⟨q, hq, hqsize, hforest⟩ := ih (h.halve hy hroot hz) (hsize ▸ hbound)
        (hsize ▸ h.parent_lt y z hz) (by omega)
      rw [(h.label_parent y z hz).trans (h.label_parent x y hy)] at hq
      exact ⟨q, hq, hqsize.trans hsize, hforest⟩

/-! ### Sizes and the number of classes -/

/-- The positions of a label. -/
def members (label : Nat → Nat) (count r : Nat) : Finset Nat :=
  (Finset.range count).filter fun x => label x = r

theorem disjoint_members (label : Nat → Nat) (count : Nat) {r s : Nat} (hne : r ≠ s) :
    Disjoint (members label count r) (members label count s) :=
  Finset.disjoint_filter.mpr fun _ _ hr hs => hne (hr.symm.trans hs)

/-- The positions that are their own label, one of each class. -/
def roots (label : Nat → Nat) (count : Nat) : Finset Nat :=
  (Finset.range count).filter fun x => label x = x

/-- **The partition has the labels**: its links lead there, the size of a root is the number of
positions in its class, and the classes are counted. -/
structure Labelled (label : Nat → Nat) (p : Partition) : Prop where
  forest : Forest label p.sizes p.parents
  size_sizes : p.sizes.size = p.size
  size_pos : ∀ x < p.size, 0 < p.sizes.getD x 0
  size_le : ∀ x < p.size, p.sizes.getD x 0 ≤ p.size
  size_root : ∀ r < p.size, label r = r → p.sizes.getD r 0 = (members label p.size r).card
  classes : p.classes = (roots label p.size).card

theorem labelled_discrete (count : Nat) : Labelled id (discrete count) := by
  have hsize : (discrete count).parents.size = count := Array.size_ofFn
  have hlink : ∀ x y : Nat, (discrete count).parents[x]? = some y → y = x ∧ x < count := by
    intro x y hxy
    obtain ⟨hx, hy⟩ := Array.getElem?_eq_some_iff.mp hxy
    rw [hsize] at hx
    have hat : (discrete count).parents[x] = x := Array.getElem_ofFn _
    exact ⟨hy.symm.trans hat, hx⟩
  have hone : ∀ x < count, (discrete count).sizes.getD x 0 = 1 := fun x hx => by
    simp [discrete, hx]
  constructor
  case forest =>
    refine ⟨fun x hx => hx, fun x _ => rfl, fun x y hxy => ?_, fun x y hxy => (hlink x y hxy).1,
      fun x y hxy => iff_of_true (hlink x y hxy).1 rfl,
      fun x y hxy hne => absurd (hlink x y hxy).1 hne⟩
    obtain ⟨rfl, hx⟩ := hlink x y hxy
    rwa [hsize]
  case size_sizes => exact Array.size_replicate.trans hsize.symm
  case size_pos =>
    intro x hx
    rw [hone x (hsize ▸ hx)]
    exact Nat.one_pos
  case size_le =>
    intro x hx
    rw [hone x (hsize ▸ hx)]
    exact Nat.one_le_of_lt hx
  case size_root =>
    intro r hr _
    rw [hone r (hsize ▸ hr), members]
    simp only [id_eq]
    rw [Finset.filter_eq', if_pos (Finset.mem_range.mpr hr), Finset.card_singleton]
  case classes =>
    have hroots : roots id (discrete count).size = Finset.range (discrete count).size :=
      Finset.filter_true_of_mem fun x _ => rfl
    rw [hroots, Finset.card_range]
    exact hsize.symm

theorem find_eq (p : Partition) (x : Nat) : p.find x =
    ((findWithin p.size p.parents x).1, { p with parents := (findWithin p.size p.parents x).2 }) :=
  rfl

namespace Labelled

variable (h : Labelled label p)
include h

/-- **A search** for the root of a position answers its label, and changes nothing but links. -/
theorem find (hx : x < p.size) : ∃ q, p.find x = (some (label x), q) ∧ Labelled label q ∧
    q.sizes = p.sizes ∧ q.size = p.size := by
  have hpos := h.size_pos x hx
  have hbound : p.parents.size < p.parents.size + p.sizes.getD x 0 := by omega
  obtain ⟨q, hq, hsize, hforest⟩ := h.forest.findWithin h.size_le hx hbound
  refine ⟨⟨q, p.sizes, p.classes⟩, ?_, ⟨hforest, ?_, ?_, ?_, ?_, ?_⟩, rfl, hsize⟩
  · rw [find_eq, Partition.size, hq]
  all_goals
    unfold Partition.size
    dsimp only
    rw [hsize]
  · exact h.size_sizes
  · exact h.size_pos
  · exact h.size_le
  · exact h.size_root
  · exact h.classes

theorem classes_le : p.classes ≤ p.size := by
  rw [h.classes]
  exact (Finset.card_filter_le _ _).trans_eq (Finset.card_range _)

end Labelled

theorem find_of_ge (hx : p.size ≤ x) : p.find x = (none, p) := by
  have hwithin : ∀ steps, findWithin steps p.parents x = (none, p.parents) := by
    intro steps
    cases steps with
    | zero => rfl
    | succ steps =>
      unfold findWithin
      rw [Array.getElem?_eq_none hx]
  rw [find_eq, hwithin]

theorem Labelled.snd_find (h : Labelled label p) (x : Nat) :
    Labelled label (p.find x).2 ∧ (p.find x).2.size = p.size := by
  rcases Nat.lt_or_ge x p.size with hx | hx
  · obtain ⟨q, hq, hlabel, -, hsize⟩ := h.find hx
    rw [hq]
    exact ⟨hlabel, hsize⟩
  · rw [find_of_ge hx]
    exact ⟨h, rfl⟩

/-! ### Unions -/

/-- The labels after the class of `small` has got the label of `big`. -/
def relabel (label : Nat → Nat) (small big : Nat) : Nat → Nat :=
  fun x => if label x = small then big else label x

theorem relabel_of_eq {small big : Nat} (hx : label x = small) : relabel label small big x = big :=
  if_pos hx

theorem relabel_of_ne {small big : Nat} (hx : label x ≠ small) :
    relabel label small big x = label x := if_neg hx

/-- Two positions get the same label if they had the same or have it now from the two classes. -/
theorem relabel_eq_iff {small big : Nat} : relabel label small big x = relabel label small big y ↔
    label x = label y ∨ label x = small ∧ label y = big ∨ label x = big ∧ label y = small := by
  unfold relabel
  split_ifs with hx hy hy
  · exact iff_of_true rfl (Or.inl (hx.trans hy.symm))
  · constructor
    · rintro rfl
      exact Or.inr (Or.inl ⟨hx, rfl⟩)
    · rintro (heq | ⟨-, heq⟩ | ⟨-, heq⟩)
      · exact absurd (heq.symm.trans hx) hy
      · exact heq.symm
      · exact absurd heq hy
  · constructor
    · intro heq
      exact Or.inr (Or.inr ⟨heq, hy⟩)
    · rintro (heq | ⟨heq, -⟩ | ⟨heq, -⟩)
      · exact absurd (heq.trans hy) hx
      · exact absurd heq hx
      · exact heq
  · constructor
    · exact Or.inl
    · rintro (heq | ⟨heq, -⟩ | ⟨-, heq⟩)
      · exact heq
      · exact absurd heq hx
      · exact absurd heq hy

theorem members_relabel (label : Nat → Nat) (small big count : Nat) :
    members (relabel label small big) count big =
      members label count big ∪ members label count small := by
  ext x
  simp only [members, Finset.mem_union, Finset.mem_filter, ← and_or_left]
  refine and_congr_right fun _ => ?_
  by_cases hlabel : label x = small
  · rw [relabel_of_eq hlabel]
    exact iff_of_true rfl (Or.inr hlabel)
  · rw [relabel_of_ne hlabel, or_iff_left hlabel]

theorem roots_relabel {small big : Nat} (hbig : label big = big) (hne : small ≠ big)
    (count : Nat) : roots (relabel label small big) count = (roots label count).erase small := by
  ext x
  simp only [roots, Finset.mem_erase, Finset.mem_filter]
  by_cases hlabel : label x = small
  · rw [relabel_of_eq hlabel, hlabel]
    refine iff_of_false ?_ fun hmem => hmem.1 hmem.2.2.symm
    rintro ⟨-, rfl⟩
    exact hne (hlabel.symm.trans hbig)
  · rw [relabel_of_ne hlabel]
    constructor
    · rintro ⟨hx, hroot⟩
      exact ⟨fun heq => hlabel (hroot.trans heq), hx, hroot⟩
    · rintro ⟨-, hx, hroot⟩
      exact ⟨hx, hroot⟩

/-- **The roots of two classes** that are to be joined, the first of which has no greater size. -/
structure Joinable (label : Nat → Nat) (p : Partition) (small big : Nat) : Prop where
  small_lt : small < p.size
  big_lt : big < p.size
  small_root : label small = small
  big_root : label big = big
  ne : small ≠ big
  le : p.sizes.getD small 0 ≤ p.sizes.getD big 0

namespace Labelled

variable {small big : Nat} (h : Labelled label p) (hj : Joinable label p small big)
include h hj

theorem getD_hang (x : Nat) : (p.hang small big).sizes.getD x 0 =
    if x = big then p.sizes.getD big 0 + p.sizes.getD small 0 else p.sizes.getD x 0 :=
  getD_setIfInBounds (by rw [h.size_sizes]; exact hj.big_lt) _ x

theorem forest_hang :
    Forest (relabel label small big) (p.hang small big).sizes (p.hang small big).parents := by
  have hsize : (p.hang small big).parents.size = p.size := Array.size_setIfInBounds
  have hpos := h.size_pos small hj.small_lt
  have hbig : relabel label small big big = big := by
    rw [relabel_of_ne (by rw [hj.big_root]; exact hj.ne.symm), hj.big_root]
  -- a link that is not new is from another position than `small`
  have hlink : ∀ u v : Nat, (p.hang small big).parents[u]? = some v →
      u = small ∧ v = big ∨ u ≠ small ∧ p.parents[u]? = some v := fun u v huv => link_cases huv
  constructor
  case label_lt =>
    intro x hx
    rw [hsize] at hx ⊢
    unfold relabel
    split_ifs
    · exact hj.big_lt
    · exact h.forest.label_lt x hx
  case label_label =>
    intro x hx
    rw [hsize] at hx
    by_cases hlabel : label x = small
    · rw [relabel_of_eq hlabel, hbig]
    · have hroot := h.forest.label_label x hx
      rw [relabel_of_ne hlabel, relabel_of_ne (by rwa [hroot]), hroot]
  case parent_lt =>
    intro u v huv
    rw [hsize]
    rcases hlink u v huv with ⟨-, rfl⟩ | ⟨-, huv⟩
    · exact hj.big_lt
    · exact h.forest.parent_lt u v huv
  case label_parent =>
    intro u v huv
    rcases hlink u v huv with ⟨rfl, rfl⟩ | ⟨-, huv⟩
    · rw [hbig, relabel_of_eq hj.small_root]
    · unfold relabel
      rw [h.forest.label_parent u v huv]
  case root_iff =>
    intro u v huv
    rcases hlink u v huv with ⟨rfl, rfl⟩ | ⟨hu, huv⟩
    · rw [relabel_of_eq hj.small_root]
    · rw [h.forest.root_iff u v huv]
      by_cases hlabel : label u = small
      · rw [relabel_of_eq hlabel, hlabel]
        refine iff_of_false hu.symm fun heq => ?_
        rw [← heq, hj.big_root] at hlabel
        exact hj.ne hlabel.symm
      · rw [relabel_of_ne hlabel]
  case size_lt =>
    intro u v huv hne
    rw [h.getD_hang hj, h.getD_hang hj]
    rcases hlink u v huv with ⟨rfl, rfl⟩ | ⟨-, huv⟩
    · have hle := hj.le
      rw [if_neg hj.ne, if_pos rfl]
      omega
    · have hlt := h.forest.size_lt u v huv hne
      have hroot := h.forest.root_iff u v huv
      have hu : u ≠ big := by
        rintro rfl
        exact hne (hroot.mpr hj.big_root)
      rw [if_neg hu]
      split_ifs with hv
      · rw [hv] at hlt
        omega
      · exact hlt

theorem card_members_big : (members (relabel label small big) p.size big).card =
    p.sizes.getD big 0 + p.sizes.getD small 0 := by
  rw [members_relabel, Finset.card_union_of_disjoint (disjoint_members label p.size hj.ne.symm),
    h.size_root big hj.big_lt hj.big_root, h.size_root small hj.small_lt hj.small_root]

/-- **The smaller root is linked to the larger one**: its class gets the label of the other. -/
theorem hang : Labelled (relabel label small big) (p.hang small big) := by
  have hsize : (p.hang small big).size = p.size := Array.size_setIfInBounds
  have hpos := h.size_pos small hj.small_lt
  constructor
  case forest => exact h.forest_hang hj
  case size_sizes => exact Array.size_setIfInBounds.trans (h.size_sizes.trans hsize.symm)
  case size_pos =>
    intro x hx
    rw [hsize] at hx
    rw [h.getD_hang hj]
    split_ifs
    · omega
    · exact h.size_pos x hx
  case size_le =>
    intro x hx
    rw [hsize] at hx ⊢
    rw [h.getD_hang hj]
    split_ifs
    · rw [← h.card_members_big hj]
      exact (Finset.card_filter_le _ _).trans_eq (Finset.card_range _)
    · exact h.size_le x hx
  case size_root =>
    intro r hr hroot
    rw [hsize] at hr ⊢
    rw [h.getD_hang hj]
    split_ifs with hrb
    · rw [hrb, h.card_members_big hj]
    · have hlabel : label r ≠ small := fun hlabel => by
        rw [relabel_of_eq hlabel] at hroot
        exact hrb hroot.symm
      rw [relabel_of_ne hlabel] at hroot
      rw [h.size_root r hr hroot]
      refine congrArg Finset.card (Finset.filter_congr fun x _ => ?_)
      by_cases hx : label x = small
      · rw [relabel_of_eq hx, hx]
        exact iff_of_false (fun heq => hlabel (hroot.trans heq.symm)) fun heq => hrb heq.symm
      · rw [relabel_of_ne hx]
  case classes =>
    have hmem : small ∈ roots label p.size :=
      Finset.mem_filter.mpr ⟨Finset.mem_range.mpr hj.small_lt, hj.small_root⟩
    rw [hsize, roots_relabel hj.big_root hj.ne, Finset.card_erase_of_mem hmem, ← h.classes]
    rfl

end Labelled

theorem union_of_find {q r : Partition} {rootA rootB : Nat} (ha : p.find a = (some rootA, q))
    (hb : q.find b = (some rootB, r)) : p.union a b =
      if rootA = rootB then (false, r)
      else if r.sizes.getD rootB 0 ≤ r.sizes.getD rootA 0 then (true, r.hang rootB rootA)
      else (true, r.hang rootA rootB) := by
  unfold union
  rw [ha]
  dsimp only
  rw [hb]

namespace Labelled

variable (h : Labelled label p)
include h

/-- **A union of two positions of different classes** gives the smaller class the label of the
larger one. Of two classes of the same size the first gives its label. -/
theorem union_of_ne (ha : a < p.size) (hb : b < p.size) (hne : label a ≠ label b) :
    ∃ small big, (p.union a b).1 = true ∧ (p.union a b).2.size = p.size ∧
      Labelled (relabel label small big) (p.union a b).2 ∧
      ((p.sizes.getD (label b) 0 ≤ p.sizes.getD (label a) 0 ∧ small = label b ∧ big = label a) ∨
        (p.sizes.getD (label a) 0 < p.sizes.getD (label b) 0 ∧ small = label a ∧
          big = label b)) := by
  obtain ⟨q, hq, hqlabel, hqsizes, hqsize⟩ := h.find ha
  obtain ⟨r, hr, hrlabel, hrsizes, hrsize⟩ := hqlabel.find (hqsize ▸ hb)
  have hsizes : r.sizes = p.sizes := hrsizes.trans hqsizes
  have hsize : r.size = p.size := hrsize.trans hqsize
  have hlta : label a < r.size := hsize ▸ h.forest.label_lt a ha
  have hltb : label b < r.size := hsize ▸ h.forest.label_lt b hb
  have hroota := h.forest.label_label a ha
  have hrootb := h.forest.label_label b hb
  rw [union_of_find hq hr, if_neg hne]
  by_cases hle : r.sizes.getD (label b) 0 ≤ r.sizes.getD (label a) 0
  · rw [if_pos hle]
    refine ⟨label b, label a, rfl, Array.size_setIfInBounds.trans hsize,
      hrlabel.hang ⟨hltb, hlta, hrootb, hroota, hne.symm, hle⟩, Or.inl ⟨hsizes ▸ hle, rfl, rfl⟩⟩
  · rw [if_neg hle]
    have hlt := Nat.lt_of_not_le hle
    refine ⟨label a, label b, rfl, Array.size_setIfInBounds.trans hsize,
      hrlabel.hang ⟨hlta, hltb, hroota, hrootb, hne, hlt.le⟩, Or.inr ⟨hsizes ▸ hlt, rfl, rfl⟩⟩

theorem union_of_eq (ha : a < p.size) (hb : b < p.size) (heq : label a = label b) :
    (p.union a b).1 = false ∧ (p.union a b).2.size = p.size ∧ Labelled label (p.union a b).2 := by
  obtain ⟨q, hq, hqlabel, -, hqsize⟩ := h.find ha
  obtain ⟨r, hr, hrlabel, -, hrsize⟩ := hqlabel.find (hqsize ▸ hb)
  rw [union_of_find hq hr, if_pos heq]
  exact ⟨rfl, hrsize.trans hqsize, hrlabel⟩

theorem union_of_ge (hout : p.size ≤ a ∨ p.size ≤ b) :
    (p.union a b).1 = false ∧ (p.union a b).2.size = p.size ∧ Labelled label (p.union a b).2 := by
  unfold Partition.union
  rcases Nat.lt_or_ge a p.size with ha | ha
  · obtain ⟨q, hq, hqlabel, -, hqsize⟩ := h.find ha
    rw [hq]
    dsimp only
    rw [find_of_ge (hqsize ▸ hout.resolve_left (Nat.not_le.mpr ha))]
    exact ⟨rfl, hqsize, hqlabel⟩
  · rw [find_of_ge ha]
    exact ⟨rfl, (h.snd_find b).symm⟩

/-- **What a union does to the classes**: it joins those of its two positions and leaves all others
apart. -/
theorem exists_union (a b : Nat) : ∃ after, Labelled after (p.union a b).2 ∧
    (p.union a b).2.size = p.size ∧ ∀ x y, after x = after y ↔
      label x = label y ∨ a < p.size ∧ b < p.size ∧
        (label x = label a ∧ label y = label b ∨ label x = label b ∧ label y = label a) := by
  by_cases hin : a < p.size ∧ b < p.size
  · obtain ⟨ha, hb⟩ := hin
    by_cases heq : label a = label b
    · obtain ⟨-, hsize, hafter⟩ := h.union_of_eq ha hb heq
      refine ⟨label, hafter, hsize, fun x y => ⟨Or.inl, ?_⟩⟩
      rintro (hxy | ⟨-, -, ⟨hx, hy⟩ | ⟨hx, hy⟩⟩)
      · exact hxy
      · rw [hx, hy, heq]
      · rw [hx, hy, heq]
    · obtain ⟨small, big, -, hsize, hafter, hcases⟩ := h.union_of_ne ha hb heq
      refine ⟨_, hafter, hsize, fun x y => ?_⟩
      rw [relabel_eq_iff, and_iff_right ha, and_iff_right hb]
      rcases hcases with ⟨-, rfl, rfl⟩ | ⟨-, rfl, rfl⟩
      · exact or_congr_right or_comm
      · exact Iff.rfl
  · have hout : p.size ≤ a ∨ p.size ≤ b := by omega
    obtain ⟨-, hsize, hafter⟩ := h.union_of_ge hout
    refine ⟨label, hafter, hsize, fun x y => (or_iff_left ?_).symm⟩
    rintro ⟨ha, hb, -⟩
    exact hin ⟨ha, hb⟩

end Labelled

end Partition

end FlatGraph
