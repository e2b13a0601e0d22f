import FlatGraph.Proofs.Image.Threading
import FlatGraph.Written.Chain

/-! # The chains of a graph to be written

The edges are passed from the first one on. What is known of each node are its first and its last
edge so far; the links of its edges lead from the first to the last, each to the least later one.

* `Threads.Exact`: heads, lasts and links after some edges, with `Threads.Exact.pass` for one more
  edge and `Threads.exact_foldl` for all of them.
* `Names.namesLeast`: what is named is stored as a link. -/

namespace FlatGraph

/-- The option is the least of some numbers, and none if there are none. -/
def Names (among : Set Nat) : Option Nat → Prop
  | none => among = ∅
  | some j => IsLeast among j

/-- The option is the greatest of some numbers, and none if there are none. -/
def NamesLast (among : Set Nat) : Option Nat → Prop
  | none => among = ∅
  | some j => IsGreatest among j

theorem Names.insert {among : Set Nat} {link : Option Nat} {m n : Nat} (h : Names among link)
    (hm : m ∈ among) (hn : ∀ j ∈ among, j < n) : Names (insert n among) link := by
  cases link with
  | none =>
    rw [show among = ∅ from h] at hm
    exact absurd hm (Set.notMem_empty m)
  | some j =>
    refine ⟨Set.mem_insert_of_mem n h.1, ?_⟩
    rintro k (rfl | hk)
    · exact Nat.le_of_lt (hn j h.1)
    · exact h.2 hk

/-- The numbers of the edges with a source, for edges given by their sources. -/
def numbered (sources : List Nat) (source : Nat) : Set Nat := {j | sources[j]? = some source}

theorem numbered_nil (source : Nat) : numbered [] source = ∅ :=
  Set.eq_empty_of_forall_notMem fun j hj => by cases hj

theorem lt_of_mem_numbered {sources : List Nat} {p j : Nat} (h : j ∈ numbered sources p) :
    j < sources.length := (List.getElem?_eq_some_iff.mp h).1

theorem mem_numbered_append {sources : List Nat} {source p j : Nat} :
    j ∈ numbered (sources ++ [source]) p ↔
      j ∈ numbered sources p ∨ j = sources.length ∧ source = p := by
  unfold numbered
  rw [Set.mem_ofPred_eq, Set.mem_ofPred_eq]
  rcases Nat.lt_trichotomy j sources.length with hlt | rfl | hlt
  · rw [List.getElem?_append_left hlt]
    simp [Nat.ne_of_lt hlt]
  · simp
  · have hnone : (sources ++ [source])[j]? = none := by simp; omega
    rw [hnone, List.getElem?_eq_none (Nat.le_of_lt hlt)]
    simp [Nat.ne_of_gt hlt]

theorem numbered_append_self (sources : List Nat) (source : Nat) :
    numbered (sources ++ [source]) source = insert sources.length (numbered sources source) := by
  ext j
  rw [mem_numbered_append, Set.mem_insert_iff]
  tauto

theorem numbered_append_of_ne (sources : List Nat) {source p : Nat} (h : source ≠ p) :
    numbered (sources ++ [source]) p = numbered sources p := by
  ext j
  rw [mem_numbered_append]
  simp [h]

namespace Threads

variable {count n source : Nat} {sources : List Nat} {t : Threads}

/-- The chains are for so many nodes and edges. -/
structure Sized (count n : Nat) (t : Threads) : Prop where
  heads : t.heads.size = count
  lasts : t.lasts.size = count
  links : t.links.size = n

theorem Sized.start (count : Nat) : (start count).Sized count 0 :=
  ⟨Array.size_replicate, Array.size_replicate, rfl⟩

theorem Sized.pass (h : t.Sized count n) (source : Nat) : (t.pass source).Sized count (n + 1) := by
  unfold Threads.pass
  rcases t.lasts[source]? with _ | _ | last
  · exact ⟨h.heads, h.lasts, by simp [h.links]⟩
  · exact ⟨by simp [h.heads], by simp [h.lasts], by simp [h.links]⟩
  · exact ⟨h.heads, by simp [h.lasts], by simp [h.links]⟩

theorem Sized.foldl (h : t.Sized count n) (sources : List Nat) :
    (sources.foldl Threads.pass t).Sized count (n + sources.length) := by
  induction sources generalizing t n with
  | nil => exact h
  | cons source rest ih =>
    have hrest := ih (h.pass source)
    rwa [Nat.add_assoc, Nat.add_comm 1] at hrest

/-- **The chains are exact** after the edges with the given sources: the head and the last edge of a
node are the least and the greatest of its edges, and the link of an edge is the least later one of
its node. -/
structure Exact (count : Nat) (sources : List Nat) (t : Threads) : Prop where
  sized : t.Sized count sources.length
  heads : ∀ p head, t.heads[p]? = some head → Names (numbered sources p) head
  lasts : ∀ p last, t.lasts[p]? = some last → NamesLast (numbered sources p) last
  links : ∀ k source link, sources[k]? = some source → t.links[k]? = some link →
    Names {j | k < j ∧ j ∈ numbered sources source} link

theorem Exact.start (count : Nat) : (start count).Exact count [] where
  sized := Sized.start count
  heads p head h := by
    obtain rfl := (Array.mem_replicate.mp (Array.mem_of_getElem? h)).2
    exact numbered_nil p
  lasts p last h := by
    obtain rfl := (Array.mem_replicate.mp (Array.mem_of_getElem? h)).2
    exact numbered_nil p
  links k source link h := by cases h

theorem later_insert {among : Set Nat} {k n : Nat} (hk : k < n) :
    {j | k < j ∧ j ∈ insert n among} = insert n {j | k < j ∧ j ∈ among} := by
  ext j
  simp only [Set.mem_ofPred_eq, Set.mem_insert_iff]
  constructor
  · rintro ⟨hj, rfl | hmem⟩
    · exact Or.inl rfl
    · exact Or.inr ⟨hj, hmem⟩
  · rintro (rfl | ⟨hj, hmem⟩)
    · exact ⟨hk, Or.inl rfl⟩
    · exact ⟨hj, Or.inr hmem⟩

theorem names_none (sources : List Nat) (source p : Nat) :
    Names {j | sources.length < j ∧ j ∈ numbered (sources ++ [source]) p} none := by
  refine Set.eq_empty_of_forall_notMem fun j ⟨hlt, hj⟩ => ?_
  have hle := lt_of_mem_numbered hj
  rw [List.length_append, List.length_singleton] at hle
  omega

/-- The edge that is passed is the one that follows the last one so far. -/
theorem names_passed {last : Nat} (h : IsGreatest (numbered sources source) last) :
    Names {j | last < j ∧ j ∈ numbered (sources ++ [source]) source} (some sources.length) := by
  have hnone : {j | last < j ∧ j ∈ numbered sources source} = ∅ :=
    Set.eq_empty_of_forall_notMem fun j ⟨hlt, hj⟩ => absurd (h.2 hj) (by omega)
  rw [numbered_append_self, later_insert (lt_of_mem_numbered h.1), hnone, insert_empty_eq]
  exact isLeast_singleton

theorem isGreatest_passed (sources : List Nat) (source : Nat) :
    IsGreatest (numbered (sources ++ [source]) source) sources.length := by
  refine ⟨mem_numbered_append.mpr (Or.inr ⟨rfl, rfl⟩), fun j hj => ?_⟩
  have hlt := lt_of_mem_numbered hj
  rw [List.length_append, List.length_singleton] at hlt
  omega

namespace Exact

theorem lasts_pass (h : t.Exact count sources) (hs : source < count) (p : Nat) (last : Option Nat)
    (hlast : (t.lasts.setIfInBounds source (some sources.length))[p]? = some last) :
    NamesLast (numbered (sources ++ [source]) p) last := by
  rw [Array.getElem?_setIfInBounds] at hlast
  by_cases hp : source = p
  · rw [if_pos hp, if_pos (by rwa [h.sized.lasts])] at hlast
    obtain rfl := Option.some.inj hlast
    subst hp
    exact isGreatest_passed sources source
  · rw [if_neg hp] at hlast
    rw [numbered_append_of_ne sources hp]
    exact h.lasts p last hlast

/-- A link after one more edge, which has none itself. -/
theorem links_push (h : t.Exact count sources) {k p : Nat} {link : Option Nat}
    (hk : k ∈ numbered (sources ++ [source]) p) (hlink : (t.links.push none)[k]? = some link) :
    (k ∈ numbered sources p ∧ Names {j | k < j ∧ j ∈ numbered sources p} link) ∨
      Names {j | k < j ∧ j ∈ numbered (sources ++ [source]) p} link := by
  rcases mem_numbered_append.mp hk with hk | ⟨rfl, rfl⟩
  · have hlt := lt_of_mem_numbered hk
    rw [Array.getElem?_push, if_neg (by rw [h.sized.links]; omega)] at hlink
    exact Or.inl ⟨hk, h.links k p link hk hlink⟩
  · rw [← h.sized.links, Array.getElem?_push_size] at hlink
    obtain rfl := Option.some.inj hlink
    exact Or.inr (names_none sources source source)

theorem pass_first (h : t.Exact count sources) (hs : source < count)
    (hnone : t.lasts[source]? = some none) :
    (t.pass source).Exact count (sources ++ [source]) := by
  have hempty : numbered sources source = ∅ := h.lasts source none hnone
  have hpass : t.pass source =
      { heads := t.heads.setIfInBounds source (some sources.length)
        lasts := t.lasts.setIfInBounds source (some sources.length)
        links := t.links.push none } := by
    unfold Threads.pass
    rw [hnone, h.sized.links]
  have hsized := h.sized.pass source
  rw [hpass] at hsized ⊢
  refine ⟨by rwa [List.length_append], ?_, h.lasts_pass hs, ?_⟩
  · intro p head hhead
    rw [Array.getElem?_setIfInBounds] at hhead
    by_cases hp : source = p
    · rw [if_pos hp, if_pos (by rwa [h.sized.heads])] at hhead
      obtain rfl := Option.some.inj hhead
      subst hp
      rw [numbered_append_self, hempty, insert_empty_eq]
      exact isLeast_singleton
    · rw [if_neg hp] at hhead
      rw [numbered_append_of_ne sources hp]
      exact h.heads p head hhead
  · intro k p link hk hlink
    rcases h.links_push hk hlink with ⟨hk, hnames⟩ | hnames
    · have hp : source ≠ p := by
        rintro rfl
        rw [hempty] at hk
        exact hk
      rwa [numbered_append_of_ne sources hp]
    · exact hnames

theorem pass_next (h : t.Exact count sources) (hs : source < count) {last : Nat}
    (hsome : t.lasts[source]? = some (some last)) :
    (t.pass source).Exact count (sources ++ [source]) := by
  have hgreatest : IsGreatest (numbered sources source) last := h.lasts source _ hsome
  have hlast := lt_of_mem_numbered hgreatest.1
  have hpass : t.pass source =
      { heads := t.heads
        lasts := t.lasts.setIfInBounds source (some sources.length)
        links := (t.links.push none).setIfInBounds last (some sources.length) } := by
    unfold Threads.pass
    rw [hsome, h.sized.links]
  have hsized := h.sized.pass source
  rw [hpass] at hsized ⊢
  refine ⟨by rwa [List.length_append], ?_, h.lasts_pass hs, ?_⟩
  · intro p head hhead
    have hnames := h.heads p head hhead
    by_cases hp : source = p
    · subst hp
      rw [numbered_append_self]
      exact hnames.insert hgreatest.1 fun j => lt_of_mem_numbered
    · rw [numbered_append_of_ne sources hp]
      exact hnames
  · intro k p link hk hlink
    rw [Array.getElem?_setIfInBounds] at hlink
    by_cases hkl : last = k
    · -- the last edge so far gets its link
      subst hkl
      rw [if_pos rfl, if_pos (by simp [h.sized.links]; omega)] at hlink
      obtain rfl := Option.some.inj hlink
      have hk : sources[last]? = some p := by rwa [List.getElem?_append_left hlast] at hk
      obtain rfl : source = p := Option.some.inj (hgreatest.1.symm.trans hk)
      exact names_passed hgreatest
    · rw [if_neg hkl] at hlink
      rcases h.links_push hk hlink with ⟨hk, hnames⟩ | hnames
      · by_cases hp : source = p
        · subst hp
          have hle : k ≤ last := hgreatest.2 hk
          rw [numbered_append_self, later_insert (lt_of_mem_numbered hk)]
          exact hnames.insert ⟨by omega, hgreatest.1⟩ fun j hj => lt_of_mem_numbered hj.2
        · rwa [numbered_append_of_ne sources hp]
      · exact hnames

/-- **One more edge** keeps the chains exact. -/
theorem pass (h : t.Exact count sources) (hs : source < count) :
    (t.pass source).Exact count (sources ++ [source]) := by
  have hsize : source < t.lasts.size := by rwa [h.sized.lasts]
  obtain ⟨entry, hentry⟩ : ∃ entry, t.lasts[source]? = some entry :=
    ⟨_, Array.getElem?_eq_getElem hsize⟩
  cases entry with
  | none => exact h.pass_first hs hentry
  | some last => exact h.pass_next hs hentry

end Exact

/-- **All edges passed**, the chains are exact. -/
theorem Exact.foldl (h : t.Exact count sources) {rest : List Nat} (hs : ∀ s ∈ rest, s < count) :
    (rest.foldl Threads.pass t).Exact count (sources ++ rest) := by
  induction rest generalizing t sources with
  | nil => rwa [List.append_nil]
  | cons source rest ih =>
    have hnext := h.pass (hs source List.mem_cons_self)
    have hend := ih hnext fun s hmem => hs s (List.mem_cons_of_mem source hmem)
    rwa [List.append_assoc] at hend

end Threads

theorem Graph.sized_threads (g : Graph) (ends : List (Nat × Nat)) :
    (g.threads ends).Sized g.nodes.size ends.length := by
  have hsized := (Threads.Sized.start g.nodes.size).foldl (ends.map (·.1))
  rwa [Nat.zero_add, List.length_map] at hsized

theorem toNat_ofNat_of_le {n : Nat} (h : n ≤ maxElements) : (UInt32.ofNat n).toNat = n := by
  have hlt : maxElements < UInt32.size := by decide
  rw [UInt32.toNat_ofNat']
  exact Nat.mod_eq_of_lt (Nat.lt_of_le_of_lt h hlt)

/-- What is named is stored as a link, since the number of no edge is the sentinel. -/
theorem Names.namesLeast {among : Set Nat} {link : Option Nat} (h : Names among link)
    (hlt : ∀ j ∈ among, j < maxElements) : NamesLeast among (rawLink link) := by
  cases link with
  | none => exact Or.inl ⟨rfl, h⟩
  | some j =>
    have hj := hlt j h.1
    have hraw : (rawLink (some j)).toNat = j := toNat_ofNat_of_le (Nat.le_of_lt hj)
    refine Or.inr ⟨fun heq => ?_, ?_⟩
    · rw [heq] at hraw
      exact absurd hj (by rw [← hraw]; decide)
    · rw [hraw]
      exact h

end FlatGraph
