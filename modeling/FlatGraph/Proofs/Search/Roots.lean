import Mathlib.Data.Finset.Insert
import FlatGraph.Proofs.Search.Reach
import FlatGraph.Proofs.Search.Sweeps
import FlatGraph.Proofs.Written.Statistics

/-! # What the sweeps count

A sweep reaches what its root reaches. The set of all positions reached so far is closed along the
edges, so nothing else is lost by stopping at it, and a position that is still missing is reached
from no position below the scan. So the sweeps start at the positions that no lower one reaches, and
the scan, which only moves forward, passes each of them.

* `SweepState.Flooding`: the state of a sweep, with `SweepState.sweep_seen` for a whole sweep.
* `SweepState.Swept`: the state before a scan, with `SweepState.Swept.step` for one more sweep and
  `SweepState.Swept.sweepsFrom` for all that are left.
* `Image.sweeps_of_accepted`: the count of an accepted file. -/

namespace FlatGraph

namespace SweepState

variable {a : Adjacency} {base : BitSet} {root target start made : Nat} {pending : List Nat}
  {s t : SweepState}

/-! ### One sweep -/

/-- One edge: its target is reached now, and it is queued if it was not reached before. -/
theorem scan_spec (ht : target < s.seen.bits) (h : s.scan target = .ok t) :
    (∀ v, t.seen.test v = true ↔ s.seen.test v = true ∨ v = target) ∧
      (s.seen.test target = true ∧ t.queue.toList = s.queue.toList ∨
        s.seen.test target = false ∧ t.queue.toList = s.queue.toList ++ [target]) := by
  have hfresh := s.seen.testAndSet_fst target
  have htest : ∀ v, (s.seen.testAndSet target).2.test v = true ↔
      s.seen.test v = true ∨ v = target := by
    intro v
    rw [BitSet.test_testAndSet, Bool.or_eq_true, decide_eq_true_eq, and_iff_left ht,
      eq_comm (a := v)]
  rcases scan_cases h with ⟨hf, rfl⟩ | ⟨hf, queue, hq, rfl⟩
  · rw [hf] at hfresh
    refine ⟨htest, Or.inl ⟨?_, rfl⟩⟩
    simpa [ht] using hfresh.symm
  · rw [hf] at hfresh
    refine ⟨htest, Or.inr ⟨?_, FrontierQueue.toList_push hq⟩⟩
    simpa [ht] using hfresh.symm

/-- **The state of a sweep** from `root`, before which the positions of `base` were reached. The
edges of a position that has left the queue lead to positions that are reached, or to the `pending`
ones. -/
structure Flooding (a : Adjacency) (base : BitSet) (root : Nat) (pending : List Nat)
    (s : SweepState) : Prop where
  bits : s.seen.bits = a.count
  base_le : ∀ v, base.test v = true → s.seen.test v = true
  root_seen : s.seen.test root = true
  seen_le : ∀ v, s.seen.test v = true → base.test v = true ∨ a.Reaches root v
  queued : ∀ v ∈ s.queue.toList, s.seen.test v = true ∧ a.Reaches root v
  pending_reached : ∀ w ∈ pending, w < a.count ∧ a.Reaches root w
  edges : ∀ v, s.seen.test v = true → v ∉ s.queue.toList →
    ∀ w ∈ a.out v, s.seen.test w = true ∨ w ∈ pending

theorem Flooding.scan (h : Flooding a base root (target :: pending) s)
    (hscan : s.scan target = .ok t) : Flooding a base root pending t := by
  obtain ⟨hlt, hreach⟩ := h.pending_reached target List.mem_cons_self
  obtain ⟨hseen, hqueue⟩ := scan_spec (by rw [h.bits]; exact hlt) hscan
  have hgrows : ∀ v, s.seen.test v = true → t.seen.test v = true :=
    fun v hv => (hseen v).mpr (Or.inl hv)
  have htarget : t.seen.test target = true := (hseen target).mpr (Or.inr rfl)
  constructor
  case bits => exact (bits_scan hscan).trans h.bits
  case base_le => exact fun v hv => hgrows v (h.base_le v hv)
  case root_seen => exact hgrows root h.root_seen
  case seen_le =>
    intro v hv
    rcases (hseen v).mp hv with hv | rfl
    · exact h.seen_le v hv
    · exact Or.inr hreach
  case queued =>
    intro v hv
    have hold : ∀ v ∈ s.queue.toList, t.seen.test v = true ∧ a.Reaches root v := fun v hv =>
      ⟨hgrows v (h.queued v hv).1, (h.queued v hv).2⟩
    rcases hqueue with ⟨-, hlist⟩ | ⟨-, hlist⟩
    · exact hold v (hlist ▸ hv)
    · rw [hlist, List.mem_append, List.mem_singleton] at hv
      rcases hv with hv | rfl
      · exact hold v hv
      · exact ⟨htarget, hreach⟩
  case pending_reached => exact fun w hw => h.pending_reached w (List.mem_cons_of_mem target hw)
  case edges =>
    intro v hv hleft w hw
    have hold : s.seen.test v = true ∧ v ∉ s.queue.toList := by
      rcases hqueue with ⟨hold, hlist⟩ | ⟨-, hlist⟩
      · rw [hlist] at hleft
        rcases (hseen v).mp hv with hv | rfl
        · exact ⟨hv, hleft⟩
        · exact ⟨hold, hleft⟩
      · rw [hlist, List.mem_append, List.mem_singleton, not_or] at hleft
        exact ⟨((hseen v).mp hv).resolve_right hleft.2, hleft.1⟩
    rcases h.edges v hold.1 hold.2 w hw with hw | hw
    · exact Or.inl (hgrows w hw)
    · rcases List.mem_cons.mp hw with rfl | hw
      · exact Or.inl htarget
      · exact Or.inr hw

theorem Flooding.leave (h : Flooding a base root [] s) (hc : a.Closed) {node : Nat}
    {queue : FrontierQueue} (hp : s.queue.pop = some (node, queue)) :
    Flooding a base root (a.out node) ⟨s.seen, queue⟩ := by
  have hlist := FrontierQueue.toList_pop hp
  obtain ⟨hnode, hreach⟩ := h.queued node (by rw [hlist]; exact List.mem_cons_self)
  have hlt : node < a.count := h.bits ▸ BitSet.lt_of_test hnode
  refine ⟨h.bits, h.base_le, h.root_seen, h.seen_le, fun v hv => ?_,
    fun w hw => ⟨hc node hlt w hw, hreach.tail hw⟩, fun v hv hleft w hw => ?_⟩
  · exact h.queued v (by rw [hlist]; exact List.mem_cons_of_mem node hv)
  · by_cases hvn : v = node
    · rw [hvn] at hw
      exact Or.inr hw
    · have hout : v ∉ s.queue.toList := by
        rw [hlist, List.mem_cons, not_or]
        exact ⟨hvn, hleft⟩
      exact Or.inl ((h.edges v hv hout w hw).resolve_right List.not_mem_nil)

/-- **The end of a sweep**: what the root reaches is reached. -/
theorem Flooding.seen_iff (h : Flooding a base root [] s) (hempty : s.queue.toList = []) (v : Nat) :
    s.seen.test v = true ↔ base.test v = true ∨ a.Reaches root v := by
  refine ⟨h.seen_le v, fun hv => ?_⟩
  rcases hv with hv | hv
  · exact h.base_le v hv
  · induction hv with
    | refl => exact h.root_seen
    | @tail u w _ hedge ih =>
      have hleft : u ∉ s.queue.toList := by
        rw [hempty]
        exact List.not_mem_nil
      exact (h.edges u ih hleft w hedge).resolve_right List.not_mem_nil

/-- **A sweep reaches what its root reaches**, if the positions that were reached before are closed
along the edges. -/
theorem sweep_seen (hc : a.Closed) (hbits : s.seen.bits = a.count) (hroot : root < a.count)
    (hclosed : ∀ v, s.seen.test v = true → ∀ w ∈ a.out v, s.seen.test w = true)
    (h : sweep a s root = .ok t) (v : Nat) :
    t.seen.test v = true ↔ s.seen.test v = true ∨ a.Reaches root v := by
  obtain ⟨queue, hpush, hflood⟩ := sweep_eq_ok_iff.mp h
  have hlist : queue.toList = [root] := FrontierQueue.toList_push hpush
  have htest : ∀ v, (s.seen.set root).test v = true ↔ s.seen.test v = true ∨ v = root := by
    intro v
    rw [BitSet.test_set, Bool.or_eq_true, decide_eq_true_eq, hbits, and_iff_left hroot,
      eq_comm (a := v)]
  have hstart : Flooding a s.seen root [] ⟨s.seen.set root, queue⟩ := by
    constructor
    case bits => exact (BitSet.bits_set _ _).trans hbits
    case base_le => exact fun v hv => (htest v).mpr (Or.inl hv)
    case root_seen => exact (htest root).mpr (Or.inr rfl)
    case seen_le =>
      intro v hv
      rcases (htest v).mp hv with hv | rfl
      · exact Or.inl hv
      · exact Or.inr .refl
    case queued =>
      intro v hv
      have hv : v ∈ [root] := hlist ▸ hv
      rw [List.mem_singleton.mp hv]
      exact ⟨(htest root).mpr (Or.inr rfl), .refl⟩
    case pending_reached => exact fun w hw => absurd hw List.not_mem_nil
    case edges =>
      intro v hv hleft w hw
      have hne : v ≠ root := fun heq => hleft (hlist ▸ List.mem_singleton.mpr heq)
      have hold := ((htest v).mp hv).resolve_right hne
      exact Or.inl ((htest w).mpr (Or.inl (hclosed v hold w hw)))
  obtain ⟨hend, hnone⟩ := flood_invariant (fun u node queue v hu hp hscan =>
    foldlM_invariant (fun _ _ _ _ h hx => h.scan hx) hscan (hu.leave hc hp)) hflood hstart
  exact hend.seen_iff ((FrontierQueue.pop_eq_none_iff _).mp hnone) v

/-! ### All sweeps -/

/-- **The state before a scan** from `start` on: what the positions below reach is reached, and a
sweep was made from each of them that no lower one reaches. -/
structure Swept (a : Adjacency) (s : SweepState) (start made : Nat) : Prop where
  le : start ≤ a.count
  roomy : Roomy a.count s
  seen_iff : ∀ v, s.seen.test v = true ↔ ∃ q < start, a.Reaches q v
  made_eq : ∃ roots : Finset Nat,
    (∀ p, p ∈ roots ↔ p < start ∧ ∀ q < p, ¬ a.Reaches q p) ∧ roots.card = made

theorem Swept.initial (a : Adjacency) :
    Swept a ⟨BitSet.empty a.count, FrontierQueue.withCapacity a.count⟩ 0 0 where
  le := Nat.zero_le _
  roomy := Roomy.initial a.count
  seen_iff v := by simp [BitSet.test_empty]
  made_eq := ⟨∅, fun p => by simp, rfl⟩

namespace Swept

variable (h : Swept a s start made)
include h

theorem full {p : Nat} (hp : p < start) : s.seen.test p = true :=
  (h.seen_iff p).mpr ⟨p, hp, .refl⟩

theorem closed {v w : Nat} (hv : s.seen.test v = true) (hw : w ∈ a.out v) :
    s.seen.test w = true := by
  obtain ⟨q, hq, hreach⟩ := (h.seen_iff v).mp hv
  exact (h.seen_iff w).mpr ⟨q, hq, hreach.tail hw⟩

/-- A position ahead of the scan that is reached is reached from a lower one. -/
theorem not_first {p : Nat} (hp : start ≤ p) (hseen : s.seen.test p = true) :
    ¬ ∀ q < p, ¬ a.Reaches q p := by
  intro hfirst
  obtain ⟨q, hq, hreach⟩ := (h.seen_iff p).mp hseen
  exact hfirst q (hq.trans_le hp) hreach

theorem reached_below (hr : s.seen.nextClear start = some root) {q : Nat} (hq : q < root) :
    ∃ low < start, a.Reaches low q := by
  obtain ⟨-, -, -, hall⟩ := BitSet.nextClear_eq_some_iff.mp hr
  rcases Nat.lt_or_ge q start with hqs | hqs
  · exact ⟨q, hqs, .refl⟩
  · exact (h.seen_iff q).mp (hall q hqs hq)

/-- **The scan finds** a position that no lower one reaches. -/
theorem not_reaches_found (hr : s.seen.nextClear start = some root) {q : Nat} (hq : q < root) :
    ¬ a.Reaches q root := by
  obtain ⟨-, -, hclear, -⟩ := BitSet.nextClear_eq_some_iff.mp hr
  intro hreach
  obtain ⟨low, hlow, hlowq⟩ := h.reached_below hr hq
  have hroot := (h.seen_iff root).mpr ⟨low, hlow, hlowq.trans hreach⟩
  rw [hclear] at hroot
  cases hroot

theorem exists_reaches_iff (hr : s.seen.nextClear start = some root) (v : Nat) :
    (∃ q < root + 1, a.Reaches q v) ↔ s.seen.test v = true ∨ a.Reaches root v := by
  obtain ⟨hle, -⟩ := BitSet.nextClear_eq_some_iff.mp hr
  rw [h.seen_iff]
  constructor
  · rintro ⟨q, hq, hreach⟩
    rcases Nat.lt_succ_iff_lt_or_eq.mp hq with hq | rfl
    · obtain ⟨low, hlow, hlowq⟩ := h.reached_below hr hq
      exact Or.inl ⟨low, hlow, hlowq.trans hreach⟩
    · exact Or.inr hreach
  · rintro (⟨q, hq, hreach⟩ | hreach)
    · exact ⟨q, by omega, hreach⟩
    · exact ⟨root, Nat.lt_succ_self root, hreach⟩

/-- Of the positions that the scan passes only the one it finds is reached by no lower one. -/
theorem first_iff (hr : s.seen.nextClear start = some root) (p : Nat) :
    (p < root + 1 ∧ ∀ q < p, ¬ a.Reaches q p) ↔
      p = root ∨ p < start ∧ ∀ q < p, ¬ a.Reaches q p := by
  obtain ⟨hle, -, -, hall⟩ := BitSet.nextClear_eq_some_iff.mp hr
  constructor
  · rintro ⟨hp, hfirst⟩
    rcases Nat.lt_succ_iff_lt_or_eq.mp hp with hp | rfl
    · have hps : p < start := Nat.lt_of_not_le fun hps => h.not_first hps (hall p hps hp) hfirst
      exact Or.inr ⟨hps, hfirst⟩
    · exact Or.inl rfl
  · rintro (rfl | ⟨hp, hfirst⟩)
    · exact ⟨Nat.lt_succ_self p, fun q hq => h.not_reaches_found hr hq⟩
    · exact ⟨by omega, hfirst⟩

/-- **One more sweep**, from the position that the scan finds. -/
theorem step (hc : a.Closed) (hr : s.seen.nextClear start = some root) :
    ∃ t, sweep a s root = .ok t ∧ Swept a t (root + 1) (made + 1) := by
  obtain ⟨hle, hlt, hclear, -⟩ := BitSet.nextClear_eq_some_iff.mp hr
  rw [h.roomy.bits] at hlt
  obtain ⟨t, ht, hroomy⟩ := h.roomy.sweep a hlt hclear
  have hseen := sweep_seen hc h.roomy.bits hlt (fun v hv w hw => h.closed hv hw) ht
  obtain ⟨roots, hroots, hcard⟩ := h.made_eq
  have hnew : root ∉ roots := fun hmem => by
    have hlow := ((hroots root).mp hmem).1
    omega
  refine ⟨t, ht, hlt, hroomy, fun v => (hseen v).trans (h.exists_reaches_iff hr v).symm,
    insert root roots, fun p => ?_, by rw [Finset.card_insert_of_notMem hnew, hcard]⟩
  rw [Finset.mem_insert, hroots, h.first_iff hr]

/-- The scan finds nothing: the sweeps are those from all positions that no lower one reaches. -/
theorem finish (hn : s.seen.nextClear start = none) : ∃ roots : Finset Nat,
    (∀ p, p ∈ roots ↔ p < a.count ∧ ∀ q < p, ¬ a.Reaches q p) ∧ roots.card = made := by
  have hall := BitSet.nextClear_eq_none_iff.mp hn
  rw [h.roomy.bits] at hall
  obtain ⟨roots, hroots, hcard⟩ := h.made_eq
  have hle := h.le
  refine ⟨roots, fun p => (hroots p).trans (and_congr_left fun hfirst => ?_), hcard⟩
  constructor
  · intro hp
    omega
  · intro hp
    exact Nat.lt_of_not_le fun hps => h.not_first hps (hall p hps hp) hfirst

end Swept

/-- **The sweeps that are left** count the positions that no lower one reaches. -/
theorem Swept.sweepsFrom (h : Swept a s start made) (hc : a.Closed) : ∃ roots : Finset Nat,
    (∀ p, p ∈ roots ↔ p < a.count ∧ ∀ q < p, ¬ a.Reaches q p) ∧
      sweepsFrom a s start made = .ok roots.card := by
  -- on the positions still to be scanned
  induction hleft : a.count - start using Nat.strong_induction_on generalizing s start made with
  | h left ih =>
    cases hr : s.seen.nextClear start with
    | none =>
      obtain ⟨roots, hroots, hcard⟩ := h.finish hr
      exact ⟨roots, hroots, by rw [sweepsFrom_of_none hr, hcard]⟩
    | some root =>
      obtain ⟨hle, -⟩ := BitSet.nextClear_eq_some_iff.mp hr
      obtain ⟨t, ht, hswept⟩ := h.step hc hr
      have hlt := hswept.le
      obtain ⟨roots, hroots, hsweeps⟩ := ih (a.count - (root + 1)) (by omega) hswept rfl
      exact ⟨roots, hroots, (sweepsFrom_of_some hr ht).trans hsweeps⟩

/-- The states that the count passes before each scan, with the start of the scan and the number of
sweeps made. -/
inductive Passes (a : Adjacency) : (s : SweepState) → (start made : Nat) → Prop
  | initial : Passes a ⟨BitSet.empty a.count, FrontierQueue.withCapacity a.count⟩ 0 0
  | sweep {s t : SweepState} {start made root : Nat} (passes : Passes a s start made)
    (found : s.seen.nextClear start = some root) (swept : sweep a s root = .ok t) :
    Passes a t (root + 1) (made + 1)

theorem Passes.swept (h : Passes a s start made) (hc : a.Closed) : Swept a s start made := by
  induction h with
  | initial => exact Swept.initial a
  | sweep _ hfound hsweep ih =>
    obtain ⟨u, hu, hswept⟩ := ih.step hc hfound
    rw [hsweep] at hu
    rw [Except.ok.inj hu]
    exact hswept

theorem Passes.sweeps_eq (h : Passes a s start made) : a.sweeps = sweepsFrom a s start made := by
  induction h with
  | initial => rfl
  | sweep _ hfound hsweep ih => exact ih.trans (sweepsFrom_of_some hfound hsweep)

end SweepState

/-! ### Accepted files -/

namespace Image

variable {image : Image}

/-- **The reachability components of an accepted file** are counted without a fault. They are as
many as there are nodes that no lower one reaches. Whenever the scan for the next root starts, all
positions behind its start are reached, so that it finds the first position of all that is not, and
the sweep from there ends. -/
theorem sweeps_of_accepted {b : ByteArray} (h : parse b = .ok image) :
    (∀ u v, v ∈ image.adjacency.out u ↔ image.Link u v) ∧
    (∃ roots : Finset Nat,
      (∀ p, p ∈ roots ↔ p < image.nodes.size ∧ ∀ q < p, ¬ image.Reaches q p) ∧
      image.componentCount .reachability = .ok roots.card) ∧
    ∀ s start made, SweepState.Passes image.adjacency s start made →
      (∀ p < start, s.seen.test p = true) ∧
      s.seen.nextClear start = s.seen.nextClear 0 ∧
      (∀ root, s.seen.nextClear start = some root →
        ∃ t, SweepState.sweep image.adjacency s root = .ok t) ∧
      (s.seen.nextClear start = none → image.componentCount .reachability = .ok made) := by
  have hs := Sound.of_parse h
  refine ⟨fun u v => hs.mem_out_iff, ?_, fun s start made hpasses => ?_⟩
  · have hcount := (SweepState.Swept.initial image.adjacency).sweepsFrom hs.closed
    rwa [hs.adjacency_reaches] at hcount
  · have hswept := hpasses.swept hs.closed
    refine ⟨fun p hp => hswept.full hp,
      BitSet.nextClear_eq_nextClear_zero fun p hp => hswept.full hp, fun root hr => ?_, fun hn => ?_⟩
    · obtain ⟨t, ht, -⟩ := hswept.step hs.closed hr
      exact ⟨t, ht⟩
    · exact hpasses.sweeps_eq.trans (SweepState.sweepsFrom_of_none hn)

theorem sweeps_of_accepted_sample : ∃ b image, parse b = .ok image ∧
    image.componentCount .reachability = .ok 1 := by
  obtain ⟨b, image, h, hnodes, hout, -⟩ := Graph.exists_parse_sample_out
  obtain ⟨hlink, ⟨roots, hroots, hcount⟩, -⟩ := sweeps_of_accepted h
  have hreach : image.Reaches 0 1 :=
    .single ((hlink 0 1).mp (by rw [hout]; exact List.mem_cons_self))
  -- the second node is reached from the first
  have hone : roots = {0} := by
    ext p
    rw [hroots, hnodes, Finset.mem_singleton]
    constructor
    · rintro ⟨hp, hfirst⟩
      by_contra hne
      obtain rfl : p = 1 := by omega
      exact hfirst 0 Nat.zero_lt_one hreach
    · rintro rfl
      exact ⟨by decide, fun q hq => absurd hq (Nat.not_lt_zero q)⟩
  rw [hone] at hcount
  exact ⟨b, image, h, hcount⟩

end Image

end FlatGraph
