import Mathlib.Data.List.Perm.Basic
import FlatGraph.Search.Level

/-! # Claims in any order

Workers claim targets from a shared set, in whatever order a schedule lets them move. Whoever comes
first wins a target; who that is depends on the schedule, but what all of them win together does
not.

* `Claims`: what holds after some of the claims. `Claims.claim`: one more claim keeps it.
* `Team.claims_move`, `Team.claims_finish`: so do the moves of a schedule and the finish.
* `Team.mem_run`, `Team.nodup_run`, `Team.test_run`: a level wins each new target once, under every
  schedule and every split into shares.
* `Team.run_of_pending_nil`: a schedule may be any interleaving of all claims. -/

namespace FlatGraph

namespace ClaimSet

theorem bits_testAndSet (s : ClaimSet) (i : Nat) : (s.testAndSet i).2.bits = s.bits := by
  show (s.testAndSet i).2.toBitSet.bits = s.toBitSet.bits
  rw [toBitSet_testAndSet, BitSet.bits_testAndSet]

theorem test_testAndSet (s : ClaimSet) (i j : Nat) :
    (s.testAndSet i).2.test j = (s.test j || decide (i = j ∧ i < s.bits)) := by
  unfold test
  rw [toBitSet_testAndSet]
  exact BitSet.test_testAndSet _ _ _

theorem testAndSet_fst_eq (s : ClaimSet) (i : Nat) :
    (s.testAndSet i).1 = (decide (i < s.bits) && !s.test i) := by
  rw [testAndSet_fst]
  exact BitSet.testAndSet_fst _ _

end ClaimSet

/-- **The state of the claims**: from the set `first`, with targets `all` to be claimed, the set
`seen` and the targets `won` are reached, and the targets `pending` are still to be claimed. -/
structure Claims (first : ClaimSet) (all : List Nat) (seen : ClaimSet) (won pending : List Nat) :
    Prop where
  bits : seen.bits = first.bits
  seen_iff : ∀ v, seen.test v = true ↔ first.test v = true ∨ v ∈ won
  fresh : ∀ v ∈ won, v < first.bits ∧ first.test v = false
  nodup : won.Nodup
  within : ∀ v, v ∈ won ∨ v ∈ pending → v ∈ all
  cover : ∀ v ∈ all, v < first.bits → seen.test v = true ∨ v ∈ pending

namespace Claims

variable {first seen : ClaimSet} {all won pending : List Nat}

theorem start (first : ClaimSet) (all : List Nat) : Claims first all first [] all where
  bits := rfl
  seen_iff v := by simp
  fresh v hv := by simp at hv
  nodup := List.nodup_nil
  within v hv := by simpa using hv
  cover v hv _ := Or.inr hv

/-- Neither the order of what is won nor that of what is pending matters. -/
theorem perm (h : Claims first all seen won pending) {won' pending' : List Nat}
    (hw : won.Perm won') (hp : pending.Perm pending') : Claims first all seen won' pending' where
  bits := h.bits
  seen_iff v := by rw [h.seen_iff, hw.mem_iff]
  fresh v hv := h.fresh v (hw.mem_iff.mpr hv)
  nodup := hw.nodup_iff.mp h.nodup
  within v hv := h.within v (by rwa [hw.mem_iff, hp.mem_iff])
  cover v hv hb := by rw [← hp.mem_iff]; exact h.cover v hv hb

section

variable {target : Nat} (h : Claims first all seen won (target :: pending))
include h

theorem test_claim (v : Nat) : (seen.testAndSet target).2.test v = true ↔
    seen.test v = true ∨ (target = v ∧ target < first.bits) := by
  rw [ClaimSet.test_testAndSet, h.bits, Bool.or_eq_true, decide_eq_true_eq]

theorem fst_claim : (seen.testAndSet target).1 = true ↔
    target < first.bits ∧ seen.test target = false := by
  rw [ClaimSet.testAndSet_fst_eq, h.bits]
  simp

theorem bits_claim : (seen.testAndSet target).2.bits = first.bits := by
  rw [ClaimSet.bits_testAndSet, h.bits]

theorem cover_claim (v : Nat) (hv : v ∈ all) (hb : v < first.bits) :
    (seen.testAndSet target).2.test v = true ∨ v ∈ pending := by
  rw [h.test_claim]
  rcases h.cover v hv hb with ht | ht
  · exact Or.inl (Or.inl ht)
  · rcases List.mem_cons.mp ht with rfl | ht
    · exact Or.inl (Or.inr ⟨rfl, hb⟩)
    · exact Or.inr ht

theorem claim_won (hf : (seen.testAndSet target).1 = true) :
    Claims first all (seen.testAndSet target).2 (target :: won) pending := by
  obtain ⟨hlt, hnew⟩ := h.fst_claim.mp hf
  have hnot : ¬ (first.test target = true ∨ target ∈ won) := by
    rw [← h.seen_iff, hnew]
    simp
  constructor
  case bits => exact h.bits_claim
  case seen_iff =>
    intro v
    rw [h.test_claim, h.seen_iff, List.mem_cons]
    constructor
    · rintro ((hv | hv) | ⟨rfl, -⟩)
      · exact Or.inl hv
      · exact Or.inr (Or.inr hv)
      · exact Or.inr (Or.inl rfl)
    · rintro (hv | rfl | hv)
      · exact Or.inl (Or.inl hv)
      · exact Or.inr ⟨rfl, hlt⟩
      · exact Or.inl (Or.inr hv)
  case fresh =>
    intro v hv
    rcases List.mem_cons.mp hv with rfl | hv
    · have hfree : first.test v ≠ true := fun ht => hnot (Or.inl ht)
      exact ⟨hlt, by simpa using hfree⟩
    · exact h.fresh v hv
  case nodup =>
    have hnew : target ∉ won := fun hm => hnot (Or.inr hm)
    exact List.nodup_cons.mpr ⟨hnew, h.nodup⟩
  case within =>
    intro v hv
    rcases hv with hv | hv
    · rcases List.mem_cons.mp hv with rfl | hv
      · exact h.within v (Or.inr List.mem_cons_self)
      · exact h.within v (Or.inl hv)
    · exact h.within v (Or.inr (List.mem_cons_of_mem _ hv))
  case cover => exact h.cover_claim

theorem claim_lost (hf : (seen.testAndSet target).1 ≠ true) :
    Claims first all (seen.testAndSet target).2 won pending := by
  have hold : target < first.bits → seen.test target = true := by
    intro hlt
    by_contra hne
    exact hf (h.fst_claim.mpr ⟨hlt, by simpa using hne⟩)
  constructor
  case bits => exact h.bits_claim
  case seen_iff =>
    intro v
    rw [h.test_claim, ← h.seen_iff]
    constructor
    · rintro (hv | ⟨rfl, hlt⟩)
      · exact hv
      · exact hold hlt
    · exact Or.inl
  case fresh => exact h.fresh
  case nodup => exact h.nodup
  case within =>
    intro v hv
    exact h.within v (hv.imp id (List.mem_cons_of_mem _))
  case cover => exact h.cover_claim

/-- **One claim.** -/
theorem claim : Claims first all (seen.testAndSet target).2
    (if (seen.testAndSet target).1 then target :: won else won) pending := by
  split_ifs with hf
  · exact h.claim_won hf
  · exact h.claim_lost hf

end

/-- **All claims are made**: the new targets are won, each once. -/
theorem mem_won (h : Claims first all seen won []) (v : Nat) :
    v ∈ won ↔ v ∈ all ∧ v < first.bits ∧ first.test v = false := by
  constructor
  · intro hv
    exact ⟨h.within v (Or.inl hv), h.fresh v hv⟩
  · rintro ⟨hv, hlt, hnew⟩
    have ht := (h.cover v hv hlt).resolve_right (by simp)
    rw [h.seen_iff, hnew] at ht
    simpa using ht

end Claims

/-! ### Workers and teams -/

namespace Worker

variable {seen marked : ClaimSet} {target : Nat} {fresh : Bool} (won : Array Nat) (rest : List Nat)

theorem step_cons (h : seen.testAndSet target = (fresh, marked)) :
    step seen ⟨target :: rest, won⟩ =
      (marked, ⟨rest, if fresh then won.push target else won⟩) := by
  simp only [step, h]
  cases fresh <;> rfl

theorem finish_cons (h : seen.testAndSet target = (fresh, marked)) :
    finish (target :: rest) seen won =
      finish rest marked (if fresh then won.push target else won) := by
  simp only [finish, h]
  cases fresh <;> rfl

end Worker

section

variable {first seen : ClaimSet} {all others waiting : List Nat}

theorem Claims.step (worker : Worker)
    (h : Claims first all seen (worker.won.toList ++ others) (worker.pending ++ waiting)) :
    Claims first all (worker.step seen).1 ((worker.step seen).2.won.toList ++ others)
      ((worker.step seen).2.pending ++ waiting) := by
  obtain ⟨pending, won⟩ := worker
  cases pending with
  | nil => exact h
  | cons target rest =>
    have hclaim := Claims.claim h
    cases hm : seen.testAndSet target with
    | mk fresh marked =>
      rw [hm] at hclaim
      rw [Worker.step_cons won rest hm]
      cases fresh with
      | false => exact hclaim
      | true =>
        refine hclaim.perm ?_ (List.Perm.refl _)
        show List.Perm _ ((won.push target).toList ++ others)
        rw [Array.toList_push, List.append_assoc]
        exact List.perm_middle.symm

theorem Claims.finish_worker {pending : List Nat} {won : Array Nat}
    (h : Claims first all seen (won.toList ++ others) (pending ++ waiting)) :
    Claims first all (Worker.finish pending seen won).1
      ((Worker.finish pending seen won).2.toList ++ others) waiting := by
  induction pending generalizing seen won with
  | nil => exact h
  | cons target rest ih =>
    have hstep := Claims.step ⟨target :: rest, won⟩ h
    cases hm : seen.testAndSet target with
    | mk fresh marked =>
      rw [Worker.step_cons won rest hm] at hstep
      rw [Worker.finish_cons won rest hm]
      exact ih hstep

end

namespace Team

/-- What the workers have won, worker by worker. -/
def won (workers : List Worker) : List Nat := workers.flatMap fun w => w.won.toList

/-- What the workers have still to claim, worker by worker. -/
def pending (workers : List Worker) : List Nat := workers.flatMap Worker.pending

variable {first : ClaimSet} {all : List Nat}

/-- A worker can be brought to the front of what is collected from all workers. -/
theorem perm_flatMap_set {α : Type} (f : Worker → List α) {workers : List Worker} {i : Nat}
    {worker : Worker} (h : workers[i]? = some worker) (moved : Worker) :
    ((workers.set i moved).flatMap f).Perm (f moved ++ (workers.eraseIdx i).flatMap f) := by
  induction workers generalizing i with
  | nil => simp at h
  | cons head rest ih =>
    cases i with
    | zero => exact List.Perm.refl _
    | succ i =>
      have hrest := ih (by simpa using h)
      simp only [List.set_cons_succ, List.eraseIdx_cons_succ, List.flatMap_cons]
      refine (hrest.append_left (f head)).trans ?_
      rw [← List.append_assoc, ← List.append_assoc]
      exact List.perm_append_comm.append_right _

theorem set_self {workers : List Worker} {i : Nat} {worker : Worker}
    (h : workers[i]? = some worker) : workers.set i worker = workers := by
  obtain ⟨hi, rfl⟩ := List.getElem?_eq_some_iff.mp h
  exact List.set_getElem_self hi

/-- **A move keeps the state of the claims**, whichever worker moves. -/
theorem claims_move {t : Team} (h : Claims first all t.seen (won t.workers) (pending t.workers))
    (i : Nat) : Claims first all (t.move i).seen (won (t.move i).workers)
      (pending (t.move i).workers) := by
  unfold move
  split
  · exact h
  · next worker hi =>
    have hwon := perm_flatMap_set (fun w => w.won.toList) hi worker
    have hpending := perm_flatMap_set Worker.pending hi worker
    rw [set_self hi] at hwon hpending
    refine (Claims.step worker (h.perm hwon hpending)).perm ?_ ?_
    · exact (perm_flatMap_set (fun w => w.won.toList) hi _).symm
    · exact (perm_flatMap_set Worker.pending hi _).symm

theorem claims_foldl_move {t : Team} (schedule : List Nat)
    (h : Claims first all t.seen (won t.workers) (pending t.workers)) :
    Claims first all (schedule.foldl move t).seen (won (schedule.foldl move t).workers)
      (pending (schedule.foldl move t).workers) := by
  induction schedule generalizing t with
  | nil => exact h
  | cons i rest ih => exact ih (claims_move h i)

theorem claims_finish {seen : ClaimSet} {workers : List Worker} {others : List Nat}
    (h : Claims first all seen (won workers ++ others) (pending workers)) :
    Claims first all (finish seen workers).1
      ((finish seen workers).2.flatMap Array.toList ++ others) [] := by
  -- `others` is what the workers in front have won
  induction workers generalizing seen others with
  | nil => exact h
  | cons worker rest ih =>
    have hfront : Claims first all seen (worker.won.toList ++ (won rest ++ others))
        (worker.pending ++ pending rest) := by
      rw [← List.append_assoc]
      exact h
    have hworker := Claims.finish_worker hfront
    unfold finish
    set done := Worker.finish worker.pending seen worker.won
    have hnext : Claims first all done.1 (won rest ++ (done.2.toList ++ others))
        (pending rest) := by
      refine hworker.perm ?_ (List.Perm.refl _)
      rw [← List.append_assoc, ← List.append_assoc]
      exact List.perm_append_comm.append_right _
    have hrest := ih hnext
    refine hrest.perm ?_ (List.Perm.refl _)
    rw [List.flatMap_cons, ← List.append_assoc]
    exact List.perm_append_comm.append_right _

/-- **A level under a schedule**: all targets of all shares are claimed. -/
theorem claims_run (a : Adjacency) (seen : ClaimSet) (shares : List (List Nat))
    (schedule : List Nat) : Claims seen (shares.flatten.flatMap a.out)
      ((Team.start a seen shares).run schedule).1
      ((Team.start a seen shares).run schedule).2 [] := by
  have hwon : won (Team.start a seen shares).workers = [] := by
    simp [won, Team.start, List.flatMap_eq_nil_iff]
  have hpending : pending (Team.start a seen shares).workers = shares.flatten.flatMap a.out := by
    unfold pending Team.start
    rw [List.flatMap_map, List.flatten_eq_flatMap, List.flatMap_assoc]
    rfl
  have hstart : Claims seen (shares.flatten.flatMap a.out) (Team.start a seen shares).seen
      (won (Team.start a seen shares).workers) (pending (Team.start a seen shares).workers) := by
    rw [hwon, hpending]
    exact Claims.start _ _
  have hmoved := claims_foldl_move schedule hstart
  rw [← List.append_nil (won _)] at hmoved
  have hfinish := claims_finish hmoved
  rw [List.append_nil] at hfinish
  exact hfinish

theorem finish_of_pending_nil (seen : ClaimSet) {workers : List Worker}
    (h : pending workers = []) :
    finish seen workers = (seen, workers.map Worker.won) := by
  induction workers with
  | nil => rfl
  | cons worker rest ih =>
    obtain ⟨hnone, hrest⟩ := List.append_eq_nil_iff.mp h
    have hfinish : finish seen rest = (seen, rest.map Worker.won) := ih hrest
    simp only [finish, hnone, Worker.finish, hfinish, List.map_cons]

/-- A schedule that lets every worker claim all of its targets is an interleaving of their claims,
and the level is what it leaves: nothing is finished in turn. -/
theorem run_of_pending_nil (t : Team) (schedule : List Nat)
    (h : pending (schedule.foldl move t).workers = []) :
    t.run schedule = ((schedule.foldl move t).seen, won (schedule.foldl move t).workers) := by
  simp only [run, finish_of_pending_nil _ h, won, List.flatMap_map]

variable (a : Adjacency) (seen : ClaimSet) (shares : List (List Nat)) (schedule : List Nat)

theorem bits_run : ((Team.start a seen shares).run schedule).1.bits = seen.bits :=
  (claims_run a seen shares schedule).bits

theorem nodup_run : ((Team.start a seen shares).run schedule).2.Nodup :=
  (claims_run a seen shares schedule).nodup

theorem mem_run (v : Nat) : v ∈ ((Team.start a seen shares).run schedule).2 ↔
    (∃ u ∈ shares.flatten, v ∈ a.out u) ∧ v < seen.bits ∧ seen.test v = false := by
  rw [(claims_run a seen shares schedule).mem_won, List.mem_flatMap]

theorem test_run (v : Nat) : ((Team.start a seen shares).run schedule).1.test v = true ↔
    seen.test v = true ∨ v ∈ ((Team.start a seen shares).run schedule).2 :=
  (claims_run a seen shares schedule).seen_iff v

end Team

end FlatGraph
