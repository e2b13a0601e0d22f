import FlatGraph.Container.FrontierQueue

/-! # Queues and lists

Whatever calls are made to a queue, it answers them as a list of bounded length does that grows at
its end and shrinks at its front. Neither the wrap-around of the slots nor the entries that have been
left in them shows.

* `run`: calls one after the other, with their answers.
* `Bounded.perform`: what a call does to a list.
* `Ring.perform`: what it does to slots, a head and a length that nothing is known of. Where it would
  take a remainder by zero or a slot that is not there, the answer is `Answer.broken`.
* `perform_bounded`, `perform_ring`: a call to a queue is one to its list, and one to its ring.
* `fifo_run`: so all three answer any calls alike. -/

namespace FlatGraph

namespace FrontierQueue

/-- A call to a queue. -/
inductive Call
  | push (node : Nat)
  | pop
  | clear

/-- What a call answers. -/
inductive Answer
  | pushed
  | refused (fault : Fault)
  | popped (node : Option Nat)
  | cleared
  | broken

section Run

variable {σ τ : Type} {perform : σ → Call → Answer × σ} {count : σ → Nat}
  {other : τ → Call → Answer × τ} {otherCount : τ → Nat}

/-- **Calls one after the other**: the answer to each with the number of entries after it, and the
state at the end. -/
def run (perform : σ → Call → Answer × σ) (count : σ → Nat) (s : σ) :
    List Call → List (Answer × Nat) × σ
  | [] => ([], s)
  | call :: calls =>
    match perform s call with
    | (answer, s) =>
      match run perform count s calls with
      | (answers, last) => ((answer, count s) :: answers, last)

theorem run_cons (s : σ) (call : Call) (calls : List Call) :
    run perform count s (call :: calls) =
      (((perform s call).1, count (perform s call).2) ::
        (run perform count (perform s call).2 calls).1,
      (run perform count (perform s call).2 calls).2) := rfl

/-- **Two machines answer all calls alike** if they do so in related states and stay related. -/
theorem run_related (related : σ → τ → Prop) (hcount : ∀ s t, related s t → count s = otherCount t)
    (hstep : ∀ s t call, related s t → (perform s call).1 = (other t call).1 ∧
      related (perform s call).2 (other t call).2)
    {s : σ} {t : τ} (h : related s t) (calls : List Call) :
    (run perform count s calls).1 = (run other otherCount t calls).1 ∧
      related (run perform count s calls).2 (run other otherCount t calls).2 := by
  induction calls generalizing s t with
  | nil => exact ⟨rfl, h⟩
  | cons call calls ih =>
    obtain ⟨hanswer, hnext⟩ := hstep s t call h
    obtain ⟨hanswers, hlast⟩ := ih hnext
    rw [run_cons, run_cons, hanswer, hanswers, hcount _ _ hnext]
    exact ⟨rfl, hlast⟩

/-- A machine none of whose calls is broken is never broken. -/
theorem ne_broken_of_mem_run (hsound : ∀ s call, (perform s call).1 ≠ .broken) (s : σ)
    (calls : List Call) : ∀ answer ∈ (run perform count s calls).1, answer.1 ≠ .broken := by
  induction calls generalizing s with
  | nil => exact fun answer h => absurd h List.not_mem_nil
  | cons call calls ih =>
    intro answer h
    rw [run_cons, List.mem_cons] at h
    rcases h with rfl | h
    · exact hsound s call
    · exact ih _ answer h

end Run

/-! ### Lists, queues and rings -/

/-- What a call does to a list of at most `capacity` entries. -/
def Bounded.perform (capacity : Nat) (list : List Nat) : Call → Answer × List Nat
  | .push node =>
    if list.length = capacity then
      (.refused (.outOfRange .frontierSlot list.length capacity), list)
    else (.pushed, list ++ [node])
  | .pop => (.popped list.head?, list.tail)
  | .clear => (.cleared, [])

/-- What a call does to a queue. -/
def perform (q : FrontierQueue) : Call → Answer × FrontierQueue
  | .push node =>
    match q.push node with
    | .ok q => (.pushed, q)
    | .error fault => (.refused fault, q)
  | .pop =>
    match q.pop with
    | some (node, q) => (.popped (some node), q)
    | none => (.popped none, q)
  | .clear => (.cleared, q.clear)

/-- **The row of slots of a queue** with its head and length, and no bounds on them. -/
structure Ring where
  slots : Array Nat
  head : Nat
  length : Nat

/-- The slots of a queue. -/
def ring (q : FrontierQueue) : Ring := ⟨q.slots, q.head, q.length⟩

namespace Ring

/-- Slots without entries. -/
def withCapacity (capacity : Nat) : Ring := ⟨Array.replicate capacity 0, 0, 0⟩

/-- Writes the slot behind the last entry. -/
def push (r : Ring) (node : Nat) : Answer × Ring :=
  if r.length = r.slots.size then
    (.refused (.outOfRange .frontierSlot r.length r.slots.size), r)
  else if r.slots.size = 0 then (.broken, r)
  else
    let tail := (r.head + r.length) % r.slots.size
    if h : tail < r.slots.size then
      (.pushed, { r with slots := r.slots.set tail node, length := r.length + 1 })
    else (.broken, r)

/-- Reads the slot at the head, and passes on to the next one. -/
def pop (r : Ring) : Answer × Ring :=
  if r.length = 0 then (.popped none, r)
  else
    match r.slots[r.head]? with
    | none => (.broken, r)
    | some node =>
      if r.slots.size = 0 then (.broken, r)
      else
        (.popped (some node),
          { r with head := (r.head + 1) % r.slots.size, length := r.length - 1 })

/-- What a call does to the slots. -/
def perform (r : Ring) : Call → Answer × Ring
  | .push node => r.push node
  | .pop => r.pop
  | .clear => (.cleared, { r with head := 0, length := 0 })

theorem push_of_full {r : Ring} (h : r.length = r.slots.size) (node : Nat) :
    r.push node = (.refused (.outOfRange .frontierSlot r.length r.slots.size), r) := if_pos h

theorem push_of_lt {r : Ring} (h : r.length < r.slots.size) (node : Nat) :
    r.push node = (.pushed,
      { r with
        slots := r.slots.setIfInBounds ((r.head + r.length) % r.slots.size) node
        length := r.length + 1 }) := by
  have hsize : r.slots.size ≠ 0 := by omega
  have htail : (r.head + r.length) % r.slots.size < r.slots.size :=
    Nat.mod_lt _ (Nat.pos_of_ne_zero hsize)
  unfold push
  rw [if_neg (Nat.ne_of_lt h), if_neg hsize, Array.setIfInBounds, dif_pos htail, dif_pos htail]

theorem pop_of_zero {r : Ring} (h : r.length = 0) : r.pop = (.popped none, r) := if_pos h

theorem pop_of_lt {r : Ring} (h : r.length ≠ 0) (hhead : r.head < r.slots.size) :
    r.pop = (.popped (some r.slots[r.head]),
      { r with head := (r.head + 1) % r.slots.size, length := r.length - 1 }) := by
  have hsize : r.slots.size ≠ 0 := by omega
  unfold pop
  rw [if_neg h, Array.getElem?_eq_getElem hhead]
  exact if_neg hsize

end Ring

/-! ### Calls -/

theorem push_of_full {q : FrontierQueue} (h : q.length = q.capacity) (node : Nat) :
    q.push node = .error (.outOfRange .frontierSlot q.length q.capacity) :=
  push_eq_error_iff.mpr ⟨h, rfl⟩

/-- **A call to a queue** is a call to the list of its entries. -/
theorem perform_bounded (q : FrontierQueue) (call : Call) :
    (q.perform call).1 = (Bounded.perform q.capacity q.toList call).1 ∧
      (q.perform call).2.toList = (Bounded.perform q.capacity q.toList call).2 ∧
      (q.perform call).2.capacity = q.capacity := by
  cases call with
  | push node =>
    simp only [perform, Bounded.perform, length_toList]
    by_cases hfull : q.length = q.capacity
    · rw [push_of_full hfull, if_pos hfull]
      exact ⟨rfl, rfl, rfl⟩
    · rw [if_neg hfull]
      cases hp : q.push node with
      | ok r => exact ⟨rfl, toList_push hp, capacity_push hp⟩
      | error fault => exact absurd (push_eq_error_iff.mp hp).1 hfull
  | pop =>
    simp only [perform, Bounded.perform]
    cases hp : q.pop with
    | none =>
      have hnil := (q.pop_eq_none_iff).mp hp
      rw [hnil]
      exact ⟨rfl, rfl, rfl⟩
    | some front =>
      obtain ⟨node, r⟩ := front
      rw [toList_pop hp]
      exact ⟨rfl, rfl, capacity_pop hp⟩
  | clear => exact ⟨rfl, q.toList_clear, rfl⟩

/-- **A call to a queue** is a call to its slots: nothing is broken. -/
theorem perform_ring (q : FrontierQueue) (call : Call) :
    q.ring.perform call = ((q.perform call).1, (q.perform call).2.ring) := by
  have hle := q.length_le
  have hhead := q.head_lt
  cases call with
  | push node =>
    by_cases hfull : q.length = q.slots.size
    · have hpush := push_of_full hfull node
      simp only [Ring.perform, perform, hpush]
      exact Ring.push_of_full hfull node
    · have hlt : q.ring.length < q.ring.slots.size := Nat.lt_of_le_of_ne hle hfull
      have hpush : q.push node = .ok _ := dif_neg hfull
      simp only [Ring.perform, perform, hpush]
      exact Ring.push_of_lt hlt node
  | pop =>
    by_cases hempty : q.length = 0
    · have hpop : q.pop = none := dif_pos hempty
      simp only [Ring.perform, perform, hpop]
      exact Ring.pop_of_zero hempty
    · have hlt : q.head < q.slots.size := by omega
      have hpop : q.pop = some _ := dif_neg hempty
      simp only [Ring.perform, perform, hpop]
      exact Ring.pop_of_lt hempty hlt
  | clear => rfl

/-! ### Runs -/

/-- **The queue is the list**, with room for `capacity` entries. A push is refused exactly on a full
list, and changes no later answer; a pop finds nothing exactly on an empty list. -/
structure Refines (capacity : Nat) (list : List Nat) (q : FrontierQueue) : Prop where
  toList : q.toList = list
  length : q.length = list.length
  capacity_eq : q.capacity = capacity
  length_le : q.length ≤ capacity
  head_lt : 0 < capacity → q.head < capacity
  push_eq_error_iff : ∀ node fault, q.push node = .error fault ↔
    list.length = capacity ∧ fault = .outOfRange .frontierSlot capacity capacity
  push_refused : ∀ node, list.length = capacity →
    (q.perform (.push node)).2 = q ∧ (q.ring.perform (.push node)).2 = q.ring
  pop_eq_none_iff : q.pop = none ↔ list = []

theorem refines_toList (q : FrontierQueue) : q.Refines q.capacity q.toList where
  toList := rfl
  length := q.length_toList.symm
  capacity_eq := rfl
  length_le := q.length_le
  head_lt h := by
    have := q.head_lt
    unfold capacity at h ⊢
    omega
  push_eq_error_iff node fault := by
    rw [FrontierQueue.push_eq_error_iff, length_toList]
    refine and_congr_right fun hfull => ?_
    rw [hfull]
  push_refused node hfull := by
    rw [length_toList] at hfull
    have hsame : (q.perform (.push node)).2 = q := by simp only [perform, push_of_full hfull]
    refine ⟨hsame, ?_⟩
    rw [perform_ring, hsame]
  pop_eq_none_iff := q.pop_eq_none_iff

theorem bounded_ne_broken (capacity : Nat) (list : List Nat) (call : Call) :
    (Bounded.perform capacity list call).1 ≠ .broken := by
  cases call with
  | push node =>
    simp only [Bounded.perform]
    split <;> simp
  | pop => simp [Bounded.perform]
  | clear => simp [Bounded.perform]

theorem run_bounded (capacity : Nat) (calls : List Call) :
    (run perform length (withCapacity capacity) calls).1 =
        (run (Bounded.perform capacity) List.length [] calls).1 ∧
      (run perform length (withCapacity capacity) calls).2.toList =
        (run (Bounded.perform capacity) List.length [] calls).2 ∧
      (run perform length (withCapacity capacity) calls).2.capacity = capacity := by
  refine run_related (fun (q : FrontierQueue) list => q.toList = list ∧ q.capacity = capacity)
    ?_ ?_ ⟨toList_withCapacity capacity, Array.size_replicate⟩ calls
  · rintro q list ⟨rfl, -⟩
    exact q.length_toList.symm
  · rintro q list call ⟨rfl, rfl⟩
    exact q.perform_bounded call

theorem run_ring (q : FrontierQueue) (calls : List Call) :
    (run Ring.perform Ring.length q.ring calls).1 = (run perform length q calls).1 ∧
      (run Ring.perform Ring.length q.ring calls).2 = (run perform length q calls).2.ring := by
  refine run_related (fun r (q : FrontierQueue) => r = q.ring) ?_ ?_ rfl calls
  · rintro r q rfl
    rfl
  · rintro r q call rfl
    rw [perform_ring]
    exact ⟨rfl, rfl⟩

/-- **A queue is a bounded list.** From the empty queue on, any calls are answered as by the list
that is appended to at its end and taken from at its front. The slots alone answer the same, so no
call takes a remainder by zero or a slot that is not there. -/
theorem fifo_run (capacity : Nat) (calls : List Call) : ∃ answers list q,
    run (Bounded.perform capacity) List.length [] calls = (answers, list) ∧
      run perform length (withCapacity capacity) calls = (answers, q) ∧
      run Ring.perform Ring.length (Ring.withCapacity capacity) calls = (answers, q.ring) ∧
      (∀ answer ∈ answers, answer.1 ≠ .broken) ∧ q.Refines capacity list := by
  obtain ⟨hanswers, hentries, hcapacity⟩ := run_bounded capacity calls
  obtain ⟨hring, hlast⟩ := run_ring (withCapacity capacity) calls
  have hrefines := refines_toList (run perform length (withCapacity capacity) calls).2
  rw [hentries, hcapacity] at hrefines
  exact ⟨_, _, _, rfl, Prod.ext hanswers rfl, Prod.ext (hring.trans hanswers) hlast,
    ne_broken_of_mem_run (bounded_ne_broken capacity) [] calls, hrefines⟩

end FrontierQueue

end FlatGraph
