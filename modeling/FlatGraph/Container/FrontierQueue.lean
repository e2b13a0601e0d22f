import FlatGraph.Fault

/-! # Queues of fixed capacity

A first-in first-out queue of positions in a circular row of slots that never grows.

* `FrontierQueue.push` fails exactly on a full queue, `FrontierQueue.pop` on an empty one.
* `FrontierQueue.toList`: the entries in the order in which they leave.
* `FrontierQueue.toList_push`, `FrontierQueue.toList_pop`: an entry is appended at the end of this
  list and taken from its front. -/

namespace FlatGraph

/-- A queue whose entries are in `length` consecutive slots from `head` on, in a circle. -/
structure FrontierQueue where
  slots : Array Nat
  head : Nat
  length : Nat
  length_le : length ≤ slots.size
  head_lt : head < slots.size ∨ slots.size = 0

namespace FrontierQueue

/-- The empty queue with room for `capacity` entries. -/
def withCapacity (capacity : Nat) : FrontierQueue where
  slots := Array.replicate capacity 0
  head := 0
  length := 0
  length_le := Nat.zero_le _
  head_lt := by rw [Array.size_replicate]; omega

/-- The greatest number of entries. -/
def capacity (q : FrontierQueue) : Nat := q.slots.size

/-- The queue has no entries. -/
def isEmpty (q : FrontierQueue) : Bool := q.length == 0

/-- Appends an entry at the end. -/
def push (q : FrontierQueue) (node : Nat) : Except Fault FrontierQueue :=
  if h : q.length = q.slots.size then .error (.outOfRange .frontierSlot q.length q.slots.size)
  else .ok
    { slots := q.slots.setIfInBounds ((q.head + q.length) % q.slots.size) node
      head := q.head
      length := q.length + 1
      length_le := by rw [Array.size_setIfInBounds]; have := q.length_le; omega
      head_lt := by rw [Array.size_setIfInBounds]; exact q.head_lt }

/-- The entry at the front, and the queue without it. -/
def pop (q : FrontierQueue) : Option (Nat × FrontierQueue) :=
  if h : q.length = 0 then none
  else
    have hs : 0 < q.slots.size := by have := q.length_le; omega
    have hh : q.head < q.slots.size := by have := q.head_lt; omega
    some (q.slots[q.head],
      { q with
        head := (q.head + 1) % q.slots.size
        length := q.length - 1
        length_le := by have := q.length_le; omega
        head_lt := Or.inl (Nat.mod_lt _ hs) })

/-- The queue without its entries. -/
def clear (q : FrontierQueue) : FrontierQueue where
  slots := q.slots
  head := 0
  length := 0
  length_le := Nat.zero_le _
  head_lt := by omega

/-- The entries in the order in which they leave. -/
def toList (q : FrontierQueue) : List Nat :=
  (List.range q.length).map fun k => q.slots.getD ((q.head + k) % q.slots.size) 0

/-! ### The order of the entries -/

theorem length_toList (q : FrontierQueue) : q.toList.length = q.length := by simp [toList]

theorem toList_withCapacity (capacity : Nat) : (withCapacity capacity).toList = [] := rfl

theorem toList_clear (q : FrontierQueue) : q.clear.toList = [] := rfl

theorem slot_ne (head : Nat) {size i j : Nat} (hij : i < j) (hj : j < size) :
    (head + i) % size ≠ (head + j) % size := by
  intro h
  have hd : size ∣ head + j - (head + i) :=
    Nat.dvd_of_mod_eq_zero (Nat.sub_mod_eq_zero_of_mod_eq h.symm)
  have := Nat.eq_zero_of_dvd_of_lt hd (by omega)
  omega

theorem push_eq_error_iff {q : FrontierQueue} {node : Nat} {fault : Fault} :
    q.push node = .error fault ↔
      q.length = q.capacity ∧ fault = .outOfRange .frontierSlot q.length q.capacity := by
  unfold push capacity
  split
  · next h => simp [h, eq_comm]
  · next h => simp [h]

theorem length_push {q r : FrontierQueue} {node : Nat} (h : q.push node = .ok r) :
    r.length = q.length + 1 := by
  unfold push at h
  split at h
  · cases h
  · cases h; rfl

theorem capacity_push {q r : FrontierQueue} {node : Nat} (h : q.push node = .ok r) :
    r.capacity = q.capacity := by
  unfold push at h
  split at h
  · cases h
  · cases h; exact Array.size_setIfInBounds

theorem toList_push {q r : FrontierQueue} {node : Nat} (h : q.push node = .ok r) :
    r.toList = q.toList ++ [node] := by
  unfold push at h
  split at h
  · cases h
  · next hl =>
    cases h
    have hle := q.length_le
    have hh : q.head < q.slots.size := by have := q.head_lt; omega
    have hs : (q.head + q.length) % q.slots.size < q.slots.size := Nat.mod_lt _ (by omega)
    unfold toList
    simp only [List.range_succ, List.map_append, List.map_cons, List.map_nil,
      Array.size_setIfInBounds, Array.getD_eq_getD_getElem?, Array.getElem?_setIfInBounds]
    congr 1
    · apply List.map_congr_left
      intro k hk
      have := slot_ne q.head (List.mem_range.mp hk) (show q.length < q.slots.size by omega)
      rw [if_neg (fun e => this e.symm)]
    · simp [hs]

theorem pop_eq_none_iff (q : FrontierQueue) : q.pop = none ↔ q.toList = [] := by
  rw [← List.length_eq_zero_iff, length_toList]
  unfold pop
  split
  · next h => simp [h]
  · next h => simp [h]

theorem length_pop {q r : FrontierQueue} {node : Nat} (h : q.pop = some (node, r)) :
    r.length + 1 = q.length := by
  unfold pop at h
  split at h
  · cases h
  · next hl => cases h; show q.length - 1 + 1 = q.length; omega

theorem capacity_pop {q r : FrontierQueue} {node : Nat} (h : q.pop = some (node, r)) :
    r.capacity = q.capacity := by
  unfold pop at h
  split at h
  · cases h
  · cases h; rfl

theorem toList_pop {q r : FrontierQueue} {node : Nat} (h : q.pop = some (node, r)) :
    q.toList = node :: r.toList := by
  unfold pop at h
  split at h
  · cases h
  · next hz =>
    cases h
    have hle := q.length_le
    have hh : q.head < q.slots.size := by have := q.head_lt; omega
    have hr : List.range q.length = 0 :: (List.range (q.length - 1)).map Nat.succ := by
      rw [← List.range_succ_eq_map, Nat.sub_add_cancel (by omega)]
    simp only [toList]
    rw [hr, List.map_cons, List.map_map, Nat.add_zero, Nat.mod_eq_of_lt hh,
      Array.getD_eq_getD_getElem?, Array.getElem?_eq_getElem hh, Option.getD_some]
    congr 1
    apply List.map_congr_left
    intro k _
    simp only [Function.comp, Nat.mod_add_mod]
    rw [show q.head + 1 + k = q.head + k.succ by omega]

end FrontierQueue

end FlatGraph
