/-! # Totals

The sum of a measure over a list.

* `total_append`, `total_perm`: the total over two lists in a row, and over a list in another order.
* `length_flatMap`: the length of lists in a row is the total of their lengths. -/

namespace FlatGraph

variable {α β : Type}

/-- The sum of `f` over a list. -/
def total (f : α → Nat) (xs : List α) : Nat := xs.foldr (fun x n => f x + n) 0

@[simp] theorem total_nil (f : α → Nat) : total f [] = 0 := rfl

@[simp] theorem total_cons (f : α → Nat) (x : α) (xs : List α) :
    total f (x :: xs) = f x + total f xs := rfl

theorem total_append (f : α → Nat) (xs ys : List α) :
    total f (xs ++ ys) = total f xs + total f ys := by
  induction xs with
  | nil => simp
  | cons x xs ih => rw [List.cons_append, total_cons, total_cons, ih, Nat.add_assoc]

theorem total_perm (f : α → Nat) {xs ys : List α} (h : xs.Perm ys) : total f xs = total f ys := by
  induction h with
  | nil => rfl
  | cons x _ ih => rw [total_cons, total_cons, ih]
  | swap x y zs => simp only [total_cons]; omega
  | trans _ _ ih ih' => exact ih.trans ih'

theorem length_flatMap (f : α → List β) (xs : List α) :
    (xs.flatMap f).length = total (fun x => (f x).length) xs := by
  induction xs with
  | nil => rfl
  | cons x xs ih => rw [List.flatMap_cons, List.length_append, ih, total_cons]

end FlatGraph
