import Mathlib

/-!
# Sums over numbered things

A program that numbers the things it makes keeps totals over them by hand. What such a total should be is a
sum over the numbers given out so far; these are the rules by which it moves when one of the things changes
and when another is made.
-/

namespace KwaqueStorage.Lib

open Finset
open Function (update update_of_ne update_self)

variable {α : Type*} {n i : Nat} {f : Nat → α} {a : α} {weight : α → Nat}

/-- One thing changes: its old weight goes and its new one comes. -/
theorem sum_range_update (h : i < n) : ∑ j ∈ range n, weight (update f i a j) + weight (f i)
    = ∑ j ∈ range n, weight (f j) + weight a := by
  have hi : i ∈ range n := mem_range.mpr h
  rw [← add_sum_erase _ _ hi, ← add_sum_erase _ (fun j => weight (f j)) hi, update_self]
  have hsame : ∑ j ∈ (range n).erase i, weight (update f i a j)
      = ∑ j ∈ (range n).erase i, weight (f j) := by
    refine sum_congr rfl ?_
    intro j hj
    rw [update_of_ne (ne_of_mem_erase hj)]
  rw [hsame]
  omega

/-- A thing that was not counted yet changes no total. -/
theorem sum_range_update_of_le (h : n ≤ i) :
    ∑ j ∈ range n, weight (update f i a j) = ∑ j ∈ range n, weight (f j) := by
  refine sum_congr rfl ?_
  intro j hj
  have hne : j ≠ i := Nat.ne_of_lt ((mem_range.mp hj).trans_le h)
  rw [update_of_ne hne]

/-- One thing more. -/
theorem sum_range_make : ∑ j ∈ range (n + 1), weight (update f n a j)
    = ∑ j ∈ range n, weight (f j) + weight a := by
  rw [sum_range_succ, update_self, sum_range_update_of_le (Nat.le_refl n)]

end KwaqueStorage.Lib
