import Mathlib.Algebra.Order.BigOperators.Group.Finset

/-! # Counting over numbered things

Things are numbered from zero on, and a count over them moves by what changes of one of them.
-/

namespace Counting

variable {β : Type*}

/-- The sum of `f` over the things with a number below `n`. -/
def total (n : ℕ) (g : ℕ → β) (f : β → ℕ) : ℕ := ∑ i ∈ Finset.range n, f (g i)

variable {n i : ℕ} {g : ℕ → β}

theorem total_update (hi : i < n) (g : ℕ → β) (b : β) (f : β → ℕ) :
    total n (Function.update g i b) f + f (g i) = total n g f + f b := by
  have hmem : i ∈ Finset.range n := Finset.mem_range.mpr hi
  unfold total
  rw [← Finset.add_sum_erase _ _ hmem, ← Finset.add_sum_erase _ (fun j => f (g j)) hmem]
  have hrest : ∑ j ∈ (Finset.range n).erase i, f (Function.update g i b j) =
      ∑ j ∈ (Finset.range n).erase i, f (g j) :=
    Finset.sum_congr rfl fun j hj => by rw [Function.update_of_ne (Finset.ne_of_mem_erase hj)]
  rw [hrest, Function.update_self]
  omega

theorem total_succ_update (n : ℕ) (g : ℕ → β) (b : β) (f : β → ℕ) :
    total (n + 1) (Function.update g n b) f = total n g f + f b := by
  unfold total
  rw [Finset.sum_range_succ, Function.update_self]
  have hrest : ∑ j ∈ Finset.range n, f (Function.update g n b j) =
      ∑ j ∈ Finset.range n, f (g j) :=
    Finset.sum_congr rfl fun j hj => by
      rw [Function.update_of_ne (Nat.ne_of_lt (Finset.mem_range.mp hj))]
  rw [hrest]

theorem total_succ (n : ℕ) (g : ℕ → β) (f : β → ℕ) : total (n + 1) g f = total n g f + f (g n) :=
  Finset.sum_range_succ _ _

theorem le_total (hi : i < n) (f : β → ℕ) : f (g i) ≤ total n g f := by
  unfold total
  rw [← Finset.add_sum_erase _ _ (Finset.mem_range.mpr hi)]
  exact Nat.le_add_right _ _

theorem total_congr {g' : ℕ → β} {f f' : β → ℕ} (h : ∀ i < n, f (g i) = f' (g' i)) :
    total n g f = total n g' f' :=
  Finset.sum_congr rfl fun i hi => h i (Finset.mem_range.mp hi)

theorem total_eq_zero {f : β → ℕ} (h : ∀ i < n, f (g i) = 0) : total n g f = 0 :=
  Finset.sum_eq_zero fun i hi => h i (Finset.mem_range.mp hi)

end Counting
