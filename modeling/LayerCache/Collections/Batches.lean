import Mathlib.Algebra.Order.Group.Nat
import Mathlib.Data.List.Basic

/-! # Batches

A list cut into slices of one size, of which the last may be shorter.
-/

namespace List

variable {α : Type*}

/-- `for (let i = 0; i < xs.length; i += size) xs.slice(i, i + size)` -/
def batches (size : ℕ) (xs : List α) : List (List α) :=
  (List.range ((xs.length + size - 1) / size)).map fun i => (xs.drop (i * size)).take size

theorem flatten_slices (size : ℕ) (xs : List α) (n : ℕ) :
    ((List.range n).map fun i => (xs.drop (i * size)).take size).flatten = xs.take (n * size) := by
  induction n with
  | zero => simp
  | succ n ih =>
    rw [List.range_succ, List.map_append, List.flatten_append, ih, Nat.succ_mul, List.take_add]
    simp

theorem flatten_batches {size : ℕ} (hsize : 0 < size) (xs : List α) :
    (xs.batches size).flatten = xs := by
  rw [batches, flatten_slices]
  apply List.take_of_length_le
  have hdiv := Nat.div_add_mod (xs.length + size - 1) size
  have hmod := Nat.mod_lt (xs.length + size - 1) hsize
  have hcomm : (xs.length + size - 1) / size * size = size * ((xs.length + size - 1) / size) :=
    Nat.mul_comm _ _
  omega

end List
