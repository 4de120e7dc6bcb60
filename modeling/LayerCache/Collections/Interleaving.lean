import Mathlib.Data.List.Basic

/-! # Interleavings

Any number of lists are taken from the front, one entry after the other, in any order between
them.
-/

inductive Interleaves {α : Type*} : List (List α) → List α → Prop
  | nil {lists : List (List α)} (h : ∀ l ∈ lists, l = []) : Interleaves lists []
  | next {front back : List (List α)} {a : α} {l as : List α}
      (h : Interleaves (front ++ l :: back) as) : Interleaves (front ++ (a :: l) :: back) (a :: as)

theorem Interleaves.mem_iff {α : Type*} {lists : List (List α)} {as : List α} {x : α}
    (h : Interleaves lists as) : x ∈ as ↔ ∃ l ∈ lists, x ∈ l := by
  induction h with
  | nil h =>
    constructor
    · exact fun hx => nomatch hx
    · rintro ⟨l, hl, hx⟩
      rw [h l hl] at hx
      cases hx
  | next _ ih =>
    rw [List.mem_cons, ih]
    simp only [List.mem_append, List.mem_cons, or_and_right, exists_or, exists_eq_left]
    rw [or_left_comm, or_assoc]
