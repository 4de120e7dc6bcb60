import Mathlib.Data.List.Sort

/-! # Stable sorting by a key

A stable sort leaves the items of each key in their order, and says nothing else about a list: two
lists come to the same exactly if they have the same items of each key in the same order.
-/

namespace StableSort

variable {α K : Type*} [LinearOrder K] (key : α → K) {xs ys : List α}

def sortBy (xs : List α) : List α := xs.insertionSort fun a b => key a ≤ key b

def ofKey (k : K) (xs : List α) : List α := xs.filter fun a => key a = k

theorem mem_sortBy {a : α} : a ∈ sortBy key xs ↔ a ∈ xs := List.mem_insertionSort _

theorem sorted_sortBy (xs : List α) : (sortBy key xs).Pairwise fun a b => key a ≤ key b := by
  have : Std.Total fun a b : α => key a ≤ key b := ⟨fun a b => le_total (key a) (key b)⟩
  have : IsTrans α fun a b => key a ≤ key b := ⟨fun _ _ _ => le_trans⟩
  exact List.pairwise_insertionSort _ xs

theorem nodup_sortBy (h : xs.Nodup) : (sortBy key xs).Nodup :=
  (List.perm_insertionSort _ xs).nodup_iff.mpr h

theorem length_sortBy (xs : List α) : (sortBy key xs).length = xs.length :=
  List.length_insertionSort _ xs

theorem le_of_mem_take {m : ℕ} {a b : α} (ha : a ∈ (sortBy key xs).take m)
    (hb : b ∈ (sortBy key xs).drop m) : key a ≤ key b := by
  have h := sorted_sortBy key xs
  rw [← List.take_append_drop m (sortBy key xs), List.pairwise_append] at h
  exact h.2.2 a ha b hb

theorem not_mem_drop {m : ℕ} {a : α} (h : xs.Nodup) (ha : a ∈ (sortBy key xs).take m) :
    a ∉ (sortBy key xs).drop m := by
  have hnodup := nodup_sortBy key h
  rw [← List.take_append_drop m (sortBy key xs), List.nodup_append] at hnodup
  intro hdrop
  exact hnodup.2.2 a ha a hdrop rfl

theorem mem_ofKey {k : K} {a : α} : a ∈ ofKey key k xs ↔ a ∈ xs ∧ key a = k := by
  rw [ofKey, List.mem_filter, decide_eq_true_iff]

theorem ofKey_cons_self (a : α) : ofKey key (key a) (a :: xs) = a :: ofKey key (key a) xs :=
  List.filter_cons_of_pos (decide_eq_true rfl)

theorem ofKey_sortBy (k : K) (xs : List α) : ofKey key k (sortBy key xs) = ofKey key k xs := by
  have hpairwise : (ofKey key k xs).Pairwise fun a b => key a ≤ key b := by
    refine List.pairwise_of_forall_mem_list fun a ha b hb => ?_
    rw [((mem_ofKey key).mp ha).2, ((mem_ofKey key).mp hb).2]
  have hsublist : (ofKey key k xs).Sublist (sortBy key xs) :=
    List.sublist_insertionSort hpairwise List.filter_sublist
  have hfiltered : (ofKey key k xs).Sublist (ofKey key k (sortBy key xs)) := by
    have h := hsublist.filter fun a => decide (key a = k)
    rwa [ofKey, List.filter_filter, List.filter_congr fun _ _ => Bool.and_self _] at h
  have hperm : (ofKey key k (sortBy key xs)).Perm (ofKey key k xs) :=
    (List.perm_insertionSort _ xs).filter _
  exact (hfiltered.eq_of_length hperm.length_eq.symm).symm

theorem eq_of_sorted (hxs : xs.Pairwise fun a b => key a ≤ key b)
    (hys : ys.Pairwise fun a b => key a ≤ key b) (h : ∀ k, ofKey key k xs = ofKey key k ys) :
    xs = ys := by
  have hmem : ∀ {xs ys : List α}, (∀ k, ofKey key k xs = ofKey key k ys) → ∀ a ∈ xs, a ∈ ys := by
    intro xs ys h a ha
    exact ((mem_ofKey key).mp (h (key a) ▸ (mem_ofKey key).mpr ⟨ha, rfl⟩)).1
  induction xs generalizing ys with
  | nil =>
    cases ys with
    | nil => rfl
    | cons b ys => cases hmem (fun k => (h k).symm) b List.mem_cons_self
  | cons a xs ih =>
    cases ys with
    | nil => cases hmem h a List.mem_cons_self
    | cons b ys =>
      have hle : ∀ {a b : α} {xs ys : List α}, (b :: ys).Pairwise (fun a b => key a ≤ key b) →
          (∀ k, ofKey key k (a :: xs) = ofKey key k (b :: ys)) → key b ≤ key a := by
        intro a b xs ys hys h
        rcases List.mem_cons.mp (hmem h a List.mem_cons_self) with rfl | ha
        · exact le_rfl
        · exact List.rel_of_pairwise_cons hys ha
      have hkey : key a = key b := le_antisymm (hle hxs fun k => (h k).symm) (hle hys h)
      have hfirst := h (key a)
      rw [ofKey_cons_self, hkey, ofKey_cons_self] at hfirst
      obtain rfl := (List.cons.inj hfirst).1
      rw [ih hxs.of_cons hys.of_cons fun k => ?_]
      by_cases hk : key a = k
      · subst hk
        exact (List.cons.inj hfirst).2
      · have hrest := h k
        rwa [ofKey, ofKey, List.filter_cons_of_neg (by simpa using hk),
          List.filter_cons_of_neg (by simpa using hk)] at hrest

theorem sortBy_eq_iff : sortBy key xs = sortBy key ys ↔ ∀ k, ofKey key k xs = ofKey key k ys := by
  constructor
  · intro h k
    rw [← ofKey_sortBy key k xs, h, ofKey_sortBy]
  · intro h
    refine eq_of_sorted key (sorted_sortBy key xs) (sorted_sortBy key ys) fun k => ?_
    rw [ofKey_sortBy, ofKey_sortBy, h]

end StableSort
