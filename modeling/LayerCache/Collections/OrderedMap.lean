import Mathlib.Data.List.Nodup

/-! # Maps in insertion order

A map enumerates its entries in the order in which their keys were first set. Setting a
key again keeps its place, and a key that is deleted and set again comes last.
-/

structure OrderedMap (α β : Type*) where
  entries : List (α × β)
  nodup : (entries.map Prod.fst).Nodup

namespace OrderedMap

variable {α β : Type*}

def empty : OrderedMap α β := ⟨[], List.nodup_nil⟩

def keys (m : OrderedMap α β) : List α := m.entries.map Prod.fst

def size (m : OrderedMap α β) : ℕ := m.entries.length

theorem length_keys (m : OrderedMap α β) : m.keys.length = m.size := List.length_map ..

variable [DecidableEq α]

def get (m : OrderedMap α β) (a : α) : Option β := m.entries.lookup a

theorem fst_replace (a : α) (b : β) (entries : List (α × β)) :
    (entries.map fun entry => if entry.1 = a then (a, b) else entry).map Prod.fst =
      entries.map Prod.fst := by
  rw [List.map_map]
  apply List.map_congr_left
  intro entry _
  simp only [Function.comp_apply]
  split
  · rename_i h
    exact h.symm
  · rfl

def set (m : OrderedMap α β) (a : α) (b : β) : OrderedMap α β :=
  if h : a ∈ m.keys then
    ⟨m.entries.map fun entry => if entry.1 = a then (a, b) else entry,
      (fst_replace a b m.entries).symm ▸ m.nodup⟩
  else
    ⟨m.entries ++ [(a, b)], by
      rw [List.map_append]
      apply m.nodup.append (List.nodup_singleton a)
      intro x hx hxa
      cases List.mem_singleton.mp hxa
      exact h hx⟩

def delete (m : OrderedMap α β) (a : α) : OrderedMap α β :=
  ⟨m.entries.filter (·.1 ≠ a), m.nodup.sublist (List.filter_sublist.map _)⟩

/-- Changes what a key has in place, `none` being no entry. -/
def alter (m : OrderedMap α β) (a : α) (f : Option β → Option β) : OrderedMap α β :=
  match f (m.get a) with
  | some b => m.set a b
  | none => m.delete a

def filter (m : OrderedMap α β) (p : β → Bool) : OrderedMap α β :=
  ⟨m.entries.filter fun entry => p entry.2, m.nodup.sublist (List.filter_sublist.map _)⟩

variable {m : OrderedMap α β} {a a' : α} {b : β}

theorem lookup_eq_some_iff {entries : List (α × β)} (hnodup : (entries.map Prod.fst).Nodup) :
    entries.lookup a = some b ↔ (a, b) ∈ entries := by
  induction entries with
  | nil => simp
  | cons entry entries ih =>
    obtain ⟨x, y⟩ := entry
    simp only [List.map_cons, List.nodup_cons] at hnodup
    rw [List.lookup_cons, List.mem_cons]
    by_cases hx : a = x
    · subst hx
      have hnot : (a, b) ∉ entries := fun h => hnodup.1 (List.mem_map_of_mem h)
      simp [hnot, eq_comm]
    · have hbeq : (a == x) = false := by simpa using hx
      simp [hbeq, hx, ih hnodup.2]

theorem get_eq_some_iff : m.get a = some b ↔ (a, b) ∈ m.entries := lookup_eq_some_iff m.nodup

theorem get_isSome_iff : (m.get a).isSome ↔ a ∈ m.keys := by
  rw [Option.isSome_iff_exists]
  simp only [get_eq_some_iff, keys, List.mem_map, Prod.exists, exists_and_right, exists_eq_right]

theorem get_eq_none_iff : m.get a = none ↔ a ∉ m.keys := by
  rw [← get_isSome_iff, Option.not_isSome_iff_eq_none]

@[simp]
theorem get_empty : (empty : OrderedMap α β).get a = none := rfl

theorem mem_entries_set {x : α × β} :
    x ∈ (m.set a b).entries ↔ x = (a, b) ∨ x.1 ≠ a ∧ x ∈ m.entries := by
  unfold set
  split
  · rename_i h
    obtain ⟨entry, hentry, hfst⟩ := List.mem_map.mp h
    simp only [List.mem_map]
    constructor
    · rintro ⟨e, he, rfl⟩
      by_cases hea : e.1 = a
      · simp [hea]
      · simp [hea, he]
    · rintro (rfl | ⟨hne, hx⟩)
      · exact ⟨entry, hentry, by simp [hfst]⟩
      · exact ⟨x, hx, by simp [hne]⟩
  · rename_i h
    simp only [List.mem_append, List.mem_singleton]
    constructor
    · rintro (hx | rfl)
      · refine .inr ⟨?_, hx⟩
        rintro rfl
        exact h (List.mem_map_of_mem hx)
      · exact .inl rfl
    · rintro (rfl | ⟨-, hx⟩)
      · exact .inr rfl
      · exact .inl hx

theorem mem_entries_delete {x : α × β} : x ∈ (m.delete a).entries ↔ x.1 ≠ a ∧ x ∈ m.entries := by
  simp [delete, and_comm]

@[simp]
theorem get_set_self : (m.set a b).get a = some b := by
  rw [get_eq_some_iff, mem_entries_set]
  exact .inl rfl

theorem get_set_of_ne (h : a' ≠ a) : (m.set a b).get a' = m.get a' := by
  apply Option.ext
  intro y
  rw [get_eq_some_iff, get_eq_some_iff, mem_entries_set]
  simp [h]

@[simp]
theorem get_delete_self : (m.delete a).get a = none := by
  rw [get_eq_none_iff]
  simp [keys, delete]

theorem get_delete_of_ne (h : a' ≠ a) : (m.delete a).get a' = m.get a' := by
  apply Option.ext
  intro y
  rw [get_eq_some_iff, get_eq_some_iff, mem_entries_delete]
  simp [h]

theorem get_alter (f : Option β → Option β) :
    (m.alter a f).get a' = if a' = a then f (m.get a') else m.get a' := by
  unfold alter
  by_cases h : a' = a
  · subst h
    split
    · next b hb => rw [get_set_self, if_pos rfl, hb]
    · next hb => rw [get_delete_self, if_pos rfl, hb]
  · rw [if_neg h]
    split
    · exact get_set_of_ne h
    · exact get_delete_of_ne h

theorem get_foldl_alter {f : Option β → Option β} (hf : ∀ x, f (f x) = f x) (as : List α)
    (m : OrderedMap α β) :
    (as.foldl (fun m a => m.alter a f) m).get a = if a ∈ as then f (m.get a) else m.get a := by
  induction as generalizing m with
  | nil => simp
  | cons a' as ih =>
    rw [List.foldl_cons, ih, get_alter]
    by_cases h : a = a'
    · subst h
      simp [hf]
    · simp [h]

theorem entries_set_of_not_mem (h : a ∉ m.keys) : (m.set a b).entries = m.entries ++ [(a, b)] := by
  rw [set, dif_neg h]

theorem size_set_of_mem (h : a ∈ m.keys) : (m.set a b).size = m.size := by
  rw [set, dif_pos h]
  exact List.length_map ..

theorem size_set_le : (m.set a b).size ≤ m.size + 1 := by
  by_cases h : a ∈ m.keys
  · rw [size_set_of_mem h]
    exact Nat.le_succ _
  · rw [size, entries_set_of_not_mem h, List.length_append]
    exact Nat.le_refl _

theorem mem_keys_set : a' ∈ (m.set a b).keys ↔ a' = a ∨ a' ∈ m.keys := by
  by_cases h : a' = a
  · subst h
    simp [← get_isSome_iff]
  · simp [← get_isSome_iff, get_set_of_ne h, h]

theorem mem_keys_delete : a' ∈ (m.delete a).keys ↔ a' ≠ a ∧ a' ∈ m.keys := by
  by_cases h : a' = a
  · subst h
    simp [← get_isSome_iff]
  · simp [← get_isSome_iff, get_delete_of_ne h, h]

theorem keys_delete : (m.delete a).keys = m.keys.filter (· ≠ a) := by
  rw [keys, keys, delete, List.filter_map]
  rfl

theorem size_delete_of_mem (h : a ∈ m.keys) : (m.delete a).size + 1 = m.size := by
  have hkeys : (m.delete a).keys = m.keys.erase a := by
    have hnodup : m.keys.Nodup := m.nodup
    rw [keys_delete, hnodup.erase_eq_filter]
    apply List.filter_congr
    intro x _
    simp [bne, Bool.beq_eq_decide_eq]
  rw [← length_keys, ← length_keys, hkeys, List.length_erase_of_mem h]
  exact Nat.sub_add_cancel (List.length_pos_of_mem h)

theorem size_delete_le : (m.delete a).size ≤ m.size := List.length_filter_le _ _

theorem entries_delete_set :
    ((m.delete a).set a b).entries = m.entries.filter (·.1 ≠ a) ++ [(a, b)] :=
  entries_set_of_not_mem fun h => (mem_keys_delete.mp h).1 rfl

theorem size_delete_set : ((m.delete a).set a b).size = (m.delete a).size + 1 := by
  rw [size, entries_delete_set, List.length_append]
  rfl

theorem get_filter (p : β → Bool) : (m.filter p).get a = (m.get a).filter p := by
  apply Option.ext
  intro b
  rw [Option.filter_eq_some_iff, get_eq_some_iff, get_eq_some_iff, filter, List.mem_filter]

theorem get_foldl_delete (as : List α) (m : OrderedMap α β) :
    (as.foldl delete m).get a = if a ∈ as then none else m.get a := by
  induction as generalizing m with
  | nil => simp
  | cons a' as ih =>
    rw [List.foldl_cons, ih]
    by_cases h : a = a'
    · subst h
      simp [get_delete_self]
    · simp [h, get_delete_of_ne h]

theorem filter_delete (p : β → Bool) : (m.delete a).filter p = (m.filter p).delete a := by
  simp only [filter, delete, List.filter_filter, Bool.and_comm]

theorem delete_of_not_mem (h : a ∉ m.keys) : m.delete a = m := by
  have hentries : m.entries.filter (·.1 ≠ a) = m.entries := by
    apply List.filter_eq_self.mpr
    intro entry hentry
    apply decide_eq_true
    rintro rfl
    exact h (List.mem_map_of_mem hentry)
  cases m
  simp only [delete, hentries]

theorem entries_delete_head {entry : α × β} {rest : List (α × β)}
    (h : m.entries = entry :: rest) : (m.delete entry.1).entries = rest := by
  have hnodup := m.nodup
  rw [h, List.map_cons, List.nodup_cons] at hnodup
  change m.entries.filter (·.1 ≠ entry.1) = rest
  rw [h, List.filter_cons, if_neg (by simp)]
  apply List.filter_eq_self.mpr
  intro other hother
  apply decide_eq_true
  intro heq
  exact hnodup.1 (heq ▸ List.mem_map_of_mem hother)

end OrderedMap
