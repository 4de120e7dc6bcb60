import LayerCache.Collections.OrderedMap
import LayerCache.StoredValue.Basic
import Mathlib.Data.List.Sort

/-! # Circuit breakers

A breaker counts failures and opens for a cooldown when they reach a threshold. The manager
keeps one for each key that failures are recorded for, and makes room by dropping
breakers that are not open and then the oldest.
-/

namespace LayerCache

structure CircuitBreakerState where
  failures : ℕ
  openUntil : Option Millis
  createdAt : Millis
  deriving DecidableEq

/-- The options of a breaker, in the form in which they are accepted. -/
structure CacheCircuitBreakerOptions where
  failureThreshold : Option ℚ
  cooldownMs : Option Millis
  failureThreshold_pos : ∀ threshold ∈ failureThreshold, 0 < threshold
  cooldownMs_pos : ∀ ms ∈ cooldownMs, 0 < ms
  deriving DecidableEq

namespace CacheCircuitBreakerOptions

def threshold (options : CacheCircuitBreakerOptions) : ℚ := options.failureThreshold.getD 3

def cooldown (options : CacheCircuitBreakerOptions) : Millis := options.cooldownMs.getD 30000

theorem cooldown_pos (options : CacheCircuitBreakerOptions) : 0 < options.cooldown := by
  unfold cooldown
  cases h : options.cooldownMs with
  | none => norm_num
  | some ms => exact options.cooldownMs_pos ms h

end CacheCircuitBreakerOptions

/-- `!state.openUntil` is false: there is a time, and it is not zero. -/
def CircuitBreakerState.tripped (state : CircuitBreakerState) : Option Millis :=
  state.openUntil.filter (· ≠ 0)

structure CircuitOpenError (K : Type*) where
  key : K
  remainingSecs : ℤ
  deriving DecidableEq

structure CircuitBreakerManager (K : Type*) where
  maxEntries : ℚ
  breakers : OrderedMap K CircuitBreakerState

namespace CircuitBreakerManager

variable {K : Type*} [DecidableEq K]

def Open (manager : CircuitBreakerManager K) (now : Millis) (key : K) : Prop :=
  ∃ state u, manager.breakers.get key = some state ∧ state.tripped = some u ∧ now < u

def delete (manager : CircuitBreakerManager K) (key : K) : CircuitBreakerManager K :=
  { manager with breakers := manager.breakers.delete key }

/-- The breaker is dropped once its cooldown has elapsed. -/
def assertClosed (manager : CircuitBreakerManager K) (now : Millis) (key : K) :
    Except (CircuitOpenError K) Unit × CircuitBreakerManager K :=
  match (manager.breakers.get key).bind CircuitBreakerState.tripped with
  | none => (.ok (), manager)
  | some openUntil =>
    if openUntil ≤ now then (.ok (), manager.delete key)
    else (.error ⟨key, ⌈(openUntil - now) / 1000⌉⟩, manager)

def fits (manager : CircuitBreakerManager K) (breakers : OrderedMap K CircuitBreakerState) : Prop :=
  (breakers.size : ℚ) ≤ manager.maxEntries

instance (manager : CircuitBreakerManager K) (breakers : OrderedMap K CircuitBreakerState) :
    Decidable (manager.fits breakers) :=
  inferInstanceAs (Decidable (_ ≤ _))

def dropUntilFits (manager : CircuitBreakerManager K) (keys : List K) : CircuitBreakerManager K :=
  keys.foldl (fun manager key =>
    if manager.fits manager.breakers then manager else manager.delete key) manager

def pruneIfNeeded (manager : CircuitBreakerManager K) (now : Millis) : CircuitBreakerManager K :=
  let expired := manager.breakers.entries.filter fun entry =>
    entry.2.tripped.all fun openUntil => decide (openUntil ≤ now)
  let manager := manager.dropUntilFits (expired.map Prod.fst)
  let sorted := manager.breakers.entries.insertionSort fun a b => a.2.createdAt ≤ b.2.createdAt
  manager.dropUntilFits (sorted.map Prod.fst)

/-- A failure opens the breaker if it reaches the threshold. -/
def failed (manager : CircuitBreakerManager K) (now : Millis) (key : K)
    (options : CacheCircuitBreakerOptions) : CircuitBreakerState :=
  let state := (manager.breakers.get key).getD ⟨0, none, now⟩
  let failures := state.failures + 1
  { state with
    failures
    openUntil := if options.threshold ≤ failures then some (now + options.cooldown)
      else state.openUntil }

def recordFailure (manager : CircuitBreakerManager K) (now : Millis) (key : K) :
    Option CacheCircuitBreakerOptions → CircuitBreakerManager K
  | none => manager
  | some options =>
    { manager with breakers := manager.breakers.set key (manager.failed now key options)
      }.pruneIfNeeded now

def recordSuccess (manager : CircuitBreakerManager K) (key : K) : CircuitBreakerManager K :=
  manager.delete key

def isOpen (manager : CircuitBreakerManager K) (now : Millis) (key : K) :
    Bool × CircuitBreakerManager K :=
  match (manager.breakers.get key).bind CircuitBreakerState.tripped with
  | none => (false, manager)
  | some openUntil => if openUntil ≤ now then (false, manager.delete key) else (true, manager)

variable {manager : CircuitBreakerManager K} {now : Millis} {key k : K}
  {breakers : OrderedMap K CircuitBreakerState}

@[simp]
theorem get_delete_self : (manager.delete key).breakers.get key = none :=
  OrderedMap.get_delete_self

theorem get_delete_of_ne (h : k ≠ key) :
    (manager.delete key).breakers.get k = manager.breakers.get k :=
  OrderedMap.get_delete_of_ne h

theorem get_delete (manager : CircuitBreakerManager K) (key k : K) :
    (manager.delete key).breakers.get k = manager.breakers.get k ∨
    (manager.delete key).breakers.get k = none := by
  by_cases h : k = key
  · subst h
    exact .inr get_delete_self
  · exact .inl (get_delete_of_ne h)

theorem get_dropUntilFits (keys : List K) (manager : CircuitBreakerManager K) (k : K) :
    (manager.dropUntilFits keys).breakers.get k = manager.breakers.get k ∨
      (manager.dropUntilFits keys).breakers.get k = none := by
  induction keys generalizing manager with
  | nil => exact .inl rfl
  | cons key keys ih =>
    rw [dropUntilFits, List.foldl_cons]
    split
    · exact ih manager
    · rcases ih (manager.delete key) with h | h
      · rcases get_delete manager key k with h' | h'
        · exact .inl (h.trans h')
        · exact .inr (h.trans h')
      · exact .inr h

theorem get_pruneIfNeeded (manager : CircuitBreakerManager K) (now : Millis) (k : K) :
    (manager.pruneIfNeeded now).breakers.get k = manager.breakers.get k ∨
      (manager.pruneIfNeeded now).breakers.get k = none := by
  unfold pruneIfNeeded
  simp only
  rcases get_dropUntilFits _ _ k with h | h
  · rw [h]
    exact get_dropUntilFits _ _ k
  · exact .inr h

theorem dropUntilFits_of_fits (h : manager.fits manager.breakers) (keys : List K) :
    manager.dropUntilFits keys = manager := by
  induction keys with
  | nil => rfl
  | cons key keys ih => rwa [dropUntilFits, List.foldl_cons, if_pos h]

theorem pruneIfNeeded_of_fits (h : manager.fits manager.breakers) :
    manager.pruneIfNeeded now = manager := by
  unfold pruneIfNeeded
  simp only [dropUntilFits_of_fits h]

theorem get_recordFailure_of_ne (manager : CircuitBreakerManager K) (now : Millis)
    (options : Option CacheCircuitBreakerOptions) (h : k ≠ key) :
    (manager.recordFailure now key options).breakers.get k = manager.breakers.get k ∨
      (manager.recordFailure now key options).breakers.get k = none := by
  cases options with
  | none => exact .inl rfl
  | some options =>
    have hset := get_pruneIfNeeded
      { manager with breakers := manager.breakers.set key (manager.failed now key options) } now k
    rwa [OrderedMap.get_set_of_ne h] at hset

theorem get_recordFailure_self (manager : CircuitBreakerManager K) (now : Millis) (key : K)
    (options : CacheCircuitBreakerOptions) :
    (manager.recordFailure now key (some options)).breakers.get key =
        some (manager.failed now key options) ∨
      (manager.recordFailure now key (some options)).breakers.get key = none := by
  have hset := get_pruneIfNeeded
    { manager with breakers := manager.breakers.set key (manager.failed now key options) } now key
  rwa [OrderedMap.get_set_self] at hset

section Room

variable {options : CacheCircuitBreakerOptions} {state : CircuitBreakerState} {keys : List K}
  {older : List (K × CircuitBreakerState)}

@[simp]
theorem maxEntries_dropUntilFits (keys : List K) (manager : CircuitBreakerManager K) :
    (manager.dropUntilFits keys).maxEntries = manager.maxEntries := by
  induction keys generalizing manager with
  | nil => rfl
  | cons key keys ih =>
    rw [dropUntilFits, List.foldl_cons]
    split
    · exact ih manager
    · exact ih (manager.delete key)

/-- Keys are dropped only until the rest fits. -/
theorem fits_or_not_mem (keys : List K) (manager : CircuitBreakerManager K) :
    manager.fits (manager.dropUntilFits keys).breakers ∨
      ∀ k ∈ (manager.dropUntilFits keys).breakers.keys, k ∉ keys ∧ k ∈ manager.breakers.keys := by
  induction keys generalizing manager with
  | nil => exact .inr fun k hk => ⟨List.not_mem_nil, hk⟩
  | cons key keys ih =>
    rw [dropUntilFits, List.foldl_cons]
    split
    · rename_i hfits
      exact .inl (by rwa [← dropUntilFits, dropUntilFits_of_fits hfits])
    · rcases ih (manager.delete key) with h | h
      · exact .inl h
      · refine .inr fun k hk => ?_
        obtain ⟨hnot, hmem⟩ := h k hk
        obtain ⟨hne, hmem⟩ := OrderedMap.mem_keys_delete.mp hmem
        exact ⟨by simp [hne, hnot], hmem⟩

theorem fits_pruneIfNeeded (manager : CircuitBreakerManager K) (now : Millis) :
    manager.fits (manager.pruneIfNeeded now).breakers ∨
      (manager.pruneIfNeeded now).breakers.keys = [] := by
  unfold pruneIfNeeded
  simp only
  generalize hfirst : manager.dropUntilFits _ = first
  have hmax : first.maxEntries = manager.maxEntries := by
    rw [← hfirst, maxEntries_dropUntilFits]
  rcases fits_or_not_mem ((first.breakers.entries.insertionSort
    fun a b => a.2.createdAt ≤ b.2.createdAt).map Prod.fst) first with h | h
  · exact .inl (by rwa [fits, hmax] at h)
  · right
    rw [List.eq_nil_iff_forall_not_mem]
    intro k hk
    obtain ⟨hnot, hmem⟩ := h k hk
    obtain ⟨entry, hentry, rfl⟩ := List.mem_map.mp hmem
    exact hnot (List.mem_map_of_mem ((List.mem_insertionSort _).mpr hentry))

@[simp]
theorem maxEntries_pruneIfNeeded (manager : CircuitBreakerManager K) (now : Millis) :
    (manager.pruneIfNeeded now).maxEntries = manager.maxEntries := by
  simp [pruneIfNeeded]

theorem entries_dropUntilFits (hkeys : key ∉ keys)
    (hentries : manager.breakers.entries = older ++ [(key, state)]) :
    ∃ rest, (manager.dropUntilFits keys).breakers.entries = rest ++ [(key, state)] ∧
      rest ⊆ older := by
  induction keys generalizing manager older with
  | nil => exact ⟨older, hentries, List.Subset.refl _⟩
  | cons k keys ih =>
    rw [List.mem_cons, not_or] at hkeys
    obtain ⟨hk, hkeys⟩ := hkeys
    rw [dropUntilFits, List.foldl_cons]
    split
    · exact ih hkeys hentries
    · have hdelete : (manager.delete k).breakers.entries =
          older.filter (·.1 ≠ k) ++ [(key, state)] := by
        simp [CircuitBreakerManager.delete, OrderedMap.delete, hentries, hk]
      obtain ⟨rest, hrest, hsubset⟩ := ih hkeys hdelete
      exact ⟨rest, hrest, fun x hx => List.mem_of_mem_filter (hsubset hx)⟩

theorem orderedInsert_append_last {α : Type*} {le : α → α → Prop} [DecidableRel le] {x y : α}
    (h : le x y) (entries : List α) :
    (entries ++ [y]).orderedInsert le x = entries.orderedInsert le x ++ [y] := by
  induction entries with
  | nil => simp [h]
  | cons z entries ih =>
    simp only [List.cons_append, List.orderedInsert_cons]
    split
    · rfl
    · rw [ih]; rfl

theorem insertionSort_append_last {α : Type*} {le : α → α → Prop} [DecidableRel le] {y : α}
    {entries : List α} (h : ∀ x ∈ entries, le x y) :
    (entries ++ [y]).insertionSort le = entries.insertionSort le ++ [y] := by
  induction entries with
  | nil => simp
  | cons x entries ih =>
    rw [List.cons_append, List.insertionSort_cons, List.insertionSort_cons,
      ih fun z hz => h z (List.mem_cons_of_mem _ hz), orderedInsert_append_last]
    exact h x List.mem_cons_self

theorem get_pruneIfNeeded_last (hroom : 1 ≤ manager.maxEntries)
    (hentries : manager.breakers.entries = older ++ [(key, state)])
    (holder : ∀ entry ∈ older, entry.2.createdAt ≤ state.createdAt) {u : Millis}
    (hopen : state.tripped = some u) (hu : now < u) :
    (manager.pruneIfNeeded now).breakers.get key = some state := by
  have hexpired : key ∉ (manager.breakers.entries.filter fun entry =>
      entry.2.tripped.all fun openUntil => decide (openUntil ≤ now)).map Prod.fst := by
    intro hmem
    obtain ⟨⟨k, old⟩, hentry, rfl⟩ := List.mem_map.mp hmem
    obtain ⟨hentry, hall⟩ := List.mem_filter.mp hentry
    have hget : manager.breakers.get k = some state :=
      OrderedMap.get_eq_some_iff.mpr (by simp [hentries])
    rw [OrderedMap.get_eq_some_iff.mpr hentry] at hget
    cases hget
    simp only [hopen, Option.all_some, decide_eq_true_eq] at hall
    exact absurd hu (not_lt.mpr hall)
  obtain ⟨rest, hrest, hsubset⟩ := entries_dropUntilFits hexpired hentries
  unfold pruneIfNeeded
  simp only
  generalize hfirst : manager.dropUntilFits _ = first at hrest ⊢
  have hmax : first.maxEntries = manager.maxEntries := by
    rw [← hfirst, maxEntries_dropUntilFits]
  have hsorted : first.breakers.entries.insertionSort (fun a b => a.2.createdAt ≤ b.2.createdAt) =
      rest.insertionSort (fun a b => a.2.createdAt ≤ b.2.createdAt) ++ [(key, state)] := by
    rw [hrest]
    exact insertionSort_append_last fun x hx => holder x (hsubset hx)
  have hnodup := first.breakers.nodup
  rw [hrest, List.map_append] at hnodup
  have hkey : key ∉ (rest.insertionSort fun a b => a.2.createdAt ≤ b.2.createdAt).map Prod.fst := by
    intro hmem
    obtain ⟨entry, hentry, hfst⟩ := List.mem_map.mp hmem
    have hin : key ∈ rest.map Prod.fst :=
      hfst ▸ List.mem_map_of_mem ((List.mem_insertionSort _).mp hentry)
    exact List.disjoint_of_nodup_append hnodup hin (by simp)
  obtain ⟨last, hlast, hlastSubset⟩ := entries_dropUntilFits hkey hrest
  have hsplit : first.dropUntilFits ((first.breakers.entries.insertionSort
      fun a b => a.2.createdAt ≤ b.2.createdAt).map Prod.fst) =
      (first.dropUntilFits ((rest.insertionSort
        fun a b => a.2.createdAt ≤ b.2.createdAt).map Prod.fst)).dropUntilFits [key] := by
    rw [hsorted, List.map_append]
    exact List.foldl_append
  rw [hsplit]
  -- either the others have made room before its turn, or nothing else is left
  have hfits : CircuitBreakerManager.fits (first.dropUntilFits ((rest.insertionSort
      fun a b => a.2.createdAt ≤ b.2.createdAt).map Prod.fst))
      (first.dropUntilFits ((rest.insertionSort
        fun a b => a.2.createdAt ≤ b.2.createdAt).map Prod.fst)).breakers := by
    rw [fits, maxEntries_dropUntilFits]
    rcases fits_or_not_mem ((rest.insertionSort
      fun a b => a.2.createdAt ≤ b.2.createdAt).map Prod.fst) first with h | h
    · exact h
    · have hnil : last = [] := by
        rw [List.eq_nil_iff_forall_not_mem]
        intro entry hentry
        have hmem : entry.1 ∈ (first.dropUntilFits ((rest.insertionSort
            fun a b => a.2.createdAt ≤ b.2.createdAt).map Prod.fst)).breakers.keys := by
          rw [OrderedMap.keys, hlast]
          exact List.mem_map_of_mem (List.mem_append_left _ hentry)
        exact (h entry.1 hmem).1
          (List.mem_map_of_mem ((List.mem_insertionSort _).mpr (hlastSubset hentry)))
      rw [OrderedMap.size, hlast, hnil, hmax]
      simpa using hroom
  rw [dropUntilFits_of_fits hfits]
  exact OrderedMap.get_eq_some_iff.mpr (by simp [hlast])

theorem failures_failed : (manager.failed now key options).failures =
    (manager.breakers.get key).elim 0 (·.failures) + 1 := by
  unfold failed
  cases manager.breakers.get key <;> rfl

theorem get_recordFailure_opened (hroom : 1 ≤ manager.maxEntries)
    (hfits : manager.fits manager.breakers ∨ manager.breakers.keys = [])
    (holder : ∀ entry ∈ manager.breakers.entries, entry.2.createdAt ≤ now) (hnow : 0 ≤ now)
    (hthreshold : options.threshold ≤ (manager.failed now key options).failures) :
    (manager.recordFailure now key (some options)).breakers.get key =
      some (manager.failed now key options) := by
  have hcooldown := options.cooldown_pos
  have hopen : (manager.failed now key options).tripped = some (now + options.cooldown) := by
    have hne : now + options.cooldown ≠ 0 := by linarith
    have hopenUntil : (manager.failed now key options).openUntil =
        some (now + options.cooldown) := if_pos hthreshold
    simp [CircuitBreakerState.tripped, hopenUntil, Option.filter, hne]
  by_cases hkey : key ∈ manager.breakers.keys
  · have hfits : manager.fits manager.breakers := hfits.resolve_right (List.ne_nil_of_mem hkey)
    have hset : CircuitBreakerManager.fits
        { manager with breakers := manager.breakers.set key (manager.failed now key options) }
        (manager.breakers.set key (manager.failed now key options)) := by
      rwa [fits, OrderedMap.size_set_of_mem hkey]
    rw [recordFailure, pruneIfNeeded_of_fits hset]
    exact OrderedMap.get_set_self
  · have hcreated : (manager.failed now key options).createdAt = now := by
      unfold failed
      rw [OrderedMap.get_eq_none_iff.mpr hkey]
      rfl
    rw [recordFailure]
    generalize hset : ({ manager with
      breakers := manager.breakers.set key (manager.failed now key options) } :
        CircuitBreakerManager K) = after
    have hentries : after.breakers.entries =
        manager.breakers.entries ++ [(key, manager.failed now key options)] := by
      rw [← hset]
      exact OrderedMap.entries_set_of_not_mem hkey
    have hroom' : 1 ≤ after.maxEntries := by rwa [← hset]
    apply get_pruneIfNeeded_last hroom' hentries ?_ hopen (by linarith)
    rwa [hcreated]

theorem fits_recordFailure (options : Option CacheCircuitBreakerOptions)
    (h : manager.fits manager.breakers ∨ manager.breakers.keys = []) :
    (manager.recordFailure now key options).fits (manager.recordFailure now key options).breakers ∨
      (manager.recordFailure now key options).breakers.keys = [] := by
  cases options with
  | none => exact h
  | some options =>
    unfold recordFailure
    simp only [fits, maxEntries_pruneIfNeeded]
    exact fits_pruneIfNeeded _ now

theorem fits_delete (h : manager.fits manager.breakers ∨ manager.breakers.keys = []) :
    (manager.delete key).fits (manager.delete key).breakers ∨
      (manager.delete key).breakers.keys = [] := by
  refine h.imp (fun h => ?_) fun h => ?_
  · have hle : (manager.breakers.delete key).size ≤ manager.breakers.size :=
      List.length_filter_le _ _
    exact le_trans (by exact_mod_cast hle) h
  · rw [List.eq_nil_iff_forall_not_mem]
    intro k hk
    have hmem := (OrderedMap.mem_keys_delete.mp hk).2
    rw [h] at hmem
    exact List.not_mem_nil hmem

theorem get_pruneIfNeeded_of_lt_one (h : manager.maxEntries < 1) :
    (manager.pruneIfNeeded now).breakers.get k = none := by
  have hkeys : (manager.pruneIfNeeded now).breakers.keys = [] := by
    rcases fits_pruneIfNeeded manager now with hfits | hkeys
    · have hsize : ((manager.pruneIfNeeded now).breakers.size : ℚ) < (1 : ℕ) := by
        exact_mod_cast lt_of_le_of_lt hfits h
      have hzero : (manager.pruneIfNeeded now).breakers.size = 0 := by
        have := Nat.cast_lt.mp hsize
        omega
      rw [OrderedMap.keys, List.length_eq_zero_iff.mp hzero, List.map_nil]
    · exact hkeys
  rw [OrderedMap.get_eq_none_iff, hkeys]
  exact List.not_mem_nil

end Room

theorem Open.of_get {manager' : CircuitBreakerManager K}
    (hget : manager'.breakers.get k = manager.breakers.get k ∨ manager'.breakers.get k = none)
    (h : manager'.Open now k) : manager.Open now k := by
  obtain ⟨state, u, hstate, htripped, hlt⟩ := h
  rcases hget with hget | hget
  · exact ⟨state, u, hget ▸ hstate, htripped, hlt⟩
  · rw [hget] at hstate
    cases hstate

/-- A breaker that is open was open before, unless it was opened. -/
theorem Open.earlier {now' : Millis} (hle : now ≤ now') (h : manager.Open now' k) :
    manager.Open now k := by
  obtain ⟨state, u, hstate, htripped, hlt⟩ := h
  exact ⟨state, u, hstate, htripped, hle.trans_lt hlt⟩

theorem open_iff_isOpen : manager.Open now key ↔ (manager.isOpen now key).1 = true := by
  unfold isOpen
  cases htripped : (manager.breakers.get key).bind CircuitBreakerState.tripped with
  | none =>
    simp only [Bool.false_eq_true, iff_false]
    rintro ⟨state, u, hget, hu, -⟩
    rw [hget, Option.bind_some, hu] at htripped
    cases htripped
  | some openUntil =>
    obtain ⟨state, hget, hu⟩ := Option.bind_eq_some_iff.mp htripped
    simp only
    constructor
    · rintro ⟨state', u, hget', hu', hlt⟩
      cases hget.symm.trans hget'
      cases hu.symm.trans hu'
      rw [if_neg (not_le.mpr hlt)]
    · intro hopen
      by_cases hle : openUntil ≤ now
      · rw [if_pos hle] at hopen
        cases hopen
      · exact ⟨state, openUntil, hget, hu, not_le.mp hle⟩

theorem get_isOpen (k : K) : (manager.isOpen now key).2.breakers.get k = manager.breakers.get k ∨
    (manager.isOpen now key).2.breakers.get k = none := by
  unfold isOpen
  split
  · exact .inl rfl
  · split
    · exact get_delete _ key k
    · exact .inl rfl

theorem not_open_of_assertClosed {manager' : CircuitBreakerManager K}
    (h : manager.assertClosed now key = (.ok (), manager')) :
    ¬ manager.Open now key ∧ ∀ k, manager'.breakers.get k = manager.breakers.get k ∨
      manager'.breakers.get k = none := by
  unfold assertClosed at h
  cases htripped : (manager.breakers.get key).bind CircuitBreakerState.tripped with
  | none =>
    rw [htripped] at h
    cases h
    refine ⟨?_, fun k => .inl rfl⟩
    rintro ⟨state, u, hget, hu, -⟩
    rw [hget, Option.bind_some, hu] at htripped
    cases htripped
  | some openUntil =>
    rw [htripped] at h
    simp only at h
    split at h
    · rename_i hle
      cases h
      refine ⟨?_, fun k => get_delete _ key k⟩
      rintro ⟨state, u, hget, hu, hlt⟩
      rw [hget, Option.bind_some, hu] at htripped
      cases htripped
      exact absurd hle (not_le.mpr hlt)
    · cases h

theorem eq_of_assertClosed_error {manager' : CircuitBreakerManager K} {error : CircuitOpenError K}
    (h : manager.assertClosed now key = (.error error, manager')) : manager' = manager := by
  unfold assertClosed at h
  split at h
  · cases h
  · split at h
    · cases h
    · cases h
      rfl

/-- A failure opens its breaker only if it reaches the threshold. -/
theorem Open.of_recordFailure {options : Option CacheCircuitBreakerOptions}
    (h : (manager.recordFailure now key options).Open now k) :
    manager.Open now k ∨ k = key ∧ ∃ o, options = some o ∧
      o.threshold ≤ ((manager.breakers.get key).elim 0 (·.failures) + 1 : ℕ) := by
  cases options with
  | none => exact .inl h
  | some options =>
    by_cases hk : k = key
    · subst hk
      by_cases hthreshold : options.threshold ≤ (manager.failed now k options).failures
      · rw [failures_failed] at hthreshold
        exact .inr ⟨rfl, options, rfl, hthreshold⟩
      · left
        obtain ⟨state, u, hstate, htripped, hlt⟩ := h
        rcases get_recordFailure_self manager now k options with hget | hget
        · cases hget.symm.trans hstate
          have hopenUntil : (manager.failed now k options).openUntil =
              ((manager.breakers.get k).getD ⟨0, none, now⟩).openUntil := if_neg hthreshold
          cases hbreaker : manager.breakers.get k with
          | none =>
            rw [CircuitBreakerState.tripped, hopenUntil, hbreaker] at htripped
            cases htripped
          | some state =>
            rw [CircuitBreakerState.tripped, hopenUntil, hbreaker] at htripped
            exact ⟨state, u, hbreaker, htripped, hlt⟩
        · cases hget.symm.trans hstate
    · exact .inl (h.of_get (get_recordFailure_of_ne _ _ (some options) hk))

/-- Something has happened to one breaker that takes up to so much room, and to no other. -/
structure Touches (key : K) (room : ℕ) (manager manager' : CircuitBreakerManager K) : Prop where
  others : ∀ k ≠ key, manager'.breakers.get k = manager.breakers.get k
  size : manager'.breakers.size ≤ manager.breakers.size + room
  maxEntries : manager'.maxEntries = manager.maxEntries

variable {manager' : CircuitBreakerManager K}

theorem Touches.rfl : Touches key 0 manager manager :=
  ⟨fun _ _ => Eq.refl _, Nat.le_refl _, Eq.refl _⟩

theorem Touches.trans {room room' : ℕ} {first second third : CircuitBreakerManager K}
    (h : Touches key room first second) (h' : Touches key room' second third) :
    Touches key (room + room') first third where
  others k hk := (h'.others k hk).trans (h.others k hk)
  size := by
    have hsecond := h.size
    have hthird := h'.size
    omega
  maxEntries := h'.maxEntries.trans h.maxEntries

theorem Touches.le {room room' : ℕ} (h : Touches key room manager manager') (hle : room ≤ room') :
    Touches key room' manager manager' :=
  ⟨h.others, h.size.trans (Nat.add_le_add_left hle _), h.maxEntries⟩

theorem touches_delete : Touches key 0 manager (manager.delete key) :=
  ⟨fun _ => get_delete_of_ne, OrderedMap.size_delete_le, rfl⟩

theorem isOk_assertClosed (h : manager'.breakers.get key = manager.breakers.get key) :
    (manager'.assertClosed now key).1.isOk = (manager.assertClosed now key).1.isOk := by
  unfold assertClosed
  rw [h]
  split
  · rfl
  · split
    · rfl
    · rfl

theorem touches_assertClosed : Touches key 0 manager (manager.assertClosed now key).2 := by
  unfold assertClosed
  split
  · exact .rfl
  · split
    · exact touches_delete
    · exact .rfl

theorem touches_isOpen : Touches key 0 manager (manager.isOpen now key).2 := by
  unfold isOpen
  split
  · exact .rfl
  · split
    · exact touches_delete
    · exact .rfl

/-- Where there is room for one more, a failure makes no other breaker go. -/
theorem touches_recordFailure (hroom : (manager.breakers.size : ℚ) + 1 ≤ manager.maxEntries)
    (options : CacheCircuitBreakerOptions) :
    Touches key 1 manager (manager.recordFailure now key (some options)) := by
  have hfits : CircuitBreakerManager.fits
      { manager with breakers := manager.breakers.set key (manager.failed now key options) }
      (manager.breakers.set key (manager.failed now key options)) := by
    have hsize : (manager.breakers.set key (manager.failed now key options)).size ≤
        manager.breakers.size + 1 := OrderedMap.size_set_le
    refine le_trans ?_ hroom
    exact_mod_cast hsize
  rw [recordFailure, pruneIfNeeded_of_fits hfits]
  exact ⟨fun _ => OrderedMap.get_set_of_ne, OrderedMap.size_set_le, rfl⟩

end CircuitBreakerManager

end LayerCache
