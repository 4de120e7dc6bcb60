import LayerCache.Resilience.CircuitBreaker

/-! # What a circuit breaker stands for

A breaker stands for the failures since it was last reset: it is open if one of them reached its
threshold and the cooldown of the latest that did is not over. The manager answers so as long as it
has room for every key that has failures. Where it has not, it drops the open breakers last.
-/

namespace LayerCache

inductive BreakerOperation (K : Type*)
  | assertClosed (key : K)
  | recordFailure (key : K) (options : Option CacheCircuitBreakerOptions)
  | recordSuccess (key : K)
  | isOpen (key : K)

inductive BreakerAnswer (K : Type*)
  | recorded
  | assertion (outcome : Except (CircuitOpenError K) Unit)
  | openness (isOpen : Bool)

structure BreakerFailure where
  time : Millis
  options : CacheCircuitBreakerOptions

/-- The failures of each key since it was last reset, the latest first. -/
abbrev BreakerReference (K : Type*) := K → List BreakerFailure

/-- The latest failure that brought their number to its own threshold. -/
def lastOpening : List BreakerFailure → Option BreakerFailure
  | [] => none
  | failure :: older =>
    if failure.options.threshold ≤ (older.length + 1 : ℕ) then some failure else lastOpening older

def openUntil (failures : List BreakerFailure) : Option Millis :=
  (lastOpening failures).map fun failure => failure.time + failure.options.cooldown

namespace BreakerReference

variable {K : Type*} [DecidableEq K]

def reset (reference : BreakerReference K) (key : K) : BreakerReference K :=
  Function.update reference key []

def perform (reference : BreakerReference K) (now : Millis) :
    BreakerOperation K → BreakerAnswer K × BreakerReference K
  | .assertClosed key =>
    match openUntil (reference key) with
    | none => (.assertion (.ok ()), reference)
    | some deadline =>
      if deadline ≤ now then (.assertion (.ok ()), reference.reset key)
      else (.assertion (.error ⟨key, ⌈(deadline - now) / 1000⌉⟩), reference)
  | .recordFailure _ none => (.recorded, reference)
  | .recordFailure key (some options) =>
    (.recorded, Function.update reference key (⟨now, options⟩ :: reference key))
  | .recordSuccess key => (.recorded, reference.reset key)
  | .isOpen key =>
    match openUntil (reference key) with
    | none => (.openness false, reference)
    | some deadline =>
      if deadline ≤ now then (.openness false, reference.reset key) else (.openness true, reference)

/-- The answers to a history of calls, each at its time, and what is left after it. -/
def run (reference : BreakerReference K) :
    List (Millis × BreakerOperation K) → List (BreakerAnswer K) × BreakerReference K
  | [] => ([], reference)
  | (now, operation) :: history =>
    let next := reference.perform now operation
    (next.1 :: (next.2.run history).1, (next.2.run history).2)

def Fits (maxEntries : ℚ) (reference : BreakerReference K) : Prop :=
  ∀ keys : List K, keys.Nodup → (∀ key ∈ keys, reference key ≠ []) → (keys.length : ℚ) ≤ maxEntries

def FitsAlong (maxEntries : ℚ) (reference : BreakerReference K) :
    List (Millis × BreakerOperation K) → Prop
  | [] => reference.Fits maxEntries
  | (now, operation) :: history =>
    reference.Fits maxEntries ∧ (reference.perform now operation).2.FitsAlong maxEntries history

theorem reset_self (reference : BreakerReference K) (key : K) : reference.reset key key = [] :=
  Function.update_self ..

theorem reset_of_ne {reference : BreakerReference K} {key k : K} (h : k ≠ key) :
    reference.reset key k = reference k :=
  Function.update_of_ne h ..

theorem FitsAlong.start {maxEntries : ℚ} {reference : BreakerReference K}
    {history : List (Millis × BreakerOperation K)} (h : reference.FitsAlong maxEntries history) :
    reference.Fits maxEntries := by
  cases history with
  | nil => exact h
  | cons entry history => exact h.1

end BreakerReference

namespace CircuitBreakerManager

variable {K : Type*} [DecidableEq K]

def initial (maxEntries : ℚ) : CircuitBreakerManager K := ⟨maxEntries, .empty⟩

def perform (manager : CircuitBreakerManager K) (now : Millis) :
    BreakerOperation K → BreakerAnswer K × CircuitBreakerManager K
  | .assertClosed key =>
    (.assertion (manager.assertClosed now key).1, (manager.assertClosed now key).2)
  | .recordFailure key options => (.recorded, manager.recordFailure now key options)
  | .recordSuccess key => (.recorded, manager.recordSuccess key)
  | .isOpen key => (.openness (manager.isOpen now key).1, (manager.isOpen now key).2)

def run (manager : CircuitBreakerManager K) :
    List (Millis × BreakerOperation K) → List (BreakerAnswer K) × CircuitBreakerManager K
  | [] => ([], manager)
  | (now, operation) :: history =>
    let next := manager.perform now operation
    (next.1 :: (next.2.run history).1, (next.2.run history).2)

variable {manager : CircuitBreakerManager K} {reference : BreakerReference K} {now : Millis}
  {key : K} {operation : BreakerOperation K} {history : List (Millis × BreakerOperation K)}

/-- A breaker that counts the failures and knows when the latest opening is over. -/
def Represents (failures : List BreakerFailure) : Option CircuitBreakerState → Prop
  | none => failures = []
  | some state => failures ≠ [] ∧ state.failures = failures.length ∧
      state.openUntil = openUntil failures

/-- The manager has a breaker for each key with failures. -/
structure Simulates (manager : CircuitBreakerManager K) (reference : BreakerReference K) :
    Prop where
  represents : ∀ key, Represents (reference key) (manager.breakers.get key)
  times : ∀ key, ∀ failure ∈ reference key, 0 ≤ failure.time

theorem simulates_initial (maxEntries : ℚ) :
    Simulates (initial maxEntries : CircuitBreakerManager K) fun _ => [] where
  represents _ := rfl
  times _ _ h := nomatch h

theorem mem_of_lastOpening {failures : List BreakerFailure} {failure : BreakerFailure}
    (h : lastOpening failures = some failure) : failure ∈ failures := by
  induction failures with
  | nil => cases h
  | cons latest older ih =>
    rw [lastOpening] at h
    split at h
    · cases h
      exact List.mem_cons_self
    · exact List.mem_cons_of_mem _ (ih h)

theorem openUntil_cons (failure : BreakerFailure) (older : List BreakerFailure) :
    openUntil (failure :: older) =
      if failure.options.threshold ≤ (older.length + 1 : ℕ) then
        some (failure.time + failure.options.cooldown)
      else openUntil older := by
  unfold openUntil
  rw [lastOpening]
  split
  · rfl
  · rfl

theorem openUntil_ne_zero {failures : List BreakerFailure} {deadline : Millis}
    (htimes : ∀ failure ∈ failures, 0 ≤ failure.time) (h : openUntil failures = some deadline) :
    deadline ≠ 0 := by
  obtain ⟨failure, hfailure, rfl⟩ := Option.map_eq_some_iff.mp h
  have htime := htimes failure (mem_of_lastOpening hfailure)
  have hcooldown := failure.options.cooldown_pos
  linarith

theorem Simulates.tripped (h : Simulates manager reference) (key : K) :
    (manager.breakers.get key).bind CircuitBreakerState.tripped = openUntil (reference key) := by
  have hkey := h.represents key
  cases hget : manager.breakers.get key with
  | none =>
    rw [hget] at hkey
    rw [show reference key = [] from hkey]
    rfl
  | some state =>
    rw [hget] at hkey
    obtain ⟨-, -, hopen⟩ := hkey
    rw [Option.bind_some, CircuitBreakerState.tripped, hopen]
    cases hdeadline : openUntil (reference key) with
    | none => rfl
    | some deadline =>
      exact Option.filter_eq_some_iff.mpr
        ⟨rfl, decide_eq_true (openUntil_ne_zero (h.times key) hdeadline)⟩

theorem Simulates.reset (h : Simulates manager reference) (key : K) :
    Simulates (manager.delete key) (reference.reset key) where
  represents k := by
    by_cases hk : k = key
    · subst hk
      rw [get_delete_self, reference.reset_self]
      rfl
    · rw [get_delete_of_ne hk, BreakerReference.reset_of_ne hk]
      exact h.represents k
  times k failure hfailure := by
    by_cases hk : k = key
    · subst hk
      rw [reference.reset_self] at hfailure
      cases hfailure
    · rw [BreakerReference.reset_of_ne hk] at hfailure
      exact h.times k failure hfailure

theorem Simulates.failed (h : Simulates manager reference) (options : CacheCircuitBreakerOptions) :
    Represents (⟨now, options⟩ :: reference key) (some (manager.failed now key options)) := by
  have hkey := h.represents key
  have hcount : (manager.failed now key options).failures = (reference key).length + 1 := by
    rw [failures_failed]
    cases hget : manager.breakers.get key with
    | none =>
      rw [hget] at hkey
      rw [show reference key = [] from hkey]
      rfl
    | some state =>
      rw [hget] at hkey
      exact congrArg (· + 1) hkey.2.1
  have hbefore : ((manager.breakers.get key).getD ⟨0, none, now⟩).openUntil =
      openUntil (reference key) := by
    cases hget : manager.breakers.get key with
    | none =>
      rw [hget] at hkey
      rw [show reference key = [] from hkey]
      rfl
    | some state =>
      rw [hget] at hkey
      exact hkey.2.2
  refine ⟨List.cons_ne_nil _ _, hcount, ?_⟩
  have hopen : (manager.failed now key options).openUntil =
      if options.threshold ≤ ((manager.failed now key options).failures : ℕ) then
        some (now + options.cooldown)
      else ((manager.breakers.get key).getD ⟨0, none, now⟩).openUntil := rfl
  rw [hopen, hcount, hbefore, openUntil_cons]

theorem Simulates.fits (h : Simulates manager reference)
    (hfits : reference.Fits manager.maxEntries) : manager.fits manager.breakers := by
  rw [CircuitBreakerManager.fits, ← OrderedMap.length_keys]
  apply hfits _ manager.breakers.nodup
  intro key hmem hnil
  obtain ⟨state, hstate⟩ := Option.isSome_iff_exists.mp (OrderedMap.get_isSome_iff.mpr hmem)
  have hkey := h.represents key
  rw [hstate] at hkey
  exact hkey.1 hnil

/-- A failure, where there is room for its key. -/
theorem Simulates.recordFailure (h : Simulates manager reference) (hnow : 0 ≤ now)
    (options : CacheCircuitBreakerOptions)
    (hfits : BreakerReference.Fits manager.maxEntries
      (Function.update reference key (⟨now, options⟩ :: reference key))) :
    Simulates (manager.recordFailure now key (some options))
      (Function.update reference key (⟨now, options⟩ :: reference key)) := by
  have hset : Simulates
      { manager with breakers := manager.breakers.set key (manager.failed now key options) }
      (Function.update reference key (⟨now, options⟩ :: reference key)) := by
    constructor
    · intro k
      by_cases hk : k = key
      · subst hk
        rw [Function.update_self, OrderedMap.get_set_self]
        exact h.failed options
      · rw [Function.update_of_ne hk, OrderedMap.get_set_of_ne hk]
        exact h.represents k
    · intro k failure hfailure
      by_cases hk : k = key
      · subst hk
        rw [Function.update_self] at hfailure
        rcases List.mem_cons.mp hfailure with rfl | hfailure
        · exact hnow
        · exact h.times k failure hfailure
      · rw [Function.update_of_ne hk] at hfailure
        exact h.times k failure hfailure
  rw [CircuitBreakerManager.recordFailure, pruneIfNeeded_of_fits (hset.fits hfits)]
  exact hset

/-- One call answers as the reference, and leaves the manager as the reference. -/
theorem Simulates.perform (h : Simulates manager reference) (hnow : 0 ≤ now)
    (hfits : (reference.perform now operation).2.Fits manager.maxEntries) :
    (manager.perform now operation).1 = (reference.perform now operation).1 ∧
      Simulates (manager.perform now operation).2 (reference.perform now operation).2 := by
  cases operation with
  | assertClosed key =>
    simp only [CircuitBreakerManager.perform, BreakerReference.perform, assertClosed,
      h.tripped key]
    cases openUntil (reference key) with
    | none => exact ⟨rfl, h⟩
    | some deadline =>
      by_cases hover : deadline ≤ now
      · simp only [if_pos hover]
        exact ⟨trivial, h.reset key⟩
      · simp only [if_neg hover]
        exact ⟨trivial, h⟩
  | recordFailure key options =>
    cases options with
    | none => exact ⟨rfl, h⟩
    | some options => exact ⟨rfl, h.recordFailure hnow options hfits⟩
  | recordSuccess key => exact ⟨rfl, h.reset key⟩
  | isOpen key =>
    simp only [CircuitBreakerManager.perform, BreakerReference.perform, isOpen, h.tripped key]
    cases openUntil (reference key) with
    | none => exact ⟨rfl, h⟩
    | some deadline =>
      by_cases hover : deadline ≤ now
      · simp only [if_pos hover]
        exact ⟨trivial, h.reset key⟩
      · simp only [if_neg hover]
        exact ⟨trivial, h⟩

theorem maxEntries_assertClosed :
    (manager.assertClosed now key).2.maxEntries = manager.maxEntries := by
  unfold assertClosed
  split
  · rfl
  · split
    · rfl
    · rfl

theorem maxEntries_isOpen : (manager.isOpen now key).2.maxEntries = manager.maxEntries := by
  unfold isOpen
  split
  · rfl
  · split
    · rfl
    · rfl

theorem maxEntries_perform :
    (manager.perform now operation).2.maxEntries = manager.maxEntries := by
  cases operation with
  | assertClosed key => exact maxEntries_assertClosed
  | recordFailure key options =>
    cases options with
    | none => rfl
    | some options => exact maxEntries_pruneIfNeeded _ now
  | recordSuccess key => rfl
  | isOpen key => exact maxEntries_isOpen

theorem Simulates.run (h : Simulates manager reference) (htimes : ∀ entry ∈ history, 0 ≤ entry.1)
    (hfits : reference.FitsAlong manager.maxEntries history) :
    (manager.run history).1 = (reference.run history).1 := by
  induction history generalizing manager reference with
  | nil => rfl
  | cons entry history ih =>
    obtain ⟨now, operation⟩ := entry
    obtain ⟨hanswer, hnext⟩ := h.perform (htimes _ List.mem_cons_self)
      hfits.2.start
    have hrest := ih hnext (fun entry hentry => htimes entry (List.mem_cons_of_mem _ hentry))
      (by rw [maxEntries_perform]; exact hfits.2)
    exact congrArg₂ List.cons hanswer hrest

/-- Beyond the bound nothing is kept, where the bound is no number of entries. -/
def Bounded (manager : CircuitBreakerManager K) : Prop :=
  manager.fits manager.breakers ∨ manager.breakers.keys = []

theorem Bounded.delete (h : manager.Bounded) (key : K) : (manager.delete key).Bounded :=
  fits_delete h

theorem Bounded.perform (h : manager.Bounded) : (manager.perform now operation).2.Bounded := by
  cases operation with
  | assertClosed key =>
    change (manager.assertClosed now key).2.Bounded
    unfold assertClosed
    split
    · exact h
    · split
      · exact h.delete key
      · exact h
  | recordFailure key options => exact fits_recordFailure options h
  | recordSuccess key => exact h.delete key
  | isOpen key =>
    change (manager.isOpen now key).2.Bounded
    unfold isOpen
    split
    · exact h
    · split
      · exact h.delete key
      · exact h

theorem Bounded.run (h : manager.Bounded) : (manager.run history).2.Bounded ∧
    (manager.run history).2.maxEntries = manager.maxEntries := by
  induction history generalizing manager with
  | nil => exact ⟨h, rfl⟩
  | cons entry history ih =>
    obtain ⟨hbounded, hmax⟩ := @ih (manager.perform entry.1 entry.2).2 h.perform
    exact ⟨hbounded, hmax.trans maxEntries_perform⟩

theorem size_run_le (maxEntries : ℚ) (history : List (Millis × BreakerOperation K)) :
    (((initial maxEntries).run history).2.breakers.size : ℚ) ≤ max maxEntries 0 := by
  have hinitial : (initial maxEntries : CircuitBreakerManager K).Bounded := .inr rfl
  obtain ⟨hbounded, hmax⟩ := @Bounded.run K _ (initial maxEntries) history hinitial
  rcases hbounded with hfits | hempty
  · rw [CircuitBreakerManager.fits, hmax] at hfits
    exact hfits.trans (le_max_left _ _)
  · rw [← OrderedMap.length_keys, hempty]
    exact le_max_right _ _

/-- The deletions until the rest fits, each with the manager that it finds. -/
def drops (manager : CircuitBreakerManager K) : List K → List (CircuitBreakerManager K × K)
  | [] => []
  | key :: keys =>
    if manager.fits manager.breakers then manager.drops keys
    else (manager, key) :: (manager.delete key).drops keys

def expiredKeys (manager : CircuitBreakerManager K) (now : Millis) : List K :=
  (manager.breakers.entries.filter fun entry =>
    entry.2.tripped.all fun openUntil => decide (openUntil ≤ now)).map Prod.fst

def oldestKeys (manager : CircuitBreakerManager K) : List K :=
  (manager.breakers.entries.insertionSort fun a b => a.2.createdAt ≤ b.2.createdAt).map Prod.fst

/-- The deletions of `pruneIfNeeded`. -/
def pruneDrops (manager : CircuitBreakerManager K) (now : Millis) :
    List (CircuitBreakerManager K × K) :=
  let first := manager.dropUntilFits (manager.expiredKeys now)
  manager.drops (manager.expiredKeys now) ++ first.drops first.oldestKeys

theorem dropUntilFits_eq_foldl_drops (keys : List K) (manager : CircuitBreakerManager K) :
    manager.dropUntilFits keys =
      (manager.drops keys).foldl (fun manager drop => manager.delete drop.2) manager := by
  induction keys generalizing manager with
  | nil => rfl
  | cons key keys ih =>
    rw [dropUntilFits, List.foldl_cons, drops]
    split
    · exact ih manager
    · exact ih (manager.delete key)

theorem pruneIfNeeded_eq_foldl_drops (manager : CircuitBreakerManager K) (now : Millis) :
    manager.pruneIfNeeded now =
      (manager.pruneDrops now).foldl (fun manager drop => manager.delete drop.2) manager := by
  rw [pruneDrops, List.foldl_append, ← dropUntilFits_eq_foldl_drops,
    ← dropUntilFits_eq_foldl_drops]
  rfl

theorem of_mem_drops {keys : List K} {before : CircuitBreakerManager K}
    (h : (before, key) ∈ manager.drops keys) : key ∈ keys ∧ ¬ manager.fits manager.breakers ∧
      ∀ k, before.breakers.get k = manager.breakers.get k ∨ before.breakers.get k = none := by
  induction keys generalizing manager with
  | nil => cases h
  | cons first keys ih =>
    rw [drops] at h
    split at h
    · obtain ⟨hkey, hfull, hget⟩ := ih h
      exact ⟨List.mem_cons_of_mem _ hkey, hfull, hget⟩
    · rename_i hfull
      rcases List.mem_cons.mp h with heq | h
      · cases heq
        exact ⟨List.mem_cons_self, hfull, fun k => .inl rfl⟩
      · obtain ⟨hkey, -, hget⟩ := ih h
        refine ⟨List.mem_cons_of_mem _ hkey, hfull, fun k => ?_⟩
        rcases hget k with hget | hget
        · rw [hget]
          exact get_delete manager first k
        · exact .inr hget

theorem mem_expiredKeys_iff : key ∈ manager.expiredKeys now ↔
    key ∈ manager.breakers.keys ∧ ¬ manager.Open now key := by
  unfold expiredKeys
  constructor
  · intro h
    obtain ⟨⟨k, state⟩, hentry, rfl⟩ := List.mem_map.mp h
    obtain ⟨hentry, hover⟩ := List.mem_filter.mp hentry
    refine ⟨List.mem_map_of_mem hentry, ?_⟩
    rintro ⟨state', deadline, hget, htripped, hlt⟩
    cases (OrderedMap.get_eq_some_iff.mpr hentry).symm.trans hget
    rw [htripped] at hover
    exact absurd hlt (not_lt.mpr (by simpa using hover))
  · rintro ⟨hkey, hnot⟩
    obtain ⟨state, hstate⟩ := Option.isSome_iff_exists.mp (OrderedMap.get_isSome_iff.mpr hkey)
    refine List.mem_map.mpr ⟨(key, state), List.mem_filter.mpr
      ⟨OrderedMap.get_eq_some_iff.mp hstate, ?_⟩, rfl⟩
    rw [Option.all_eq_true]
    intro deadline hdeadline
    refine decide_eq_true (not_lt.mp fun hlt => hnot ?_)
    exact ⟨state, deadline, hstate, hdeadline, hlt⟩

theorem open_of_mem_pruneDrops {before : CircuitBreakerManager K}
    (h : (before, key) ∈ manager.pruneDrops now) (hopen : before.Open now key) :
    ∀ k ∈ before.breakers.keys, before.Open now k := by
  rcases List.mem_append.mp h with h | h
  · obtain ⟨hkey, -, hget⟩ := of_mem_drops h
    exact absurd (hopen.of_get (hget key)) (mem_expiredKeys_iff.mp hkey).2
  · obtain ⟨-, hfull, hget⟩ := of_mem_drops h
    intro k hk
    obtain ⟨state, hstate⟩ := Option.isSome_iff_exists.mp (OrderedMap.get_isSome_iff.mpr hk)
    have hfirst :
        (manager.dropUntilFits (manager.expiredKeys now)).breakers.get k = some state := by
      rcases hget k with hget | hget
      · exact hget.symm.trans hstate
      · cases hget.symm.trans hstate
    have hmanager : manager.breakers.get k = some state := by
      rcases get_dropUntilFits (manager.expiredKeys now) manager k with hget | hget
      · exact hget.symm.trans hfirst
      · cases hget.symm.trans hfirst
    -- what the first pass leaves in a full manager is not expired
    have hleft : k ∉ manager.expiredKeys now := by
      rcases fits_or_not_mem (manager.expiredKeys now) manager with hfits | hleft
      · rw [CircuitBreakerManager.fits, maxEntries_dropUntilFits] at hfull
        exact absurd hfits hfull
      · exact (hleft k (OrderedMap.get_isSome_iff.mp (by rw [hfirst]; rfl))).1
    rw [mem_expiredKeys_iff, not_and_not_right] at hleft
    obtain ⟨state', deadline, hstate', htripped, hlt⟩ :=
      hleft (OrderedMap.get_isSome_iff.mp (by rw [hmanager]; rfl))
    cases hmanager.symm.trans hstate'
    exact ⟨state, deadline, hstate, htripped, hlt⟩

/-- The manager answers as the reference while there is room for the keys with failures. It never
grows beyond its bound, and drops an open breaker only where all of them are open. -/
theorem refines_reference (maxEntries : ℚ) :
    (∀ history : List (Millis × BreakerOperation K), (∀ entry ∈ history, 0 ≤ entry.1) →
      BreakerReference.FitsAlong maxEntries (fun _ => []) history →
        ((initial maxEntries).run history).1 = (BreakerReference.run (fun _ => []) history).1) ∧
    (∀ history : List (Millis × BreakerOperation K),
      (((initial maxEntries).run history).2.breakers.size : ℚ) ≤ max maxEntries 0) ∧
    ∀ (manager : CircuitBreakerManager K) (now : Millis),
      manager.pruneIfNeeded now =
        (manager.pruneDrops now).foldl (fun manager drop => manager.delete drop.2) manager ∧
      ∀ before key, (before, key) ∈ manager.pruneDrops now → before.Open now key →
        ∀ k ∈ before.breakers.keys, before.Open now k := by
  refine ⟨fun history htimes hfits => ?_, size_run_le maxEntries, fun manager now => ⟨?_, ?_⟩⟩
  · exact (simulates_initial maxEntries).run htimes hfits
  · exact pruneIfNeeded_eq_foldl_drops manager now
  · exact fun before key => open_of_mem_pruneDrops

end CircuitBreakerManager

end LayerCache
