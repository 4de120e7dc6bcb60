import LayerCache.Collections.Counting
import LayerCache.Transition.Run
import Mathlib.Algebra.Order.Ring.Rat
import Mathlib.Data.List.AList
import Mathlib.Data.List.Sort
import Mathlib.Tactic.Linarith

/-! # Serialized writes

A write names the keys that it touches and waits for the last write before it on each of
them. Three limits bound what is admitted, and what an admitted write holds of them it
gives back once it has settled.
-/

namespace LayerCache

open Transition Counting

/-- The limits, in the form in which the options of a stack are accepted. -/
structure CacheWriteCoordinationOptions where
  maxPendingWrites : ℚ
  maxActiveKeys : ℚ
  maxPendingWritesPerKey : ℚ
  pendingWrites_pos : 0 < maxPendingWrites
  activeKeys_pos : 0 < maxActiveKeys
  perKey_pos : 0 < maxPendingWritesPerKey

inductive SaturationScope | pendingWrites | activeKeys | perKey
  deriving DecidableEq

structure CacheWriteSaturationError where
  scope : SaturationScope
  limit : ℚ
  deriving DecidableEq

inductive CallPhase
  | waiting
  | running
  | settled (resolved : Bool)
  | released (resolved : Bool)
  deriving DecidableEq

/-- An admitted call: its keys, each once, and the calls whose tails it has found there. -/
structure WriteCall (K : Type*) where
  keys : List K
  previousTails : List ℕ
  phase : CallPhase
  deriving DecidableEq

/-- Calls are numbered in the order of their admission, and a tail is named by its call. -/
structure WriteCoordination (K : Type*) where
  nextCall : ℕ
  calls : ℕ → Option (WriteCall K)
  writeChains : AList fun _ : K => ℕ
  pendingWritesByKey : AList fun _ : K => ℕ
  pendingWriteUnits : ℕ

inductive CallAction (K : Type*)
  | call (keys : List K)
  | start (call : ℕ)
  | settle (call : ℕ) (resolved : Bool)
  | release (call : ℕ)

def CallPhase.isSettled : CallPhase → Bool
  | .settled _ | .released _ => true
  | _ => false

def CallPhase.isReleased : CallPhase → Bool
  | .released _ => true
  | _ => false

namespace WriteCoordination

variable {K : Type*} [LinearOrder K]

omit [LinearOrder K] in
variable (K) in
def initial : WriteCoordination K := ⟨0, fun _ => none, ∅, ∅, 0⟩

def uniqueKeys (keys : List K) : List K := keys.dedup.insertionSort (· ≤ ·)

def admitCall (s : WriteCoordination K) (uniqueKeys : List K) : WriteCoordination K where
  nextCall := s.nextCall + 1
  calls := Function.update s.calls s.nextCall
    (some ⟨uniqueKeys, (uniqueKeys.filterMap s.writeChains.lookup).dedup, .waiting⟩)
  writeChains := uniqueKeys.foldl (fun chains key => chains.insert key s.nextCall) s.writeChains
  pendingWritesByKey := uniqueKeys.foldl
    (fun pending key => pending.insert key ((pending.lookup key).getD 0 + 1)) s.pendingWritesByKey
  pendingWriteUnits := s.pendingWriteUnits + uniqueKeys.length

/-- The call comes to its number, to no number if it runs unserialized, or to the limit that
refuses it. -/
def runSerializedWrites (options : CacheWriteCoordinationOptions) (s : WriteCoordination K)
    (keys : List K) : Except CacheWriteSaturationError (Option ℕ) × WriteCoordination K :=
  let uniqueKeys := uniqueKeys keys
  if uniqueKeys.isEmpty then (.ok none, s)
  else
    let writeUnits := uniqueKeys.length
    let newActiveKeys := (uniqueKeys.filter (· ∉ s.writeChains)).length
    if options.maxPendingWrites < (s.pendingWriteUnits + writeUnits : ℕ) then
      (.error ⟨.pendingWrites, options.maxPendingWrites⟩, s)
    else if options.maxActiveKeys < (s.writeChains.keys.length + newActiveKeys : ℕ) then
      (.error ⟨.activeKeys, options.maxActiveKeys⟩, s)
    else if uniqueKeys.any fun key => decide (options.maxPendingWritesPerKey <
        ((s.pendingWritesByKey.lookup key).getD 0 + 1 : ℕ)) then
      (.error ⟨.perKey, options.maxPendingWritesPerKey⟩, s)
    else (.ok (some s.nextCall), s.admitCall uniqueKeys)

def putPhase (s : WriteCoordination K) (i : ℕ) (call : WriteCall K) (phase : CallPhase) :
    WriteCoordination K :=
  { s with calls := Function.update s.calls i (some { call with phase }) }

def isSettled (s : WriteCoordination K) (i : ℕ) : Bool :=
  (s.calls i).any fun call => call.phase.isSettled

def isReleased (s : WriteCoordination K) (i : ℕ) : Bool :=
  (s.calls i).any fun call => call.phase.isReleased

/-- The operation runs once all the tails that the call waits for have settled. -/
def start (s : WriteCoordination K) (i : ℕ) : Option (WriteCoordination K) :=
  (s.calls i).bind fun call =>
    if call.phase = .waiting ∧ call.previousTails.all s.isSettled then
      some (s.putPhase i call .running)
    else none

def settle (s : WriteCoordination K) (i : ℕ) (resolved : Bool) : Option (WriteCoordination K) :=
  (s.calls i).bind fun call =>
    if call.phase = .running then some (s.putPhase i call (.settled resolved)) else none

def releaseKey (pending : AList fun _ : K => ℕ) (key : K) : AList fun _ : K => ℕ :=
  let depth := (pending.lookup key).getD 1 - 1
  if depth = 0 then pending.erase key else pending.insert key depth

def releaseChain (i : ℕ) (chains : AList fun _ : K => ℕ) (key : K) : AList fun _ : K => ℕ :=
  if chains.lookup key = some i then chains.erase key else chains

/-- The release is the first reaction to a tail, before those that later calls have added. As
reactions run in the order in which their tails settle, it has run for the tails before. -/
def release (s : WriteCoordination K) (i : ℕ) : Option (WriteCoordination K) :=
  (s.calls i).bind fun call =>
    match call.phase with
    | .settled resolved =>
      if call.previousTails.all s.isReleased then
        some { s.putPhase i call (.released resolved) with
          pendingWriteUnits := s.pendingWriteUnits - call.keys.length
          pendingWritesByKey := call.keys.foldl releaseKey s.pendingWritesByKey
          writeChains := call.keys.foldl (releaseChain i) s.writeChains }
      else none
    | _ => none

def step (options : CacheWriteCoordinationOptions) (s : WriteCoordination K) :
    CallAction K → Option (WriteCoordination K)
  | .call keys => some (s.runSerializedWrites options keys).2
  | .start i => s.start i
  | .settle i resolved => s.settle i resolved
  | .release i => s.release i

section Held

omit [LinearOrder K]

/-- What an admitted call counts for until it is released. -/
def writeUnits : Option (WriteCall K) → ℕ
  | some call => if call.phase.isReleased then 0 else call.keys.length
  | none => 0

def Holds (call : Option (WriteCall K)) (key : K) : Prop :=
  ∃ c, call = some c ∧ c.phase.isReleased = false ∧ key ∈ c.keys

/-- A call that is not released has `key` among its keys. -/
def Open (s : WriteCoordination K) (i : ℕ) (key : K) : Prop := Holds (s.calls i) key

end Held

instance (call : Option (WriteCall K)) (key : K) : Decidable (Holds call key) :=
  match call with
  | none => isFalse (by rintro ⟨_, h, _⟩; cases h)
  | some c => decidable_of_iff (c.phase.isReleased = false ∧ key ∈ c.keys) (by simp [Holds])

def openUnits (s : WriteCoordination K) : ℕ := total s.nextCall s.calls writeUnits

def pendingOn (s : WriteCoordination K) (key : K) : ℕ :=
  total s.nextCall s.calls fun call => if Holds call key then 1 else 0

/-- What the limits are about is what the admitted calls hold, and a call behind an open one
waits for an open call at or after it. -/
structure Inv (options : CacheWriteCoordinationOptions) (s : WriteCoordination K) : Prop where
  numbered : ∀ i, s.calls i ≠ none ↔ i < s.nextCall
  nodup : ∀ i call, s.calls i = some call → call.keys.Nodup
  earlier : ∀ i call, s.calls i = some call → ∀ j ∈ call.previousTails, j < i
  chained : ∀ key i, s.writeChains.lookup key = some i → s.Open i key
  last : ∀ key i, s.Open i key → ∃ j, s.writeChains.lookup key = some j ∧ i ≤ j
  behind : ∀ key i j call, s.Open i key → i < j → s.calls j = some call → key ∈ call.keys →
    ∃ m ∈ call.previousTails, i ≤ m ∧ m < j ∧ s.Open m key
  ordered : ∀ key i j earlier later, s.calls i = some earlier → s.calls j = some later → i < j →
    key ∈ earlier.keys → key ∈ later.keys → later.phase ≠ .waiting → earlier.phase.isSettled
  units : s.pendingWriteUnits = s.openUnits
  counted : ∀ key, (s.pendingWritesByKey.lookup key).getD 0 = s.pendingOn key
  counted_pos : ∀ key, s.pendingWritesByKey.lookup key ≠ some 0
  units_le : (s.pendingWriteUnits : ℚ) ≤ options.maxPendingWrites
  active_le : (s.writeChains.keys.length : ℚ) ≤ options.maxActiveKeys
  perKey_le : ∀ key, (((s.pendingWritesByKey.lookup key).getD 0 : ℕ) : ℚ) ≤
    options.maxPendingWritesPerKey

theorem inv_initial (options : CacheWriteCoordinationOptions) : Inv options (initial K) where
  numbered _ := by simp [initial]
  nodup _ _ h := nomatch h
  earlier _ _ h := nomatch h
  chained key _ h := by simp [initial] at h
  last _ _ h := by
    obtain ⟨_, h, -⟩ := h
    cases h
  behind _ _ _ _ _ _ h := nomatch h
  ordered _ _ _ _ _ h := nomatch h
  units := rfl
  counted _ := by simp [initial, pendingOn, total]
  counted_pos _ := by simp [initial]
  units_le := by simpa [initial] using options.pendingWrites_pos.le
  active_le := by simpa [initial] using options.activeKeys_pos.le
  perKey_le _ := by simpa [initial] using options.perKey_pos.le

theorem lookup_foldl {update : (AList fun _ : K => ℕ) → K → AList fun _ : K => ℕ}
    (value : Option ℕ → Option ℕ)
    (hself : ∀ m key, (update m key).lookup key = value (m.lookup key))
    (hother : ∀ m key k, k ≠ key → (update m key).lookup k = m.lookup k) {keys : List K}
    (hnodup : keys.Nodup) (m : AList fun _ : K => ℕ) (k : K) :
    (keys.foldl update m).lookup k = if k ∈ keys then value (m.lookup k) else m.lookup k := by
  induction keys generalizing m with
  | nil => simp
  | cons key keys ih =>
    obtain ⟨hkey, hnodup⟩ := List.nodup_cons.mp hnodup
    rw [List.foldl_cons, ih hnodup]
    by_cases hk : k = key
    · subst hk
      simp [hkey, hself]
    · simp [hk, hother m key k hk]

theorem lookup_releaseKey_self (m : AList fun _ : K => ℕ) (key : K) :
    (releaseKey m key).lookup key =
      if (m.lookup key).getD 1 - 1 = 0 then none else some ((m.lookup key).getD 1 - 1) := by
  unfold releaseKey
  simp only
  split
  · exact AList.lookup_erase key m
  · exact AList.lookup_insert m

theorem lookup_releaseKey_of_ne (m : AList fun _ : K => ℕ) (key k : K) (hk : k ≠ key) :
    (releaseKey m key).lookup k = m.lookup k := by
  unfold releaseKey
  simp only
  split
  · exact AList.lookup_erase_ne hk
  · exact AList.lookup_insert_ne hk

theorem lookup_releaseChain_self (i : ℕ) (m : AList fun _ : K => ℕ) (key : K) :
    (releaseChain i m key).lookup key = (m.lookup key).filter (· ≠ i) := by
  unfold releaseChain
  cases h : m.lookup key with
  | none => simp [h]
  | some j =>
    by_cases hj : j = i
    · simp [hj, Option.filter]
    · simp [h, hj, Option.filter]

theorem lookup_releaseChain_of_ne (i : ℕ) (m : AList fun _ : K => ℕ) (key k : K) (hk : k ≠ key) :
    (releaseChain i m key).lookup k = m.lookup k := by
  unfold releaseChain
  split
  · exact AList.lookup_erase_ne hk
  · rfl

section Phase

variable {options : CacheWriteCoordinationOptions} {s s' : WriteCoordination K} {i j : ℕ}
  {key : K} {call : WriteCall K} {phase : CallPhase} {resolved : Bool}

omit [LinearOrder K]

theorem start_spec (h : s.start i = some s') :
    ∃ call, s.calls i = some call ∧ call.phase = .waiting ∧
      (∀ j ∈ call.previousTails, s.isSettled j = true) ∧ s' = s.putPhase i call .running := by
  simp only [start, Option.bind_eq_some_iff, Option.ite_none_right_eq_some, List.all_eq_true,
    Option.some.injEq] at h
  obtain ⟨call, hcall, ⟨hwaiting, htails⟩, rfl⟩ := h
  exact ⟨call, hcall, hwaiting, htails, rfl⟩

theorem settle_spec (h : s.settle i resolved = some s') :
    ∃ call, s.calls i = some call ∧ call.phase = .running ∧
      s' = s.putPhase i call (.settled resolved) := by
  simp only [settle, Option.bind_eq_some_iff, Option.ite_none_right_eq_some,
    Option.some.injEq] at h
  obtain ⟨call, hcall, hrunning, rfl⟩ := h
  exact ⟨call, hcall, hrunning, rfl⟩

theorem holds_putPhase (hcall : s.calls i = some call) (hold : call.phase.isReleased = false)
    (hnew : phase.isReleased = false) :
    Holds ((s.putPhase i call phase).calls j) key ↔ Holds (s.calls j) key := by
  by_cases hj : j = i
  · subst hj
    simp [putPhase, Holds, hcall, hold, hnew]
  · simp [putPhase, hj]

theorem isSettled_iff : s.isSettled i = true ↔
    ∃ call, s.calls i = some call ∧ call.phase.isSettled = true := by
  simp [isSettled, Option.any_eq_true]

theorem isReleased_iff : s.isReleased i = true ↔
    ∃ call, s.calls i = some call ∧ call.phase.isReleased = true := by
  simp [isReleased, Option.any_eq_true]

theorem Open.not_isReleased (h : s.Open i key) : s.isReleased i = false := by
  obtain ⟨call, hcall, hphase, -⟩ := h
  simp [isReleased, hcall, hphase]

end Phase

section Preservation

variable {options : CacheWriteCoordinationOptions} {s s' : WriteCoordination K} {i j : ℕ}
  {key : K} {call : WriteCall K} {phase : CallPhase} {resolved : Bool}

theorem Inv.putPhase (h : Inv options s) (hcall : s.calls i = some call)
    (hold : call.phase.isReleased = false) (hnew : phase.isReleased = false)
    (hsettled : call.phase.isSettled = true → phase.isSettled = true)
    (hordered : ∀ key j earlier, s.calls j = some earlier → j < i → key ∈ earlier.keys →
      key ∈ call.keys → earlier.phase.isSettled = true) :
    Inv options (s.putPhase i call phase) := by
  have hlt : i < s.nextCall := (h.numbered i).mp (by simp [hcall])
  have hopen : ∀ j key, (s.putPhase i call phase).Open j key ↔ s.Open j key := fun _ _ =>
    holds_putPhase hcall hold hnew
  -- every call is one of the old calls up to its phase
  have hcalls : ∀ j later, (s.putPhase i call phase).calls j = some later →
      ∃ before, s.calls j = some before ∧ before.keys = later.keys ∧
        before.previousTails = later.previousTails ∧ (j ≠ i → before = later) ∧
        (j = i → before = call ∧ later.phase = phase) := by
    intro j later hlater
    by_cases hj : j = i
    · subst hj
      simp only [WriteCoordination.putPhase, Function.update_self, Option.some.injEq] at hlater
      subst hlater
      exact ⟨call, hcall, rfl, rfl, fun hne => absurd rfl hne, fun _ => ⟨rfl, rfl⟩⟩
    · simp only [WriteCoordination.putPhase, Function.update_of_ne hj] at hlater
      exact ⟨later, hlater, rfl, rfl, fun _ => rfl, fun he => absurd he hj⟩
  constructor
  case numbered =>
    intro j
    by_cases hj : j = i
    · simpa [hj, WriteCoordination.putPhase] using hlt
    · simpa [hj, WriteCoordination.putPhase] using h.numbered j
  case nodup =>
    intro j later hlater
    obtain ⟨before, hbefore, hkeys, -⟩ := hcalls j later hlater
    rw [← hkeys]
    exact h.nodup j before hbefore
  case earlier =>
    intro j later hlater
    obtain ⟨before, hbefore, -, htails, -⟩ := hcalls j later hlater
    rw [← htails]
    exact h.earlier j before hbefore
  case chained =>
    exact fun key j hj => (hopen j key).mpr (h.chained key j hj)
  case last =>
    exact fun key j hj => h.last key j ((hopen j key).mp hj)
  case behind =>
    intro key j k later hj hjk hlater hkey
    obtain ⟨before, hbefore, hkeys, htails, -⟩ := hcalls k later hlater
    rw [← hkeys] at hkey
    obtain ⟨m, hm, hjm, hmk, hmo⟩ := h.behind key j k before ((hopen j key).mp hj) hjk hbefore hkey
    exact ⟨m, htails ▸ hm, hjm, hmk, (hopen m key).mpr hmo⟩
  case ordered =>
    intro key j k earlier later hearlier hlater hjk hkey hkey' hstarted
    obtain ⟨before, hbefore, hkeys, -, hne, heq⟩ := hcalls j earlier hearlier
    obtain ⟨after, hafter, hkeys', -, hne', heq'⟩ := hcalls k later hlater
    rw [← hkeys] at hkey
    rw [← hkeys'] at hkey'
    by_cases hk : k = i
    · subst hk
      obtain ⟨rfl, -⟩ := heq' rfl
      rw [← hne (Nat.ne_of_lt hjk)]
      exact hordered key j before hbefore hjk hkey hkey'
    · rw [← hne' hk] at hstarted
      have hsett := h.ordered key j k before after hbefore hafter hjk hkey hkey' hstarted
      by_cases hj : j = i
      · obtain ⟨rfl, hphase⟩ := heq hj
        rw [hphase]
        exact hsettled hsett
      · rw [← hne hj]
        exact hsett
  case units =>
    have hsum := total_update hlt s.calls (some { call with phase }) writeUnits
    simp only [hcall, writeUnits, hold, hnew] at hsum
    exact h.units.trans (Nat.add_right_cancel hsum).symm
  case counted =>
    intro key
    rw [show (s.putPhase i call phase).pendingOn key = s.pendingOn key from
      total_congr fun j _ => by simp only [holds_putPhase hcall hold hnew]]
    exact h.counted key
  case counted_pos => exact h.counted_pos
  case units_le => exact h.units_le
  case active_le => exact h.active_le
  case perKey_le => exact h.perKey_le

theorem Inv.start (h : Inv options s) (hstep : s.start i = some s') : Inv options s' := by
  obtain ⟨call, hcall, hwaiting, htails, rfl⟩ := start_spec hstep
  apply h.putPhase hcall (by simp [hwaiting, CallPhase.isReleased]) rfl
    (by simp [hwaiting, CallPhase.isSettled])
  intro key j earlier hearlier hji hkey hkey'
  by_cases hrel : earlier.phase.isReleased = true
  · revert hrel
    cases earlier.phase <;> simp [CallPhase.isReleased, CallPhase.isSettled]
  · -- the call waits for one at or after `j`, and that one has settled
    have hopen : s.Open j key := ⟨earlier, hearlier, by simpa using hrel, hkey⟩
    obtain ⟨m, hm, hjm, -, hmo⟩ := h.behind key j i call hopen hji hcall hkey'
    obtain ⟨between, hbetween, hsettled⟩ := isSettled_iff.mp (htails m hm)
    rcases Nat.lt_or_eq_of_le hjm with hlt | rfl
    · obtain ⟨c, hc, -, hmkey⟩ := hmo
      cases hc.symm.trans hbetween
      apply h.ordered key j m earlier between hearlier hbetween hlt hkey hmkey
      intro hphase
      simp [hphase, CallPhase.isSettled] at hsettled
    · cases hearlier.symm.trans hbetween
      exact hsettled

theorem Inv.settle (h : Inv options s) (hstep : s.settle i resolved = some s') :
    Inv options s' := by
  obtain ⟨call, hcall, hrunning, rfl⟩ := settle_spec hstep
  apply h.putPhase hcall (by simp [hrunning, CallPhase.isReleased]) rfl (fun _ => rfl)
  intro key j earlier hearlier hji hkey hkey'
  exact h.ordered key j i earlier call hearlier hcall hji hkey hkey' (by simp [hrunning])

theorem nodup_uniqueKeys (keys : List K) : (uniqueKeys keys).Nodup :=
  (List.perm_insertionSort _ _).nodup_iff.mpr keys.nodup_dedup

/-- A call is admitted within the limits, or it leaves everything as it is. -/
theorem runSerializedWrites_spec (options : CacheWriteCoordinationOptions)
    (s : WriteCoordination K) (keys : List K) :
    ((∀ i, (s.runSerializedWrites options keys).1 ≠ .ok (some i)) ∧
        (s.runSerializedWrites options keys).2 = s) ∨
      ((s.pendingWriteUnits + (uniqueKeys keys).length : ℕ) : ℚ) ≤ options.maxPendingWrites ∧
        ((s.writeChains.keys.length +
            ((uniqueKeys keys).filter (· ∉ s.writeChains)).length : ℕ) : ℚ) ≤
          options.maxActiveKeys ∧
        (∀ key ∈ uniqueKeys keys, (((s.pendingWritesByKey.lookup key).getD 0 + 1 : ℕ) : ℚ) ≤
          options.maxPendingWritesPerKey) ∧
        s.runSerializedWrites options keys =
          (.ok (some s.nextCall), s.admitCall (uniqueKeys keys)) := by
  unfold runSerializedWrites
  simp only
  split
  · exact .inl ⟨by simp, rfl⟩
  · split
    · exact .inl ⟨by simp, rfl⟩
    · rename_i hunits
      split
      · exact .inl ⟨by simp, rfl⟩
      · rename_i hactive
        split
        · exact .inl ⟨by simp, rfl⟩
        · rename_i hkeys
          refine .inr ⟨not_lt.mp hunits, not_lt.mp hactive, fun key hkey => ?_, rfl⟩
          by_contra hlt
          exact hkeys (List.any_eq_true.mpr ⟨key, hkey, decide_eq_true (not_le.mp hlt)⟩)

theorem lookup_writeChains_admitCall {keys : List K} (hnodup : keys.Nodup) (key : K) :
    (s.admitCall keys).writeChains.lookup key =
      if key ∈ keys then some s.nextCall else s.writeChains.lookup key := by
  exact lookup_foldl (fun _ => some s.nextCall) (fun m _ => AList.lookup_insert m)
    (fun m key k hk => AList.lookup_insert_ne hk) hnodup s.writeChains key

theorem lookup_pendingWritesByKey_admitCall {keys : List K} (hnodup : keys.Nodup) (key : K) :
    (s.admitCall keys).pendingWritesByKey.lookup key =
      if key ∈ keys then some ((s.pendingWritesByKey.lookup key).getD 0 + 1)
      else s.pendingWritesByKey.lookup key := by
  exact lookup_foldl (fun depth => some (depth.getD 0 + 1)) (fun m _ => AList.lookup_insert m)
    (fun m key k hk => AList.lookup_insert_ne hk) hnodup s.pendingWritesByKey key

theorem length_writeChains_admitCall {keys : List K} (hnodup : keys.Nodup) :
    (s.admitCall keys).writeChains.keys.length =
      s.writeChains.keys.length + (keys.filter (· ∉ s.writeChains)).length := by
  have hmem : ∀ key, key ∈ (s.admitCall keys).writeChains.keys ↔
      key ∈ s.writeChains.keys ∨ key ∈ keys.filter (· ∉ s.writeChains) := by
    intro key
    rw [← AList.mem_keys, ← AList.mem_keys, ← AList.lookup_isSome,
      lookup_writeChains_admitCall hnodup, List.mem_filter]
    by_cases hk : key ∈ keys
    · by_cases hc : key ∈ s.writeChains <;> simp [hk, hc]
    · simp [hk, AList.lookup_isSome]
  have hdisjoint : s.writeChains.keys.Disjoint (keys.filter (· ∉ s.writeChains)) := by
    intro key hkey hnew
    have hnot := (List.mem_filter.mp hnew).2
    exact absurd (AList.mem_keys.mpr hkey) (by simpa using hnot)
  have happend : (s.writeChains.keys ++ keys.filter (· ∉ s.writeChains)).Nodup :=
    s.writeChains.keys_nodup.append (hnodup.filter _) hdisjoint
  have hperm : (s.admitCall keys).writeChains.keys.Perm
      (s.writeChains.keys ++ keys.filter (· ∉ s.writeChains)) := by
    rw [List.perm_ext_iff_of_nodup (AList.keys_nodup _) happend]
    intro key
    rw [hmem, List.mem_append]
  rw [hperm.length_eq, List.length_append]

theorem calls_admitCall_of_ne {keys : List K} (hi : i ≠ s.nextCall) :
    (s.admitCall keys).calls i = s.calls i :=
  Function.update_of_ne hi _ _

theorem calls_admitCall_self {keys : List K} : (s.admitCall keys).calls s.nextCall =
    some ⟨keys, (keys.filterMap s.writeChains.lookup).dedup, .waiting⟩ :=
  Function.update_self _ _ _

theorem open_admitCall_of_ne {keys : List K} (hi : i ≠ s.nextCall) :
    (s.admitCall keys).Open i key ↔ s.Open i key := by
  simp only [Open, calls_admitCall_of_ne hi]

theorem open_admitCall_self {keys : List K} :
    (s.admitCall keys).Open s.nextCall key ↔ key ∈ keys := by
  simp [Open, Holds, calls_admitCall_self, CallPhase.isReleased]

theorem Inv.lt (h : Inv options s) (hi : s.Open i key) : i < s.nextCall := by
  obtain ⟨call, hcall, -⟩ := hi
  exact (h.numbered i).mp (by simp [hcall])

theorem Inv.admitCall (h : Inv options s) {keys : List K} (hnodup : keys.Nodup)
    (hunits : ((s.pendingWriteUnits + keys.length : ℕ) : ℚ) ≤ options.maxPendingWrites)
    (hactive : ((s.writeChains.keys.length + (keys.filter (· ∉ s.writeChains)).length : ℕ) : ℚ) ≤
      options.maxActiveKeys)
    (hperKey : ∀ key ∈ keys, (((s.pendingWritesByKey.lookup key).getD 0 + 1 : ℕ) : ℚ) ≤
      options.maxPendingWritesPerKey) : Inv options (s.admitCall keys) := by
  have hold : ∀ {i key}, s.Open i key → (s.admitCall keys).Open i key := fun ho =>
    (open_admitCall_of_ne (Nat.ne_of_lt (h.lt ho))).mpr ho
  have hcalls : ∀ {i call}, (s.admitCall keys).calls i = some call →
      s.calls i = some call ∧ i < s.nextCall ∨
        i = s.nextCall ∧ call = ⟨keys, (keys.filterMap s.writeChains.lookup).dedup, .waiting⟩ := by
    intro i call hcall
    by_cases hi : i = s.nextCall
    · subst hi
      rw [calls_admitCall_self] at hcall
      exact .inr ⟨rfl, (Option.some.inj hcall).symm⟩
    · rw [calls_admitCall_of_ne hi] at hcall
      exact .inl ⟨hcall, (h.numbered i).mp (by simp [hcall])⟩
  constructor
  case numbered =>
    intro i
    by_cases hi : i = s.nextCall
    · subst hi
      simp [WriteCoordination.admitCall]
    · rw [calls_admitCall_of_ne hi, h.numbered i]
      simp only [WriteCoordination.admitCall]
      omega
  case nodup =>
    intro i call hcall
    rcases hcalls hcall with ⟨hcall, -⟩ | ⟨-, rfl⟩
    · exact h.nodup i call hcall
    · exact hnodup
  case earlier =>
    intro i call hcall j hj
    rcases hcalls hcall with ⟨hcall, -⟩ | ⟨rfl, rfl⟩
    · exact h.earlier i call hcall j hj
    · obtain ⟨key, -, hkey⟩ := List.mem_filterMap.mp (List.mem_dedup.mp hj)
      exact h.lt (h.chained key j hkey)
  case chained =>
    intro key i hi
    rw [lookup_writeChains_admitCall hnodup] at hi
    split at hi
    · rename_i hkey
      cases hi
      exact open_admitCall_self.mpr hkey
    · exact hold (h.chained key i hi)
  case last =>
    intro key i hi
    rw [lookup_writeChains_admitCall hnodup]
    by_cases hin : i = s.nextCall
    · subst hin
      exact ⟨s.nextCall, by rw [if_pos (open_admitCall_self.mp hi)], Nat.le_refl _⟩
    · rw [open_admitCall_of_ne hin] at hi
      by_cases hkey : key ∈ keys
      · exact ⟨s.nextCall, by rw [if_pos hkey], (h.lt hi).le⟩
      · rw [if_neg hkey]
        exact h.last key i hi
  case behind =>
    intro key i j call hi hij hcall hkey
    rcases hcalls hcall with ⟨hcall, hlt⟩ | ⟨rfl, rfl⟩
    · rw [open_admitCall_of_ne (by omega)] at hi
      obtain ⟨m, hm, him, hmj, hmo⟩ := h.behind key i j call hi hij hcall hkey
      exact ⟨m, hm, him, hmj, hold hmo⟩
    · rw [open_admitCall_of_ne (Nat.ne_of_lt hij)] at hi
      obtain ⟨m, hm, him⟩ := h.last key i hi
      have hmo := h.chained key m hm
      refine ⟨m, ?_, him, h.lt hmo, hold hmo⟩
      exact List.mem_dedup.mpr (List.mem_filterMap.mpr ⟨key, hkey, hm⟩)
  case ordered =>
    intro key i j earlier later hearlier hlater hij hkey hkey' hstarted
    rcases hcalls hlater with ⟨hlater, hlt⟩ | ⟨rfl, rfl⟩
    · rcases hcalls hearlier with ⟨hearlier, -⟩ | ⟨rfl, -⟩
      · exact h.ordered key i j earlier later hearlier hlater hij hkey hkey' hstarted
      · omega
    · exact absurd rfl hstarted
  case units =>
    have hsum := total_succ_update s.nextCall s.calls
      (some ⟨keys, (keys.filterMap s.writeChains.lookup).dedup, .waiting⟩) writeUnits
    exact (congrArg (· + keys.length) h.units).trans hsum.symm
  case counted =>
    intro key
    have hsum := total_succ_update s.nextCall s.calls
      (some ⟨keys, (keys.filterMap s.writeChains.lookup).dedup, .waiting⟩)
      (fun call => if Holds call key then 1 else 0)
    have hself : Holds (some (⟨keys, (keys.filterMap s.writeChains.lookup).dedup, .waiting⟩ :
        WriteCall K)) key ↔ key ∈ keys := by
      simp [Holds, CallPhase.isReleased]
    rw [lookup_pendingWritesByKey_admitCall hnodup]
    refine Eq.trans ?_ hsum.symm
    simp only [hself]
    split
    · exact congrArg (· + 1) (h.counted key)
    · exact h.counted key
  case counted_pos =>
    intro key
    rw [lookup_pendingWritesByKey_admitCall hnodup]
    split
    · simp
    · exact h.counted_pos key
  case units_le => exact hunits
  case active_le =>
    rw [length_writeChains_admitCall hnodup]
    exact hactive
  case perKey_le =>
    intro key
    rw [lookup_pendingWritesByKey_admitCall hnodup]
    split
    · rename_i hkey
      exact hperKey key hkey
    · exact h.perKey_le key

theorem release_spec (h : s.release i = some s') :
    ∃ call resolved, s.calls i = some call ∧ call.phase = .settled resolved ∧
      (∀ j ∈ call.previousTails, s.isReleased j = true) ∧
      s' = { s.putPhase i call (.released resolved) with
        pendingWriteUnits := s.pendingWriteUnits - call.keys.length
        pendingWritesByKey := call.keys.foldl releaseKey s.pendingWritesByKey
        writeChains := call.keys.foldl (releaseChain i) s.writeChains } := by
  obtain ⟨call, hcall, h⟩ := Option.bind_eq_some_iff.mp h
  split at h
  · rename_i resolved hphase
    obtain ⟨htails, h⟩ := Option.ite_none_right_eq_some.mp h
    exact ⟨call, resolved, hcall, hphase, List.all_eq_true.mp htails, (Option.some.inj h).symm⟩
  · cases h

/-- When a call is released, no call before it is open on its keys. -/
theorem Inv.first_of_released (h : Inv options s) (hcall : s.calls i = some call)
    (htails : ∀ j ∈ call.previousTails, s.isReleased j = true) (hkey : key ∈ call.keys)
    (hj : s.Open j key) : ¬ j < i := by
  intro hji
  obtain ⟨m, hm, -, -, hmo⟩ := h.behind key j i call hj hji hcall hkey
  exact absurd (htails m hm) (by simp [hmo.not_isReleased])

theorem Inv.one_le_depth (h : Inv options s) (hi : s.Open i key) :
    1 ≤ (s.pendingWritesByKey.lookup key).getD 0 := by
  rw [h.counted key]
  have hle := le_total (g := s.calls) (h.lt hi) fun call => if Holds call key then 1 else 0
  rwa [if_pos (show Holds (s.calls i) key from hi)] at hle

/-- The calls with the one released. -/
def released (s : WriteCoordination K) (i : ℕ) (call : WriteCall K) (resolved : Bool) :
    ℕ → Option (WriteCall K) :=
  Function.update s.calls i (some { call with phase := .released resolved })

theorem Inv.units_released (h : Inv options s) (hcall : s.calls i = some call)
    (hopen : call.phase.isReleased = false) (resolved : Bool) :
    total s.nextCall (s.released i call resolved) writeUnits + call.keys.length =
      s.pendingWriteUnits := by
  have hlt : i < s.nextCall := (h.numbered i).mp (by simp [hcall])
  have hsum := total_update hlt s.calls (some { call with phase := .released resolved }) writeUnits
  have hbefore : writeUnits (s.calls i) = call.keys.length := by simp [hcall, writeUnits, hopen]
  have hafter : writeUnits (some { call with phase := .released resolved }) = 0 := rfl
  rw [hbefore, hafter] at hsum
  rw [h.units]
  exact hsum

theorem Inv.holds_released (h : Inv options s) (hcall : s.calls i = some call)
    (hopen : call.phase.isReleased = false) (resolved : Bool) (key : K) :
    (total s.nextCall (s.released i call resolved) fun call => if Holds call key then 1 else 0) +
      (if key ∈ call.keys then 1 else 0) = s.pendingOn key := by
  have hlt : i < s.nextCall := (h.numbered i).mp (by simp [hcall])
  have hsum := total_update hlt s.calls (some { call with phase := .released resolved })
    (fun call => if Holds call key then 1 else 0)
  have hbefore : Holds (s.calls i) key ↔ key ∈ call.keys := by simp [Holds, hcall, hopen]
  have hafter : ¬Holds (some { call with phase := .released resolved }) key := by
    simp [Holds, CallPhase.isReleased]
  simp only [if_neg hafter, hbefore, Nat.add_zero] at hsum
  exact hsum

theorem Inv.release (h : Inv options s) (hstep : s.release i = some s') : Inv options s' := by
  obtain ⟨call, resolved, hcall, hphase, htails, rfl⟩ := release_spec hstep
  have hlt : i < s.nextCall := (h.numbered i).mp (by simp [hcall])
  have hnodup := h.nodup i call hcall
  have hunreleased : call.phase.isReleased = false := by simp [hphase, CallPhase.isReleased]
  have hself : ∀ {key}, s.Open i key ↔ key ∈ call.keys := by
    intro key
    simp [Open, Holds, hcall, hunreleased]
  have hopen : ∀ j key, Holds (Function.update s.calls i (some { call with
      phase := .released resolved }) j) key ↔ s.Open j key ∧ j ≠ i := by
    intro j key
    by_cases hj : j = i
    · subst hj
      simp [Holds, CallPhase.isReleased]
    · simp [hj, Open]
  have hcalls : ∀ j later, Function.update s.calls i (some { call with
      phase := .released resolved }) j = some later →
      ∃ before, s.calls j = some before ∧ before.keys = later.keys ∧
        before.previousTails = later.previousTails ∧
        before.phase.isSettled = later.phase.isSettled ∧
        (before.phase = .waiting ↔ later.phase = .waiting) := by
    intro j later hlater
    by_cases hj : j = i
    · subst hj
      simp only [Function.update_self, Option.some.injEq] at hlater
      subst hlater
      exact ⟨call, hcall, rfl, rfl, by simp [hphase, CallPhase.isSettled], by simp [hphase]⟩
    · simp only [Function.update_of_ne hj] at hlater
      exact ⟨later, hlater, rfl, rfl, rfl, Iff.rfl⟩
  have hchain : ∀ key, (call.keys.foldl (releaseChain i) s.writeChains).lookup key =
      if key ∈ call.keys then (s.writeChains.lookup key).filter (· ≠ i)
      else s.writeChains.lookup key :=
    lookup_foldl _ (lookup_releaseChain_self i) (lookup_releaseChain_of_ne i) hnodup _
  have hdepth : ∀ key, (call.keys.foldl releaseKey s.pendingWritesByKey).lookup key =
      if key ∈ call.keys then
        if (s.pendingWritesByKey.lookup key).getD 1 - 1 = 0 then none
        else some ((s.pendingWritesByKey.lookup key).getD 1 - 1)
      else s.pendingWritesByKey.lookup key :=
    lookup_foldl (fun depth => if depth.getD 1 - 1 = 0 then none else some (depth.getD 1 - 1))
      lookup_releaseKey_self lookup_releaseKey_of_ne hnodup _
  -- a key of the call has a depth, as the call itself is pending on it
  have hfound : ∀ key ∈ call.keys, (s.pendingWritesByKey.lookup key).getD 1 =
      (s.pendingWritesByKey.lookup key).getD 0 := by
    intro key hkey
    have hle := h.one_le_depth (hself.mpr hkey)
    cases hl : s.pendingWritesByKey.lookup key with
    | none => simp [hl] at hle
    | some depth => rfl
  constructor
  case numbered =>
    intro j
    by_cases hj : j = i
    · simpa [hj, WriteCoordination.putPhase] using hlt
    · simpa [hj, WriteCoordination.putPhase] using h.numbered j
  case nodup =>
    intro j later hlater
    obtain ⟨before, hbefore, hkeys, -⟩ := hcalls j later hlater
    rw [← hkeys]
    exact h.nodup j before hbefore
  case earlier =>
    intro j later hlater
    obtain ⟨before, hbefore, -, hprevious, -⟩ := hcalls j later hlater
    rw [← hprevious]
    exact h.earlier j before hbefore
  case chained =>
    intro key j hj
    rw [hchain] at hj
    split at hj
    · obtain ⟨hj, hne⟩ := Option.filter_eq_some_iff.mp hj
      exact (hopen j key).mpr ⟨h.chained key j hj, by simpa using hne⟩
    · rename_i hkey
      refine (hopen j key).mpr ⟨h.chained key j hj, ?_⟩
      rintro rfl
      exact hkey (hself.mp (h.chained key j hj))
  case last =>
    intro key j hj'
    obtain ⟨hj, hne⟩ := (hopen j key).mp hj'
    obtain ⟨k, hk, hjk⟩ := h.last key j hj
    refine ⟨k, ?_, hjk⟩
    rw [hchain]
    split
    · rename_i hkey
      have hki : k ≠ i := by
        rintro rfl
        exact h.first_of_released hcall htails hkey hj (by omega)
      exact Option.filter_eq_some_iff.mpr ⟨hk, by simpa using hki⟩
    · exact hk
  case behind =>
    intro key j k later hj' hjk hlater hkey
    obtain ⟨hj, hne⟩ := (hopen j key).mp hj'
    obtain ⟨before, hbefore, hkeys, hprevious, -⟩ := hcalls k later hlater
    rw [← hkeys] at hkey
    obtain ⟨m, hm, hjm, hmk, hmo⟩ := h.behind key j k before hj hjk hbefore hkey
    refine ⟨m, hprevious ▸ hm, hjm, hmk, (hopen m key).mpr ⟨hmo, ?_⟩⟩
    rintro rfl
    exact h.first_of_released hcall htails (hself.mp hmo) hj (by omega)
  case ordered =>
    intro key j k earlier later hearlier hlater hjk hkey hkey' hstarted
    obtain ⟨before, hbefore, hkeys, -, hsettled, -⟩ := hcalls j earlier hearlier
    obtain ⟨after, hafter, hkeys', -, -, hwaiting⟩ := hcalls k later hlater
    rw [← hkeys] at hkey
    rw [← hkeys'] at hkey'
    rw [← hsettled]
    exact h.ordered key j k before after hbefore hafter hjk hkey hkey' (hstarted ∘ hwaiting.mp)
  case units =>
    have hunits := h.units_released hcall hunreleased resolved
    change s.pendingWriteUnits - call.keys.length =
      total s.nextCall (s.released i call resolved) writeUnits
    omega
  case counted =>
    intro key
    have hcount := h.holds_released hcall hunreleased resolved key
    rw [← h.counted key] at hcount
    change ((call.keys.foldl releaseKey s.pendingWritesByKey).lookup key).getD 0 =
      total s.nextCall (s.released i call resolved) fun call => if Holds call key then 1 else 0
    rw [hdepth]
    split at hcount
    · rename_i hkey
      rw [if_pos hkey, hfound key hkey]
      split <;> simp only [Option.getD_none, Option.getD_some] <;> omega
    · rename_i hkey
      rw [if_neg hkey]
      omega
  case counted_pos =>
    intro key
    rw [hdepth]
    split
    · split
      · simp
      · rename_i hne
        simpa using hne
    · exact h.counted_pos key
  case units_le =>
    have hle : ((s.pendingWriteUnits - call.keys.length : ℕ) : ℚ) ≤ s.pendingWriteUnits := by
      exact_mod_cast Nat.sub_le _ _
    exact hle.trans h.units_le
  case active_le =>
    have hsubset : (call.keys.foldl (releaseChain i) s.writeChains).keys ⊆ s.writeChains.keys := by
      intro key hkey
      rw [← AList.mem_keys, ← AList.lookup_isSome] at hkey ⊢
      rw [hchain] at hkey
      split at hkey
      · cases hl : s.writeChains.lookup key with
        | none => simp [hl] at hkey
        | some j => rfl
      · exact hkey
    have hlength := (List.subperm_of_subset (AList.keys_nodup _) hsubset).length_le
    exact le_trans (by exact_mod_cast hlength) h.active_le
  case perKey_le =>
    intro key
    refine le_trans ?_ (h.perKey_le key)
    rw [hdepth]
    split
    · rename_i hkey
      rw [hfound key hkey]
      split <;> simp only [Option.getD_none, Option.getD_some, Nat.cast_le] <;> omega
    · exact le_refl _

theorem Inv.step (h : Inv options s) (a : CallAction K) (hstep : s.step options a = some s') :
    Inv options s' := by
  cases a with
  | call keys =>
    cases hstep
    rcases runSerializedWrites_spec options s keys with
      ⟨-, hs⟩ | ⟨hunits, hactive, hperKey, hs⟩
    · simp only [hs]
      exact h
    · simp only [hs]
      exact h.admitCall (nodup_uniqueKeys keys) hunits hactive hperKey
  | start i => exact h.start hstep
  | settle i resolved => exact h.settle hstep
  | release i => exact h.release hstep

theorem inv_of_reaches (h : Reaches (step options) (fun _ _ => True) (initial K) s) :
    Inv options s :=
  h.invariant (fun _ a _ hinv _ hstep => hinv.step a hstep) (inv_initial options)

/-- Of the calls that are not released, the first has nothing left to wait for. -/
theorem Inv.first_moves (h : Inv options s) (hcall : s.calls i = some call)
    (hopen : call.phase.isReleased = false) (hfirst : ∀ j < i, s.isReleased j = true) :
    (s.start i).isSome ∨ (∀ resolved, (s.settle i resolved).isSome) ∨ (s.release i).isSome := by
  have hreleased : ∀ j ∈ call.previousTails, s.isReleased j = true := fun j hj =>
    hfirst j (h.earlier i call hcall j hj)
  have hsettled : ∀ j ∈ call.previousTails, s.isSettled j = true := by
    intro j hj
    obtain ⟨before, hbefore, hphase⟩ := isReleased_iff.mp (hreleased j hj)
    refine isSettled_iff.mpr ⟨before, hbefore, ?_⟩
    revert hphase
    cases before.phase <;> simp [CallPhase.isReleased, CallPhase.isSettled]
  cases hphase : call.phase with
  | waiting =>
    left
    simpa [WriteCoordination.start, hcall, hphase] using hsettled
  | running =>
    right; left
    intro resolved
    simp [WriteCoordination.settle, hcall, hphase]
  | settled resolved =>
    right; right
    simpa [WriteCoordination.release, hcall, hphase] using hreleased
  | released resolved => simp [hphase, CallPhase.isReleased] at hopen

/-- Nothing that is admitted waits in a circle. -/
theorem Inv.moves (h : Inv options s) (hi : i < s.nextCall) (hopen : s.isReleased i = false) :
    ∃ j ≤ i, (s.start j).isSome ∨ (∀ resolved, (s.settle j resolved).isSome) ∨
      (s.release j).isSome := by
  induction i using Nat.strong_induction_on with
  | _ i ih =>
    by_cases hfirst : ∀ j < i, s.isReleased j = true
    · obtain ⟨call, hcall⟩ := Option.ne_none_iff_exists'.mp ((h.numbered i).mpr hi)
      have hphase : call.phase.isReleased = false := by simpa [isReleased, hcall] using hopen
      exact ⟨i, Nat.le_refl _, h.first_moves hcall hphase hfirst⟩
    · simp only [not_forall, Bool.not_eq_true] at hfirst
      obtain ⟨j, hj, hjo⟩ := hfirst
      obtain ⟨k, hk, hmoves⟩ := ih j hj (hj.trans hi) hjo
      exact ⟨k, by omega, hmoves⟩

omit [LinearOrder K] in
theorem start_isSome_iff (hcall : s.calls i = some call) (hwaiting : call.phase = .waiting) :
    (s.start i).isSome ↔ ∀ j ∈ call.previousTails, s.isSettled j = true := by
  simp [WriteCoordination.start, hcall, hwaiting]

theorem Inv.gives_back (h : Inv options s) (hcall : s.calls i = some call)
    (hstep : s.release i = some s') :
    s'.isReleased i = true ∧ s'.pendingWriteUnits + call.keys.length = s.pendingWriteUnits ∧
      (∀ key ∈ call.keys, s'.pendingOn key + 1 = s.pendingOn key) ∧
      ∀ key, s'.writeChains.lookup key ≠ some i := by
  have hinv' := h.release hstep
  obtain ⟨found, resolved, hfound, hphase, -, rfl⟩ := release_spec hstep
  obtain rfl : call = found := Option.some_inj.mp (hcall.symm.trans hfound)
  have hlt : i < s.nextCall := (h.numbered i).mp (by simp [hcall])
  have hopen : call.phase.isReleased = false := by simp [hphase, CallPhase.isReleased]
  have hreleased : (Function.update s.calls i
      (some { call with phase := .released resolved }) i).any
      (fun call => call.phase.isReleased) = true := by
    rw [Function.update_self]
    rfl
  refine ⟨hreleased, ?_, fun key hkey => ?_, fun key htail => ?_⟩
  · have hunits := h.units_released hcall hopen resolved
    change s.pendingWriteUnits - call.keys.length + call.keys.length = s.pendingWriteUnits
    omega
  · have hcount := h.holds_released hcall hopen resolved key
    rw [if_pos hkey] at hcount
    exact hcount
  · obtain ⟨held, hheld, hphase', -⟩ := hinv'.chained key i htail
    change Function.update s.calls i _ i = some held at hheld
    rw [Function.update_self] at hheld
    cases hheld
    cases hphase'

omit [LinearOrder K] in
def remaining : Option (WriteCall K) → ℕ
  | none => 0
  | some call =>
    match call.phase with
    | .waiting => 3
    | .running => 2
    | .settled _ => 1
    | .released _ => 0

theorem Inv.advances (h : Inv options s) (hcalls : s'.nextCall = s.nextCall)
    (hcall : s.calls i = some call)
    (hmoved : s'.calls = Function.update s.calls i (some { call with phase }))
    (hless : remaining (some { call with phase }) < remaining (some call)) :
    total s'.nextCall s'.calls remaining < total s.nextCall s.calls remaining := by
  have hlt : i < s.nextCall := (h.numbered i).mp (by simp [hcall])
  have hsum := total_update hlt s.calls (some { call with phase }) remaining
  rw [hcalls, hmoved]
  rw [hcall] at hsum
  omega

theorem Inv.advance (h : Inv options s) (hi : i < s.nextCall) (hopen : s.isReleased i = false) :
    ∃ a s', (∀ keys, a ≠ .call keys) ∧ s.step options a = some s' ∧
      total s'.nextCall s'.calls remaining < total s.nextCall s.calls remaining := by
  obtain ⟨j, -, hmoves⟩ := h.moves hi hopen
  rcases hmoves with hstart | hsettle | hrelease
  · obtain ⟨s', hstep⟩ := Option.isSome_iff_exists.mp hstart
    obtain ⟨call, hcall, hphase, -, rfl⟩ := start_spec hstep
    refine ⟨.start j, _, fun keys => by simp, hstep, h.advances rfl hcall rfl ?_⟩
    simp [remaining, hphase]
  · obtain ⟨s', hstep⟩ := Option.isSome_iff_exists.mp (hsettle true)
    obtain ⟨call, hcall, hphase, rfl⟩ := settle_spec hstep
    refine ⟨.settle j true, _, fun keys => by simp, hstep, h.advances rfl hcall rfl ?_⟩
    simp [remaining, hphase]
  · obtain ⟨s', hstep⟩ := Option.isSome_iff_exists.mp hrelease
    obtain ⟨call, resolved, hcall, hphase, -, rfl⟩ := release_spec hstep
    refine ⟨.release j, _, fun keys => by simp, hstep, h.advances rfl hcall rfl ?_⟩
    simp [remaining, hphase]

/-- Without further calls a run can go on until all are released. -/
theorem Inv.drains (h : Inv options s) :
    ∃ as t, (∀ a ∈ as, ∀ keys, a ≠ CallAction.call keys) ∧
      run (WriteCoordination.step options) s as = some t ∧
      ∀ i < t.nextCall, t.isReleased i = true := by
  induction hleft : total s.nextCall s.calls remaining using Nat.strong_induction_on
    generalizing s with
  | _ left ih =>
    by_cases hall : ∀ i < s.nextCall, s.isReleased i = true
    · exact ⟨[], s, fun a ha => absurd ha List.not_mem_nil, rfl, hall⟩
    · simp only [not_forall, Bool.not_eq_true] at hall
      obtain ⟨i, hi, hopen⟩ := hall
      obtain ⟨a, s', ha, hstep, hless⟩ := h.advance hi hopen
      obtain ⟨as, t, has, hrun, hreleased⟩ := ih _ (hleft ▸ hless) (h.step a hstep) rfl
      refine ⟨a :: as, t, ?_, ?_, hreleased⟩
      · intro b hb
        rcases List.mem_cons.mp hb with rfl | hb
        · exact ha
        · exact has b hb
      · rw [run, hstep, Option.bind_some, hrun]

theorem Inv.released (h : Inv options s) (hall : ∀ i < s.nextCall, s.isReleased i = true) :
    s.pendingWriteUnits = 0 ∧ s.pendingWritesByKey.keys = [] ∧ s.writeChains.keys = [] := by
  have hclosed : ∀ i key, ¬ s.Open i key := by
    intro i key hi
    exact absurd (hall i (h.lt hi)) (by simp [hi.not_isReleased])
  refine ⟨?_, ?_, ?_⟩
  · rw [h.units]
    apply total_eq_zero
    intro i hi
    obtain ⟨call, hcall, hphase⟩ := isReleased_iff.mp (hall i hi)
    simp [writeUnits, hcall, hphase]
  · rw [List.eq_nil_iff_forall_not_mem]
    intro key hkey
    rw [← AList.mem_keys, ← AList.lookup_isSome, Option.isSome_iff_exists] at hkey
    obtain ⟨depth, hdepth⟩ := hkey
    have hcount := h.counted key
    have hzero : s.pendingOn key = 0 := total_eq_zero fun i _ => if_neg (hclosed i key)
    rw [hdepth, hzero, Option.getD_some] at hcount
    exact h.counted_pos key (hcount ▸ hdepth)
  · rw [List.eq_nil_iff_forall_not_mem]
    intro key hkey
    rw [← AList.mem_keys, ← AList.lookup_isSome, Option.isSome_iff_exists] at hkey
    obtain ⟨i, hi⟩ := hkey
    exact hclosed i key (h.chained key i hi)

theorem Inv.mem_writeChains_iff (h : Inv options s) :
    key ∈ s.writeChains ↔ ∃ i, s.Open i key := by
  rw [← AList.lookup_isSome, Option.isSome_iff_exists]
  constructor
  · rintro ⟨i, hi⟩
    exact ⟨i, h.chained key i hi⟩
  · rintro ⟨i, hi⟩
    obtain ⟨j, hj, -⟩ := h.last key i hi
    exact ⟨j, hj⟩

/-- Calls that share a key run one after the other in the order of their admission, a call waits
for earlier ones only and runs as soon as they have settled, counters, chains and limits are about
the calls that are not released, and all can be released, each giving back what it holds. -/
theorem writes_serialized (options : CacheWriteCoordinationOptions)
    (h : Reaches (step options) (fun _ _ => True) (initial K) s) :
    (∀ i j earlier later, s.calls i = some earlier → s.calls j = some later →
      (∃ key ∈ earlier.keys, key ∈ later.keys) →
      (earlier.phase = .running → later.phase = .running → i = j) ∧
        (i < j → later.phase ≠ .waiting → earlier.phase.isSettled = true)) ∧
    (∀ i call, s.calls i = some call →
      (∀ j ∈ call.previousTails, j < i) ∧
        (call.phase = .waiting →
          ((s.start i).isSome ↔ ∀ j ∈ call.previousTails, s.isSettled j = true))) ∧
    (∀ i < s.nextCall, s.isReleased i = false → ∃ j ≤ i, (s.start j).isSome ∨
      (∀ resolved, (s.settle j resolved).isSome) ∨ (s.release j).isSome) ∧
    (s.pendingWriteUnits = s.openUnits ∧
      (∀ key, (s.pendingWritesByKey.lookup key).getD 0 = s.pendingOn key) ∧
      ∀ key, key ∈ s.writeChains ↔ ∃ i, s.Open i key) ∧
    ((s.pendingWriteUnits : ℚ) ≤ options.maxPendingWrites ∧
      (s.writeChains.keys.length : ℚ) ≤ options.maxActiveKeys ∧
      ∀ key, (((s.pendingWritesByKey.lookup key).getD 0 : ℕ) : ℚ) ≤
        options.maxPendingWritesPerKey) ∧
    (∀ keys error, (s.runSerializedWrites options keys).1 = .error error →
      (s.runSerializedWrites options keys).2 = s) ∧
    (∀ i call s', s.calls i = some call → s.release i = some s' →
      s'.isReleased i = true ∧ s'.pendingWriteUnits + call.keys.length = s.pendingWriteUnits ∧
        (∀ key ∈ call.keys, s'.pendingOn key + 1 = s.pendingOn key) ∧
        ∀ key, s'.writeChains.lookup key ≠ some i) ∧
    (∃ as t, (∀ a ∈ as, ∀ keys, a ≠ CallAction.call keys) ∧ run (step options) s as = some t ∧
      ∀ i < t.nextCall, t.isReleased i = true) ∧
    ((∀ i < s.nextCall, s.isReleased i = true) →
      s.pendingWriteUnits = 0 ∧ s.pendingWritesByKey.keys = [] ∧ s.writeChains.keys = []) := by
  have hinv := inv_of_reaches h
  refine ⟨?_, ?_, fun i => hinv.moves,
    ⟨hinv.units, hinv.counted, fun _ => hinv.mem_writeChains_iff⟩,
    ⟨hinv.units_le, hinv.active_le, hinv.perKey_le⟩, ?_,
    fun i call s' hcall hstep => hinv.gives_back hcall hstep, hinv.drains, hinv.released⟩
  · rintro i j earlier later hi hj ⟨key, hkey, hkey'⟩
    constructor
    · intro hrunning hrunning'
      rcases Nat.lt_trichotomy i j with hlt | heq | hlt
      · have := hinv.ordered key i j earlier later hi hj hlt hkey hkey' (by simp [hrunning'])
        simp [hrunning, CallPhase.isSettled] at this
      · exact heq
      · have := hinv.ordered key j i later earlier hj hi hlt hkey' hkey (by simp [hrunning])
        simp [hrunning', CallPhase.isSettled] at this
    · exact fun hlt hstarted => hinv.ordered key i j earlier later hi hj hlt hkey hkey' hstarted
  · exact fun i call hcall => ⟨hinv.earlier i call hcall, start_isSome_iff hcall⟩
  · intro keys error herror
    rcases runSerializedWrites_spec options s keys with ⟨-, hs⟩ | ⟨-, -, -, hs⟩
    · exact hs
    · rw [hs] at herror
      cases herror

end Preservation

def limits : CacheWriteCoordinationOptions where
  maxPendingWrites := 10
  maxActiveKeys := 3
  maxPendingWritesPerKey := 2
  pendingWrites_pos := by norm_num
  activeKeys_pos := by norm_num
  perKey_pos := by norm_num

/-- Three calls, of which the last is refused; the operation of the first rejects. -/
def overlapping : List (CallAction ℕ) :=
  [.call [2, 1, 2], .call [2, 3], .call [4], .start 0, .settle 0 false, .start 1, .release 0,
    .settle 1 true, .release 1]

theorem writes_serialized_overlapping :
    ∃ s, run (step limits) (initial ℕ) overlapping = some s ∧ s.nextCall = 2 ∧
      (∀ i < s.nextCall, s.isReleased i = true) ∧
      s.pendingWriteUnits = 0 ∧ s.pendingWritesByKey.keys = [] ∧ s.writeChains.keys = [] := by
  have hrun : (run (step limits) (initial ℕ) overlapping).map
      (fun s => (s.nextCall, s.isReleased 0, s.isReleased 1)) = some (2, true, true) := by
    decide +kernel
  obtain ⟨s, hs, hreleased⟩ := Option.map_eq_some_iff.mp hrun
  simp only [Prod.mk.injEq] at hreleased
  obtain ⟨hnext, hfirst, hsecond⟩ := hreleased
  have hreaches : Reaches (step limits) (fun _ _ => True) (initial ℕ) s :=
    reaches_of_run _ hs (by decide +kernel)
  have hall : ∀ i < s.nextCall, s.isReleased i = true := by
    intro i hi
    rw [hnext] at hi
    obtain rfl | rfl : i = 0 ∨ i = 1 := by omega
    · exact hfirst
    · exact hsecond
  obtain ⟨-, -, -, -, -, -, -, -, hempty⟩ := writes_serialized limits hreaches
  exact ⟨s, hs, hnext, hall, hempty hall⟩

end WriteCoordination

end LayerCache
