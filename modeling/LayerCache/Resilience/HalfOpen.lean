import LayerCache.Resilience.CircuitBreaker
import LayerCache.Transition.Run

/-! # Half-open breakers

Callers check a breaker and later record how their fetch went, in any order. The first that
passes after a cooldown is a probe: until its outcome is known, or the breaker has opened
again, nobody else should pass, and if it fails the breaker should open again.
-/

namespace LayerCache.HalfOpen

open Transition

variable {K : Type*} [DecidableEq K]

/-- A caller that was let through and has not recorded its outcome. -/
structure Caller (K : Type*) where
  key : K
  options : Option CacheCircuitBreakerOptions

/-- `passed` has the callers that were let through from the end of the last cooldown on, the probe
first, until the outcome of the probe is recorded or the breaker opens again. -/
structure State (K : Type*) where
  now : Millis
  manager : CircuitBreakerManager K
  nextCaller : ℕ
  callers : ℕ → Option (Caller K)
  passed : K → List ℕ

inductive Action (K : Type*)
  | wait (ms : ℕ)
  | assertClosed (key : K) (options : Option CacheCircuitBreakerOptions)
  | recordFailure (caller : ℕ)
  | recordSuccess (caller : ℕ)

namespace State

variable (K) in
def initial (now : ℕ) (maxEntries : ℚ) : State K :=
  ⟨now, ⟨maxEntries, .empty⟩, 0, fun _ => none, fun _ => []⟩

/-- The breaker of the key is still there from a cooldown that has elapsed. -/
def Elapsed (s : State K) (key : K) : Prop :=
  ∃ state u, s.manager.breakers.get key = some state ∧ state.tripped = some u ∧ u ≤ s.now

instance (s : State K) (key : K) : Decidable (s.Elapsed key) :=
  match hget : s.manager.breakers.get key with
  | none => isFalse (by rintro ⟨_, _, h, -⟩; rw [hget] at h; cases h)
  | some state =>
    match htripped : state.tripped with
    | none => isFalse (by
        rintro ⟨_, _, h, h', -⟩
        rw [hget] at h
        cases h
        rw [htripped] at h'
        cases h')
    | some u => decidable_of_iff (u ≤ s.now) (by simp [Elapsed, hget, htripped])

def isProbe (s : State K) (key : K) (caller : ℕ) : Bool := (s.passed key).head? = some caller

def assertClosed (s : State K) (key : K) (options : Option CacheCircuitBreakerOptions) : State K :=
  match s.manager.assertClosed s.now key with
  | (.error _, manager) => { s with manager }
  | (.ok _, manager) =>
    { s with
      manager
      nextCaller := s.nextCaller + 1
      callers := Function.update s.callers s.nextCaller (some ⟨key, options⟩)
      passed := Function.update s.passed key
        (if s.Elapsed key then [s.nextCaller]
        else if s.passed key = [] then []
        else s.passed key ++ [s.nextCaller]) }

def opens (s : State K) (key : K) : Option CacheCircuitBreakerOptions → Bool
  | none => false
  | some options => options.threshold ≤ (s.manager.failed s.now key options).failures

def recordFailure (s : State K) (i : ℕ) : Option (State K) :=
  (s.callers i).map fun caller =>
    { s with
      manager := s.manager.recordFailure s.now caller.key caller.options
      callers := Function.update s.callers i none
      passed := Function.update s.passed caller.key
        (if s.opens caller.key caller.options || s.isProbe caller.key i then []
        else s.passed caller.key) }

def recordSuccess (s : State K) (i : ℕ) : Option (State K) :=
  (s.callers i).map fun caller =>
    { s with
      manager := s.manager.recordSuccess caller.key
      callers := Function.update s.callers i none
      passed := Function.update s.passed caller.key
        (if s.isProbe caller.key i then [] else s.passed caller.key) }

def step (s : State K) : Action K → Option (State K)
  | .wait ms => some { s with now := s.now + ms }
  | .assertClosed key options => some (s.assertClosed key options)
  | .recordFailure i => s.recordFailure i
  | .recordSuccess i => s.recordSuccess i

/-- Of the callers let through since a cooldown has elapsed, at most one is without an outcome. -/
def Probes (s : State K) : Prop := ∀ key, (s.passed key).length ≤ 1

/-- Right after the failure of `i` was recorded in `s`, a breaker that `i` has probed is open for
a full cooldown. -/
def Reopens (s s' : State K) (i : ℕ) : Prop :=
  ∀ caller options, s.callers i = some caller → caller.options = some options →
    s.isProbe caller.key i = true →
    ∃ state, s'.manager.breakers.get caller.key = some state ∧
      state.openUntil = some (s.now + options.cooldown)

def HalfOpens (s : State K) (a : Action K) : Prop :=
  ∀ s', s.step a = some s' → s'.Probes ∧ ∀ i, a = .recordFailure i → s.Reopens s' i

/-- Nobody checks a breaker that is being probed, and when a probe fails, the failures counted since
with its own reach its threshold, in a manager that has room for a breaker. -/
def Keeps (s : State K) : Action K → Prop
  | .assertClosed key _ => s.passed key = []
  | .recordFailure i =>
    ∀ caller options, s.callers i = some caller → caller.options = some options →
      s.isProbe caller.key i = true →
      options.threshold ≤ ((s.manager.breakers.get caller.key).elim 0 (·.failures) + 1 : ℕ) ∧
        1 ≤ s.manager.maxEntries
  | _ => True

/-- A breaker that is being probed is not open, as its probe has dropped it. -/
structure Inv (s : State K) : Prop where
  untripped : ∀ key state, s.passed key ≠ [] → s.manager.breakers.get key = some state →
    state.openUntil = none
  created_le : ∀ key state, s.manager.breakers.get key = some state → state.createdAt ≤ s.now
  openUntil_pos : ∀ key state u, s.manager.breakers.get key = some state →
    state.openUntil = some u → 0 < u
  fits : s.manager.fits s.manager.breakers ∨ s.manager.breakers.keys = []
  now_nonneg : 0 ≤ s.now
  probes : s.Probes

variable {s s' : State K} {i : ℕ} {key : K} {caller : Caller K}
  {options : CacheCircuitBreakerOptions} {state : CircuitBreakerState}

theorem inv_initial (now : ℕ) (maxEntries : ℚ) : (initial K now maxEntries).Inv where
  untripped _ _ h := absurd rfl h
  created_le _ _ h := by simp [initial] at h
  openUntil_pos _ _ _ h := by simp [initial] at h
  fits := .inr rfl
  now_nonneg := Nat.cast_nonneg now
  probes _ := Nat.zero_le _

theorem Inv.tripped_eq_none (h : s.Inv) (hpassed : s.passed key ≠ []) :
    (s.manager.breakers.get key).bind CircuitBreakerState.tripped = none := by
  cases hget : s.manager.breakers.get key with
  | none => rfl
  | some state => simp [CircuitBreakerState.tripped, h.untripped key state hpassed hget]

theorem get_recordFailure {k : K} {options : Option CacheCircuitBreakerOptions}
    (hget : (s.manager.recordFailure s.now key options).breakers.get k = some state) :
    s.manager.breakers.get k = some state ∨
      k = key ∧ ∃ o, options = some o ∧ state = s.manager.failed s.now key o := by
  by_cases hk : k = key
  · subst hk
    cases options with
    | none => exact .inl hget
    | some o =>
      rcases CircuitBreakerManager.get_recordFailure_self s.manager s.now k o with h | h
      · rw [h] at hget
        exact .inr ⟨rfl, o, rfl, (Option.some.inj hget).symm⟩
      · rw [h] at hget
        cases hget
  · rcases CircuitBreakerManager.get_recordFailure_of_ne s.manager s.now options hk
      with h | h
    · exact .inl (h ▸ hget)
    · rw [h] at hget
      cases hget

theorem openUntil_failed (h : s.opens key (some options) = false) {u : Option Millis}
    (hu : (s.manager.failed s.now key options).openUntil = u) :
    u = (s.manager.breakers.get key).bind CircuitBreakerState.openUntil := by
  have hnot : ¬ options.threshold ≤ ((s.manager.failed s.now key options).failures : ℚ) := by
    simpa [opens] using h
  have hopenUntil : (s.manager.failed s.now key options).openUntil =
      ((s.manager.breakers.get key).getD ⟨0, none, s.now⟩).openUntil := if_neg hnot
  rw [← hu, hopenUntil]
  cases s.manager.breakers.get key <;> rfl

theorem openUntil_failed_of_opens (h : s.opens key (some options) = true) :
    (s.manager.failed s.now key options).openUntil = some (s.now + options.cooldown) := by
  have hle : options.threshold ≤ ((s.manager.failed s.now key options).failures : ℚ) := by
    simpa only [opens, decide_eq_true_eq] using h
  exact if_pos hle

theorem Inv.wait (h : s.Inv) (ms : ℕ) : Inv { s with now := s.now + ms } where
  untripped := h.untripped
  created_le key state hget := by
    have := h.created_le key state hget
    have hms : (0 : ℚ) ≤ ms := Nat.cast_nonneg ms
    simp only
    linarith
  openUntil_pos := h.openUntil_pos
  fits := h.fits
  now_nonneg := by
    have hms : (0 : ℚ) ≤ ms := Nat.cast_nonneg ms
    have := h.now_nonneg
    simp only
    linarith
  probes := h.probes

theorem Inv.delete (h : s.Inv) (key : K) (callers : ℕ → Option (Caller K)) (nextCaller : ℕ)
    {passed : K → List ℕ} (hpassed : ∀ k, k ≠ key → passed k = s.passed k)
    (hlength : (passed key).length ≤ 1) :
    Inv ⟨s.now, s.manager.delete key, nextCaller, callers, passed⟩ := by
  have hsub : ∀ {k state}, (s.manager.delete key).breakers.get k = some state →
      k ≠ key ∧ s.manager.breakers.get k = some state := by
    intro k state hget
    by_cases hk : k = key
    · subst hk
      rw [CircuitBreakerManager.get_delete_self] at hget
      cases hget
    · exact ⟨hk, by rwa [CircuitBreakerManager.get_delete_of_ne hk] at hget⟩
  constructor
  · intro k state hne hget
    obtain ⟨hk, hget⟩ := hsub hget
    exact h.untripped k state (by rwa [← hpassed k hk]) hget
  · exact fun k state hget => h.created_le k state (hsub hget).2
  · exact fun k state u hget => h.openUntil_pos k state u (hsub hget).2
  · exact CircuitBreakerManager.fits_delete h.fits
  · exact h.now_nonneg
  · intro k
    by_cases hk : k = key
    · subst hk
      exact hlength
    · simp only [hpassed k hk]
      exact h.probes k

theorem Inv.assertClosed (h : s.Inv) (options : Option CacheCircuitBreakerOptions)
    (hpassed : s.passed key = []) : (s.assertClosed key options).Inv := by
  unfold State.assertClosed CircuitBreakerManager.assertClosed
  cases hbind : (s.manager.breakers.get key).bind CircuitBreakerState.tripped with
  | none =>
    have helapsed : ¬ s.Elapsed key := by
      rintro ⟨state, u, hget, htripped, -⟩
      rw [hget, Option.bind_some, htripped] at hbind
      cases hbind
    have hsame : Function.update s.passed key [] = s.passed := by
      rw [← hpassed, Function.update_eq_self]
    simp only [if_neg helapsed, hpassed, if_true, hsame]
    exact ⟨h.untripped, h.created_le, h.openUntil_pos, h.fits, h.now_nonneg, h.probes⟩
  | some openUntil =>
    by_cases hle : openUntil ≤ s.now
    · have helapsed : s.Elapsed key := by
        obtain ⟨state, hget, htripped⟩ := Option.bind_eq_some_iff.mp hbind
        exact ⟨state, openUntil, hget, htripped, hle⟩
      simp only [if_pos hle, if_pos helapsed]
      apply h.delete key
      · exact fun k hk => Function.update_of_ne hk _ _
      · simp
    · simp only [if_neg hle]
      exact h

theorem Inv.recordSuccess (h : s.Inv) (hstep : s.recordSuccess i = some s') : s'.Inv := by
  obtain ⟨caller, -, rfl⟩ := Option.map_eq_some_iff.mp hstep
  apply h.delete caller.key
  · exact fun k hk => Function.update_of_ne hk _ _
  · rw [Function.update_self]
    split
    · exact Nat.zero_le _
    · exact h.probes caller.key

theorem Inv.recordFailure (h : s.Inv) (hstep : s.recordFailure i = some s') : s'.Inv := by
  obtain ⟨caller, -, rfl⟩ := Option.map_eq_some_iff.mp hstep
  constructor
  case untripped =>
    intro k state hne hget
    by_cases hk : k = caller.key
    · subst hk
      simp only [Function.update_self] at hne
      split at hne
      · exact absurd rfl hne
      · rename_i hopens
        simp only [Bool.or_eq_true, not_or, Bool.not_eq_true] at hopens
        rcases get_recordFailure hget with hget | ⟨-, options, hoptions, rfl⟩
        · exact h.untripped caller.key state hne hget
        · rw [hoptions] at hopens
          have heq := openUntil_failed hopens.1 rfl
          rw [heq]
          cases hold : s.manager.breakers.get caller.key with
          | none => rfl
          | some old => exact h.untripped caller.key old hne hold
    · simp only [Function.update_of_ne hk] at hne
      rcases get_recordFailure hget with hget | ⟨heq, -⟩
      · exact h.untripped k state hne hget
      · exact absurd heq hk
  case created_le =>
    intro k state hget
    rcases get_recordFailure hget with hget | ⟨-, options, -, rfl⟩
    · exact h.created_le k state hget
    · unfold CircuitBreakerManager.failed
      cases hold : s.manager.breakers.get caller.key with
      | none => exact le_refl _
      | some old => exact h.created_le caller.key old hold
  case openUntil_pos =>
    intro k state u hget hu
    rcases get_recordFailure hget with hget | ⟨-, options, -, rfl⟩
    · exact h.openUntil_pos k state u hget hu
    · cases hopens : s.opens caller.key (some options) with
      | true =>
        rw [openUntil_failed_of_opens hopens] at hu
        cases hu
        exact add_pos_of_nonneg_of_pos h.now_nonneg options.cooldown_pos
      | false =>
        obtain ⟨old, hold, hopenUntil⟩ :=
          Option.bind_eq_some_iff.mp (openUntil_failed hopens hu).symm
        exact h.openUntil_pos caller.key old u hold hopenUntil
  case fits => exact CircuitBreakerManager.fits_recordFailure caller.options h.fits
  case now_nonneg => exact h.now_nonneg
  case probes =>
    intro k
    by_cases hk : k = caller.key
    · subst hk
      simp only [Function.update_self]
      split
      · exact Nat.zero_le _
      · exact h.probes caller.key
    · simp only [Function.update_of_ne hk]
      exact h.probes k

theorem Inv.step (h : s.Inv) (a : Action K) (hkeeps : s.Keeps a) (hstep : s.step a = some s') :
    s'.Inv := by
  cases a with
  | wait ms =>
    cases hstep
    exact h.wait ms
  | assertClosed key options =>
    cases hstep
    exact h.assertClosed options hkeeps
  | recordFailure i => exact h.recordFailure hstep
  | recordSuccess i => exact h.recordSuccess hstep

/-- A breaker that is being probed lets everybody else through. -/
theorem Inv.length_passed_assertClosed (h : s.Inv) (hpassed : s.passed key ≠ [])
    (options : Option CacheCircuitBreakerOptions) :
    ((s.assertClosed key options).passed key).length = (s.passed key).length + 1 := by
  have hbind := h.tripped_eq_none hpassed
  have helapsed : ¬ s.Elapsed key := by
    rintro ⟨state, u, hget, htripped, -⟩
    rw [hget, Option.bind_some, htripped] at hbind
    cases hbind
  unfold State.assertClosed CircuitBreakerManager.assertClosed
  rw [hbind]
  simp [helapsed, hpassed]

/-- A failing probe opens its breaker again if the failures counted since reach the threshold, and
if the manager has room for it. -/
theorem Inv.reopened_iff (h : s.Inv) (hpassed : s.passed key ≠ []) :
    (∃ state, (s.manager.recordFailure s.now key (some options)).breakers.get key = some state ∧
      state.openUntil = some (s.now + options.cooldown)) ↔
    options.threshold ≤ ((s.manager.breakers.get key).elim 0 (·.failures) + 1 : ℕ) ∧
      1 ≤ s.manager.maxEntries := by
  have hfailures : (s.manager.failed s.now key options).failures =
      (s.manager.breakers.get key).elim 0 (·.failures) + 1 :=
    CircuitBreakerManager.failures_failed
  constructor
  · rintro ⟨state, hget, hopenUntil⟩
    constructor
    · by_contra hlt
      rw [← hfailures] at hlt
      have hopens : s.opens key (some options) = false := by simpa [opens] using hlt
      rcases CircuitBreakerManager.get_recordFailure_self s.manager s.now key options
        with hself | hself
      · rw [hself] at hget
        cases hget
        obtain ⟨old, hold, hu⟩ :=
          Option.bind_eq_some_iff.mp (openUntil_failed hopens hopenUntil).symm
        rw [h.untripped key old hpassed hold] at hu
        cases hu
      · rw [hself] at hget
        cases hget
    · by_contra hroom
      have hnone : (s.manager.recordFailure s.now key (some options)).breakers.get key = none :=
        CircuitBreakerManager.get_pruneIfNeeded_of_lt_one (not_le.mp hroom)
      rw [hnone] at hget
      cases hget
  · rintro ⟨hthreshold, hroom⟩
    rw [← hfailures] at hthreshold
    refine ⟨_, CircuitBreakerManager.get_recordFailure_opened hroom h.fits ?_ h.now_nonneg
      hthreshold, if_pos hthreshold⟩
    rintro ⟨k, state⟩ hentry
    exact h.created_le k state (OrderedMap.get_eq_some_iff.mpr hentry)

omit [DecidableEq K] in
theorem isProbe_ne_nil (h : s.isProbe key i = true) : s.passed key ≠ [] := by
  intro hnil
  simp [isProbe, hnil] at h

theorem Inv.halfOpens_iff (h : s.Inv) (a : Action K) : s.HalfOpens a ↔ s.Keeps a := by
  constructor
  · intro hgood
    cases a with
    | wait ms => trivial
    | assertClosed key options =>
      by_contra hpassed
      have hle := (hgood _ rfl).1 key
      have hlength := h.length_passed_assertClosed hpassed options
      have hpos := List.length_pos_iff.mpr hpassed
      omega
    | recordFailure i =>
      intro caller options hcaller hoptions hprobe
      obtain ⟨-, hreopens⟩ := hgood _
        (by rw [State.step, State.recordFailure, hcaller, Option.map_some])
      have hstate := hreopens i rfl caller options hcaller hoptions hprobe
      simp only [hoptions] at hstate
      exact (h.reopened_iff (isProbe_ne_nil hprobe)).mp hstate
    | recordSuccess i => trivial
  · intro hkeeps s' hstep
    refine ⟨(h.step a hkeeps hstep).probes, ?_⟩
    rintro i rfl caller options hcaller hoptions hprobe
    rw [State.step, State.recordFailure, hcaller, Option.map_some] at hstep
    cases hstep
    simp only [hoptions]
    exact (h.reopened_iff (isProbe_ne_nil hprobe)).mpr
      (hkeeps caller options hcaller hoptions hprobe)

/-- A run keeps half-open breakers exactly if nobody checks a breaker that is being probed, and the
failures counted since reach the threshold of every probe that fails. -/
theorem halfOpens_along_iff (now : ℕ) (maxEntries : ℚ) (as : List (Action K)) :
    Along step HalfOpens (initial K now maxEntries) as ↔
      Along step Keeps (initial K now maxEntries) as :=
  along_congr (fun _ a hinv => hinv.halfOpens_iff a)
    (fun _ a _ hinv hkeeps hstep => hinv.step a hkeeps hstep) (inv_initial now maxEntries) as

def opensAfter (threshold : ℕ) : CacheCircuitBreakerOptions where
  failureThreshold := some (threshold + 1)
  cooldownMs := some 100
  failureThreshold_pos := by
    rintro _ ⟨⟩
    positivity
  cooldownMs_pos := by
    rintro _ ⟨⟩
    norm_num

/-- Two callers come after the cooldown, one after the other. -/
def secondCaller : List (Action ℕ) :=
  [.assertClosed 7 (some (opensAfter 0)), .recordFailure 0, .wait 100,
    .assertClosed 7 (some (opensAfter 0)), .assertClosed 7 (some (opensAfter 0))]

/-- Two failures open the breaker, and a caller comes after the cooldown. -/
def probing : List (Action ℕ) :=
  [.assertClosed 7 (some (opensAfter 1)), .assertClosed 7 (some (opensAfter 1)), .recordFailure 0,
    .recordFailure 1, .wait 100, .assertClosed 7 (some (opensAfter 1))]

theorem not_halfOpens :
    (∃ s, run step (initial ℕ 1000 10) secondCaller = some s ∧ ¬ s.Probes) ∧
    ∃ s s', run step (initial ℕ 1000 10) probing = some s ∧ s.recordFailure 2 = some s' ∧
      ¬ s.Reopens s' 2 := by
  constructor
  · have hpassed : (run step (initial ℕ 1000 10) secondCaller).map (·.passed 7) = some [1, 2] := by
      decide +kernel
    obtain ⟨s, hs, hpassed⟩ := Option.map_eq_some_iff.mp hpassed
    refine ⟨s, hs, fun hprobes => ?_⟩
    have hle := hprobes 7
    rw [hpassed] at hle
    exact absurd hle (by decide)
  · have hfail : ((run step (initial ℕ 1000 10) probing).bind fun s =>
        (s.recordFailure 2).map fun s' => ((s.callers 2).map Caller.key,
          (s.callers 2).bind Caller.options, s.isProbe 7 2,
            (s'.manager.breakers.get 7).bind CircuitBreakerState.openUntil)) =
        some (some 7, some (opensAfter 1), true, none) := by
      decide +kernel
    obtain ⟨s, hs, hfail⟩ := Option.bind_eq_some_iff.mp hfail
    obtain ⟨s', hs', hfail⟩ := Option.map_eq_some_iff.mp hfail
    simp only [Prod.mk.injEq] at hfail
    obtain ⟨hkey, hoptions, hprobe, hclosed⟩ := hfail
    refine ⟨s, s', hs, hs', fun hreopens => ?_⟩
    obtain ⟨caller, hcaller, hkey⟩ := Option.map_eq_some_iff.mp hkey
    rw [hcaller, Option.bind_some] at hoptions
    rw [← hkey] at hprobe hclosed
    obtain ⟨state, hget, hopenUntil⟩ := hreopens caller (opensAfter 1) hcaller hoptions hprobe
    rw [hget, Option.bind_some, hopenUntil] at hclosed
    cases hclosed

end State

end LayerCache.HalfOpen
