import LayerCache.Resilience.CircuitBreaker
import LayerCache.Resilience.LimiterQueue

/-! # Fetches behind a breaker and a limiter

A fetch checks its breaker, and then asks the limiter to run its fetcher, which may be much later.
How the fetcher went is recorded some time after it has settled.
-/

namespace LayerCache.GuardedFetch

open Transition FetchRateLimiter

inductive BreakerScope | key | shared
  deriving DecidableEq

/-- The options of a breaker with those that choose it. -/
structure BreakerOptions extends CacheCircuitBreakerOptions where
  scope : Option BreakerScope
  breakerKey : Option String
  deriving DecidableEq

inductive BreakerKey (K : Type)
  | key (key : K)
  | custom (breakerKey : String)
  | shared
  deriving DecidableEq

def resolveCircuitBreakerKey {K : Type} (key : K) : Option BreakerOptions → BreakerKey K
  | none => .key key
  | some options =>
    match options.breakerKey.filter (· ≠ "") with
    | some breakerKey => .custom breakerKey
    | none => if options.scope = some .shared then .shared else .key key

/-- A fetch that has passed its breaker, with how its fetcher has settled. -/
structure Fetch where
  breakerKey : BreakerKey String
  options : Option BreakerOptions
  settled : Option Bool

structure State where
  limiter : FetchRateLimiter
  manager : CircuitBreakerManager (BreakerKey String)
  fetches : ℕ → Option Fetch

/-- Whether the limiter takes the step without a fetch. -/
def isSpontaneous : LimiterAction → Bool
  | .schedule _ _ | .settle _ => false
  | _ => true

/-- A fetch comes with the options that apply to it, and the limiter goes on by itself. -/
inductive Action
  | fetch (key : String) (breaker : Option BreakerOptions)
      (rateLimit : Option CacheRateLimitOptions)
    (fetcher : ℕ)
  | limiter (act : LimiterAction)
  | settle (i : ℕ) (fulfilled : Bool)
  | record (i : ℕ)

/-- A failure is recorded, and whether it has opened the breaker is looked up for the metrics. -/
def recordCircuitFailure {K : Type} [DecidableEq K]
    (manager : CircuitBreakerManager (BreakerKey K)) (now : Millis) (breakerKey : BreakerKey K) :
    Option BreakerOptions → CircuitBreakerManager (BreakerKey K)
  | none => manager
  | some options =>
    ((manager.recordFailure now breakerKey (some options.toCacheCircuitBreakerOptions)).isOpen now
      breakerKey).2

namespace State

def initial (now : ℕ) (maxEntries : ℚ) : State :=
  ⟨.initial now, ⟨maxEntries, .empty⟩, fun _ => none⟩

/-- `fetchAndPopulate` up to where it waits for the limiter. -/
def fetchAndPopulate (s : State) (key : String) (breaker : Option BreakerOptions)
    (rateLimit : Option CacheRateLimitOptions) (fetcher : ℕ) : State :=
  let breakerKey := resolveCircuitBreakerKey key breaker
  match s.manager.assertClosed s.limiter.now breakerKey with
  | (.error _, manager) => { s with manager }
  | (.ok _, manager) =>
    { limiter := s.limiter.schedule rateLimit ⟨key, fetcher⟩
      manager
      fetches := Function.update s.fetches s.limiter.nextTask (some ⟨breakerKey, breaker, none⟩) }

def settle (s : State) (i : ℕ) (fulfilled : Bool) : Option State :=
  if s.limiter.drain.isNone then
    (s.limiter.settle i).map fun limiter =>
      { s with
        limiter
        fetches := Function.update s.fetches i
          ((s.fetches i).map fun fetch => { fetch with settled := some fulfilled }) }
  else none

/-- What `fetchAndPopulate` does when the limiter has run its fetcher. -/
def record (s : State) (i : ℕ) : Option State :=
  (s.fetches i).bind fun fetch => fetch.settled.map fun fulfilled =>
    { s with
      manager :=
        if fulfilled then s.manager.recordSuccess fetch.breakerKey
        else recordCircuitFailure s.manager s.limiter.now fetch.breakerKey fetch.options
      fetches := Function.update s.fetches i none }

def step (s : State) : Action → Option State
  | .fetch key breaker rateLimit fetcher => some (s.fetchAndPopulate key breaker rateLimit fetcher)
  | .limiter act =>
    if isSpontaneous act then (s.limiter.step act).map fun limiter => { s with limiter } else none
  | .settle i fulfilled => s.settle i fulfilled
  | .record i => s.record i

end State

/-- The fetcher of the task runs, in a bucket or free of the limits. -/
def isRunning : Option TaskState → Bool
  | some (.running _ _) | some .free => true
  | _ => false

namespace State

/-- No fetcher run starts in the step while its breaker is open. -/
def StartsClosed (s : State) (a : Action) : Prop :=
  ∀ s', s.step a = some s' → ∀ i fetch, s'.fetches i = some fetch →
    isRunning (s.limiter.tasks i) = false → isRunning (s'.limiter.tasks i) = true →
    ¬ s.manager.Open s.limiter.now fetch.breakerKey

/-- A failure that reaches the threshold of its breaker finds no fetch of that breaker in a queue of
the limiter. -/
def OpensAlone (s : State) : Action → Prop
  | .record i => ∀ fetch options, s.fetches i = some fetch → fetch.settled = some false →
      fetch.options = some options →
      options.threshold ≤ ((s.manager.breakers.get fetch.breakerKey).elim 0 (·.failures) + 1 : ℕ) →
      ∀ j item other, s.limiter.tasks j = some (.queued item) → s.fetches j = some other →
        other.breakerKey ≠ fetch.breakerKey
  | _ => True

structure Inv (s : State) : Prop where
  limiter : s.limiter.Inv
  waiting : ∀ i item fetch, s.limiter.tasks i = some (.queued item) → s.fetches i = some fetch →
    ¬ s.manager.Open s.limiter.now fetch.breakerKey

theorem inv_initial (now : ℕ) (maxEntries : ℚ) : (initial now maxEntries).Inv where
  limiter := FetchRateLimiter.inv_initial now
  waiting _ _ _ h := nomatch h

variable {s s' : State} {i : ℕ}

theorem limiter_of_step {act : LimiterAction} (hs : s.step (.limiter act) = some s') :
    (∀ options context, act ≠ .schedule options context) ∧
      ∃ limiter, s.limiter.step act = some limiter ∧ s' = { s with limiter } := by
  rw [State.step] at hs
  split at hs
  · rename_i hspontaneous
    obtain ⟨limiter, hlimiter, hs⟩ := Option.map_eq_some_iff.mp hs
    refine ⟨?_, limiter, hlimiter, hs.symm⟩
    rintro options context rfl
    cases hspontaneous
  · cases hs

theorem open_of_recordCircuitFailure {manager : CircuitBreakerManager (BreakerKey String)}
    {now : Millis} {key k : BreakerKey String} {breaker : Option BreakerOptions}
    (h : (recordCircuitFailure manager now key breaker).Open now k) :
    manager.Open now k ∨ k = key ∧ ∃ options, breaker = some options ∧
      options.threshold ≤ ((manager.breakers.get key).elim 0 (·.failures) + 1 : ℕ) := by
  cases breaker with
  | none => exact .inl h
  | some options =>
    have hopen := CircuitBreakerManager.Open.of_get (CircuitBreakerManager.get_isOpen k) h
    rcases hopen.of_recordFailure with hopen | ⟨hkey, _, ⟨⟩, hthreshold⟩
    · exact .inl hopen
    · exact .inr ⟨hkey, options, rfl, hthreshold⟩

theorem now_le_step {limiter limiter' : FetchRateLimiter} {act : LimiterAction}
    (h : limiter.Inv) (hs : limiter.step act = some limiter') : limiter.now ≤ limiter'.now := by
  rcases h.starts_step hs with ⟨-, hnow, -⟩ | ⟨item, b, hstart⟩
  · exact hnow
  · exact hstart.now.ge

theorem queued_of_taskStep {task task' : Option TaskState} {item : QueueItem}
    (h : TaskStep task task') (hqueued : task' = some (.queued item)) :
    task = some (.queued item) := by
  cases h with
  | same => exact hqueued
  | _ => cases hqueued

theorem exists_queued_of_taskStep {task task' : Option TaskState} (h : TaskStep task task')
    (hrests : isRunning task = false) (hruns : isRunning task' = true) :
    ∃ item, task = some (.queued item) := by
  cases h with
  | same =>
    rw [hrests] at hruns
    cases hruns
  | started item b => exact ⟨item, rfl⟩
  | rejected item => cases hruns
  | settled => cases hruns

theorem Inv.limiterStep (h : s.Inv) {act : LimiterAction} {limiter : FetchRateLimiter}
    (hact : ∀ options context, act ≠ .schedule options context)
    (hs : s.limiter.step act = some limiter) : Inv { s with limiter } where
  limiter := h.limiter.step hs
  waiting j item fetch hj hfetch hopen := by
    have hqueued := queued_of_taskStep (h.limiter.taskStep (i := j) hact hs) hj
    exact h.waiting j item fetch hqueued hfetch
      (hopen.earlier (Nat.cast_le.mpr (now_le_step h.limiter hs)))

theorem Inv.passed (h : s.Inv) {manager : CircuitBreakerManager (BreakerKey String)} {fetch : Fetch}
    (hclosed : ¬ s.manager.Open s.limiter.now fetch.breakerKey)
    (hget : ∀ k, manager.breakers.get k = s.manager.breakers.get k ∨ manager.breakers.get k = none)
    (rateLimit : Option CacheRateLimitOptions) (context : ScheduleContext) :
    Inv ⟨s.limiter.schedule rateLimit context, manager,
      Function.update s.fetches s.limiter.nextTask (some fetch)⟩ where
  limiter := h.limiter.schedule rateLimit context
  waiting j item other hj hother hopen := by
    have hnow := now_le_step h.limiter
      (show s.limiter.step (.schedule rateLimit context) = some _ from rfl)
    have hopen := (hopen.of_get (hget _)).earlier (Nat.cast_le.mpr hnow)
    by_cases hji : j = s.limiter.nextTask
    · subst hji
      simp only [Function.update_self] at hother
      cases hother
      exact hclosed hopen
    · simp only [Function.update_of_ne hji] at hother
      have hj : (s.limiter.schedule rateLimit context).tasks j = some (.queued item) := hj
      rw [h.limiter.tasks_schedule rateLimit context hji] at hj
      exact h.waiting j item other hj hother hopen

theorem settle_cases {fulfilled : Bool} (hs : s.settle i fulfilled = some s') :
    s'.manager = s.manager ∧ s.limiter.step (.settle i) = some s'.limiter ∧
      ∀ j fetch, s'.fetches j = some fetch →
        ∃ old, s.fetches j = some old ∧ old.breakerKey = fetch.breakerKey := by
  unfold State.settle at hs
  split at hs
  · rename_i hdrain
    obtain ⟨limiter, hlimiter, rfl⟩ := Option.map_eq_some_iff.mp hs
    refine ⟨rfl, (if_pos hdrain).trans hlimiter, fun j fetch hfetch => ?_⟩
    by_cases hji : j = i
    · subst hji
      simp only [Function.update_self] at hfetch
      obtain ⟨old, hold, rfl⟩ := Option.map_eq_some_iff.mp hfetch
      exact ⟨old, hold, rfl⟩
    · simp only [Function.update_of_ne hji] at hfetch
      exact ⟨fetch, hfetch, rfl⟩
  · cases hs

theorem Inv.settle (h : s.Inv) {fulfilled : Bool} (hs : s.settle i fulfilled = some s') :
    s'.Inv := by
  obtain ⟨hmanager, hlimiter, hfetches⟩ := settle_cases hs
  have hsettled := h.limiterStep (by rintro _ _ ⟨⟩) hlimiter
  refine ⟨hsettled.limiter, fun j item fetch hj hfetch => ?_⟩
  obtain ⟨old, hold, hkey⟩ := hfetches j fetch hfetch
  rw [hmanager, ← hkey]
  exact hsettled.waiting j item old hj hold

theorem Inv.record (h : s.Inv) (halone : s.OpensAlone (.record i)) (hs : s.record i = some s') :
    s'.Inv := by
  obtain ⟨fetch, hfetch, hs⟩ := Option.bind_eq_some_iff.mp hs
  obtain ⟨fulfilled, hsettled, rfl⟩ := Option.map_eq_some_iff.mp hs
  refine ⟨h.limiter, fun j item other hj hother hopen => ?_⟩
  replace hother : s.fetches j = some other := by
    by_cases hji : j = i
    · subst hji
      simp only [Function.update_self] at hother
      cases hother
    · simpa only [Function.update_of_ne hji] using hother
  have hwaiting := h.waiting j item other hj hother
  cases fulfilled with
  | true => exact hwaiting (hopen.of_get (CircuitBreakerManager.get_delete _ _ _))
  | false =>
    rcases open_of_recordCircuitFailure hopen with hopen | ⟨hkey, options, hoptions, hthreshold⟩
    · exact hwaiting hopen
    · exact halone fetch options hfetch hsettled hoptions hthreshold j item other hj hother hkey

theorem Inv.step {a : Action} (h : s.Inv) (halone : s.OpensAlone a) (hs : s.step a = some s') :
    s'.Inv := by
  cases a with
  | fetch key breaker rateLimit fetcher =>
    cases hs
    unfold fetchAndPopulate
    simp only
    split
    · rename_i manager hpassed
      rw [CircuitBreakerManager.eq_of_assertClosed_error hpassed]
      exact h
    · rename_i manager hpassed
      obtain ⟨hclosed, hget⟩ := CircuitBreakerManager.not_open_of_assertClosed hpassed
      exact h.passed hclosed hget rateLimit ⟨key, fetcher⟩
  | limiter act =>
    obtain ⟨hschedule, limiter, hlimiter, rfl⟩ := limiter_of_step hs
    exact h.limiterStep hschedule hlimiter
  | settle i fulfilled => exact h.settle hs
  | record i => exact h.record halone hs

/-- Where the fetches that wait have closed breakers, so has a fetch that starts. -/
theorem Inv.closed_starts (h : s.Inv) (a : Action) : s.StartsClosed a := by
  intro s' hs i fetch hfetch hrests hruns hopen
  cases a with
  | fetch key breaker rateLimit fetcher =>
    cases hs
    unfold fetchAndPopulate at hfetch hruns
    simp only at hfetch hruns
    split at hruns
    · rw [hrests] at hruns
      cases hruns
    · rename_i hpassed
      rw [hpassed] at hfetch
      by_cases hi : i = s.limiter.nextTask
      · subst hi
        simp only [Function.update_self] at hfetch
        cases hfetch
        exact (CircuitBreakerManager.not_open_of_assertClosed hpassed).1 hopen
      · simp only [h.limiter.tasks_schedule rateLimit ⟨key, fetcher⟩ hi] at hruns
        rw [hrests] at hruns
        cases hruns
  | limiter act =>
    obtain ⟨hschedule, limiter, hlimiter, rfl⟩ := limiter_of_step hs
    obtain ⟨item, hqueued⟩ := exists_queued_of_taskStep (h.limiter.taskStep hschedule hlimiter)
      hrests hruns
    exact h.waiting i item fetch hqueued hfetch hopen
  | settle j fulfilled =>
    obtain ⟨-, hlimiter, hfetches⟩ := settle_cases hs
    obtain ⟨old, hold, hkey⟩ := hfetches i fetch hfetch
    obtain ⟨item, hqueued⟩ := exists_queued_of_taskStep
      (h.limiter.taskStep (by rintro _ _ ⟨⟩) hlimiter) hrests hruns
    exact h.waiting i item old hqueued hold (hkey ▸ hopen)
  | record j =>
    have hs : s.record j = some s' := hs
    obtain ⟨recorded, _, hs⟩ := Option.bind_eq_some_iff.mp hs
    obtain ⟨fulfilled, _, rfl⟩ := Option.map_eq_some_iff.mp hs
    rw [hrests] at hruns
    cases hruns

/-- As long as no failure opens a breaker over a fetch that waits in a queue of the limiter, no
fetcher run starts while its breaker is open. -/
theorem startsClosed {now : ℕ} {maxEntries : ℚ}
    (hrun : Reaches step OpensAlone (initial now maxEntries) s) (a : Action) :
    s.StartsClosed a := by
  have hinv : s.Inv := hrun.invariant (fun _ _ _ h halone hs => h.step halone hs)
    (inv_initial now maxEntries)
  exact hinv.closed_starts a

/-- The breaker of a backend opens at the first failure. -/
def backend : BreakerOptions where
  failureThreshold := some 1
  cooldownMs := some 1000
  failureThreshold_pos := pos_of_mem_one
  cooldownMs_pos := by
    rintro _ ⟨⟩
    norm_num
  scope := none
  breakerKey := some "backend"

def fetchAll (keys : List String) : List Action :=
  keys.map fun key => .fetch key (some backend) (some oneAtATime) 0

/-- The first fetch has run, and the second is in the queue. -/
def firstSettled (fulfilled : Bool) : List Action :=
  [.limiter .runDrain, .limiter .visit, .limiter .endDrain, .limiter .runDrain, .limiter .visit,
    .limiter .endDrain, .settle 0 fulfilled]

def besideBackend : List Action :=
  fetchAll ["a"] ++ [.fetch "b" none (some oneAtATime) 0]

theorem startsClosed_besideBackend :
    ∃ s, run step (initial 5 10) (besideBackend ++ firstSettled false ++
        [.record 0, .limiter .runDrain]) = some s ∧
      s.manager.Open s.limiter.now (.custom "backend") ∧
      (s.step (.limiter .visit)).isSome ∧ s.StartsClosed (.limiter .visit) := by
  let failed := besideBackend ++ firstSettled false
  have hrun : ((run step (initial 5 10) failed).bind fun s => (s.step (.record 0)).bind fun r =>
      (r.step (.limiter .runDrain)).map fun t =>
        (s.limiter.nextTask, (s.limiter.tasks 0).any fun task => task matches .queued _,
          (s.fetches 0).map Fetch.breakerKey,
          (s.fetches 1).map Fetch.breakerKey,
          (t.manager.isOpen t.limiter.now (.custom "backend")).1,
          (t.step (.limiter .visit)).isSome)) =
      some (2, false, some (.custom "backend"), some (.key "b"), true, true) := by
    set_option synthInstance.maxSize 400 in
    decide +kernel
  obtain ⟨s, hs, hrun⟩ := Option.bind_eq_some_iff.mp hrun
  obtain ⟨r, hr, hrun⟩ := Option.bind_eq_some_iff.mp hrun
  obtain ⟨t, ht, hrun⟩ := Option.map_eq_some_iff.mp hrun
  simp only [Prod.mk.injEq] at hrun
  obtain ⟨hnext, hfirst, hbackend, hother, hopen, hvisit⟩ := hrun
  have hbefore : Reaches step OpensAlone (initial 5 10) s := by
    refine reaches_of_run _ hs (along_of_forall fun s a ha => ?_)
    cases a with
    | record i => simp [failed, besideBackend, fetchAll, firstSettled] at ha
    | _ => trivial
  have hinv : s.Inv := hbefore.invariant (fun _ _ _ h halone hs => h.step halone hs)
    (inv_initial 5 10)
  -- only the fetch without a breaker is in the queue
  have halone : s.OpensAlone (.record 0) := by
    intro fetch options hfetch _ _ _ j item other hj hfetchj
    have hlt := hinv.limiter.numbered j (by rw [hj]; simp)
    rw [hnext] at hlt
    obtain rfl | rfl : j = 0 ∨ j = 1 := by omega
    · rw [hj] at hfirst
      cases hfirst
    · rw [hfetch] at hbackend
      rw [hfetchj] at hother
      rw [Option.some_inj.mp hbackend, Option.some_inj.mp hother]
      simp
  have hreaches : Reaches step OpensAlone (initial 5 10) t :=
    (hbefore.tail ⟨.record 0, halone, hr⟩).tail ⟨.limiter .runDrain, trivial, ht⟩
  refine ⟨t, ?_, CircuitBreakerManager.open_iff_isOpen.mpr hopen, hvisit,
    startsClosed hreaches _⟩
  rw [run_append, hs]
  change (s.step (.record 0)).bind _ = _
  rw [hr]
  change (r.step (.limiter .runDrain)).bind _ = _
  rw [ht]
  rfl

theorem not_startsClosed :
    ∃ s, run step (initial 5 10) (fetchAll ["a", "b"] ++ firstSettled false ++
        [.record 0, .limiter .runDrain]) = some s ∧ ¬ s.StartsClosed (.limiter .visit) := by
  have hrun : ((run step (initial 5 10) (fetchAll ["a", "b"] ++ firstSettled false ++
        [.record 0, .limiter .runDrain])).bind fun s =>
          (s.step (.limiter .visit)).map fun s' =>
            ((s'.fetches 1).map Fetch.breakerKey, isRunning (s.limiter.tasks 1),
              isRunning (s'.limiter.tasks 1),
              (s.manager.isOpen s.limiter.now (.custom "backend")).1)) =
      some (some (.custom "backend"), false, true, true) := by
    decide +kernel
  obtain ⟨s, hs, hvisit⟩ := Option.bind_eq_some_iff.mp hrun
  obtain ⟨s', hs', hvisit⟩ := Option.map_eq_some_iff.mp hvisit
  simp only [Prod.mk.injEq] at hvisit
  obtain ⟨hkey, hrests, hruns, hopen⟩ := hvisit
  refine ⟨s, hs, fun hclosed => ?_⟩
  obtain ⟨fetch, hfetch, hkey⟩ := Option.map_eq_some_iff.mp hkey
  apply hclosed s' hs' 1 fetch hfetch hrests hruns
  rw [hkey]
  exact CircuitBreakerManager.open_iff_isOpen.mpr hopen

end State

end LayerCache.GuardedFetch
