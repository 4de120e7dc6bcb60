import LayerCache.SingleFlight.FetchOnce
import LayerCache.Stack.Get

/-! # Refreshing ahead of expiry

A `get` that hits an entry near the end of its fresh window schedules a background
refresh. The refresh takes the same way as a miss: through the stampede guard and the
single-flight coordinator to a task that looks for a fresh entry before it fetches. What
the layers hold when it looks, and what lock, breaker, limiter and fetcher are going to
answer, is part of a scenario.
-/

namespace LayerCache

variable {V E : Type}

/-- What a read finds in each layer, and when it looks there. -/
structure Look (V : Type*) where
  stored : ℕ → Option (Stored V)
  now : ℕ → Millis

/-- `readFromLayers` for fresh entries only. -/
def Look.readFromLayers (look : Look V) (layers : ℕ) : Option (Js V) :=
  (List.range layers).findSome? fun l =>
    (look.stored l).bind fun stored =>
      if (resolveStoredValue (look.now l) stored (look.now l)).state = .fresh then
        some (hitValue (look.now l) stored)
      else none

/-- How the store of a fetched value ends. When the write chain of the key has no room, no layer is
written; when the write-behind queue has none, the others have been. -/
inductive StoreOutcome (E : Type*)
  | stored
  | saturated (e : E)
  | queueFull (e : E)

namespace StoreOutcome

def error : StoreOutcome E → Option E
  | .stored => none
  | .saturated e | .queueFull e => some e

def isSaturated : StoreOutcome E → Bool
  | .saturated _ => true
  | _ => false

end StoreOutcome

/-- One attempt of the refresh. A fetched value is stored at the time `now`. -/
inductive Fetch (V E : Type*)
  | refused (e : E)
  | rejected (e : E)
  | fetched (value : Option (Option V)) (now : Millis) (outcome : StoreOutcome E)

/-- The fetcher yields `undefined`, `null` or a value. -/
def Js.ofFetched : Option (Option V) → Js V
  | none => .undefined
  | some v => .ofOption v

def Fetch.attempt : Fetch V E → Attempt (Js V) E
  | .refused e => .refused e
  | .rejected e => .rejected e
  | .fetched value _ outcome => .fetched (.ofFetched value) outcome.error

/-- What decides if a fetched value is cached. A `shouldCache` that throws says no. -/
structure CachingOptions (V : Type*) where
  negativeCache : Bool
  cacheNullValues : Bool
  shouldCache : Option V → Bool
  windows : CacheWriteKind → Option V → ℕ → Windows

namespace CachingOptions

def ofValue (options : CachingOptions V) (value : Option V) : Option (WriteValue V) :=
  if options.shouldCache value then some ⟨.value, value, options.windows .value value⟩ else none

def ofNothing (options : CachingOptions V) : Option (WriteValue V) :=
  if options.negativeCache then some ⟨.empty, none, options.windows .empty none⟩ else none

/-- What `fetchAndPopulate` stores of a fetched value, if anything. -/
def write (options : CachingOptions V) : Option (Option V) → Option (WriteValue V)
  | none => options.ofNothing
  | some none => if options.cacheNullValues then options.ofValue none else options.ofNothing
  | some (some value) => options.ofValue (some value)

end CachingOptions

def WriteValue.entry (write : WriteValue V) (now : Millis) (layer : ℕ) : Stored V :=
  .envelope (createStoredValueEnvelope write.kind write.value (write.windows layer) now)

/-- What the stampede guard has for the refresh: a run of its own task, the task that another
caller has in flight, or no room. -/
inductive Turn
  | own
  | joined
  | full
deriving DecidableEq

/-- A fresh hit by a `get`, and what its refresh meets with. `held` is what the layers hold when the
fetched value is stored, `flushed` says which layers behind the queue it is written to before the
store is over: a store that fills a batch waits for the queue. -/
structure Refresh (V E : Type*) where
  layers : ℕ
  writeBehind : ℕ → Bool
  flushed : ℕ → Bool
  hit : Stored V
  hitLayer : ℕ
  hitAt : Millis
  options : GetOptions
  isDisconnecting : Bool
  hasRefreshInFlight : Bool
  turn : Turn
  singleFlightCoordinator : Bool
  gracefulDegradation : Bool
  locks : ℕ → Lock E
  looks : ℕ → Look V
  polls : List (Look V)
  timedOut : E
  fetches : ℕ → Fetch V E
  caching : CachingOptions V
  held : ℕ → Option (Stored V)

namespace Refresh

/-- What a task finds when it looks at the layers for the `n`-th time. -/
def look (r : Refresh V E) (n : ℕ) : Option (Js V) := (r.looks n).readFromLayers r.layers

def scenario (r : Refresh V E) : Scenario (Js V) E where
  singleFlightCoordinator := r.singleFlightCoordinator
  gracefulDegradation := r.gracefulDegradation
  initialMissConfirmed := false
  locks := r.locks
  rechecks := fun n => .ok (r.look n)
  polls := r.polls.map fun look => .ok (look.readFromLayers r.layers)
  timedOut := r.timedOut
  attempts := fun n => (r.fetches n).attempt

/-- `runBackgroundRefresh`: what has happened when the refresh is over. -/
def run (r : Refresh V E) : Progress E :=
  if r.turn = .own then (fetchWithGuards r.scenario none).2 else .start

/-- What the `n`-th attempt stores, and when. -/
def storedBy (r : Refresh V E) (n : ℕ) : Option (WriteValue V × Millis) :=
  match r.fetches n with
  | .fetched value now outcome =>
    if outcome.isSaturated then none else (r.caching.write value).map fun write => (write, now)
  | _ => none

/-- A layer behind the queue is written by the store only if the queue is flushed. -/
def writes (r : Refresh V E) (l : ℕ) : Bool := !r.writeBehind l || r.flushed l

def after (r : Refresh V E) (l : ℕ) : Option (Stored V) :=
  match r.run.fetched.findSome? r.storedBy with
  | some (write, now) =>
    if l < r.layers && r.writes l then some (write.entry now l) else r.held l
  | none => r.held l

/-- A task that looks at the layers now, and at the breaker and the limiter, calls the fetcher. -/
def Calls (r : Refresh V E) (look attempt : ℕ) : Prop :=
  r.look look = none ∧ ∀ e, r.fetches attempt ≠ .refused e

/-- The lock is this task's after a look at the layers that found nothing fresh; so many looks have
been taken under it. -/
inductive Locked (r : Refresh V E) : Option E → ℕ → Prop
  | worker (release : Option E) (hlock : r.locks 0 = .acquired release) (hlook : r.look 0 = none) :
      Locked r release 1
  | waiter (release : Option E) (hheld : r.locks 0 = .held)
      (hpolls : ∀ look ∈ r.polls, look.readFromLayers r.layers = none)
      (hlock : r.locks 1 = .acquired release) : Locked r release 0

/-- The coordinator fails before the task has looked at anything, or another instance has the lock
and comes to nothing. -/
inductive Unlocked (r : Refresh V E) : Prop
  | failed (e : E) (hlock : r.locks 0 = .failed e)
  | timedOut (hheld : r.locks 0 = .held)
      (hpolls : ∀ look ∈ r.polls, look.readFromLayers r.layers = none)
      (hlock : ∀ release, r.locks 1 ≠ .acquired release)

/-- The ways in which the `n`-th attempt is the only one to call the fetcher. -/
inductive CallsOnce (r : Refresh V E) : ℕ → Prop
  | alone (hoff : r.singleFlightCoordinator = false) (hcalls : r.Calls 0 0) : CallsOnce r 0
  | underLock (hon : r.singleFlightCoordinator = true) (release : Option E) (look : ℕ)
      (hlock : r.Locked release look) (hcalls : ∀ e, r.fetches 0 ≠ .refused e)
      (honce : (release = none ∧ ∃ value now, r.fetches 0 = .fetched value now .stored) ∨
        r.gracefulDegradation = false ∨ ¬r.Calls look 1) : CallsOnce r 0
  | afterRefusal (hon : r.singleFlightCoordinator = true) (release : Option E) (look : ℕ)
      (hlock : r.Locked release look) (e : E) (hrefused : r.fetches 0 = .refused e)
      (hgraceful : r.gracefulDegradation = true) (hcalls : r.Calls look 1) : CallsOnce r 1
  | afterRelease (hon : r.singleFlightCoordinator = true) (e : E)
      (hlock : r.locks 0 = .acquired (some e)) (hfound : r.look 0 ≠ none)
      (hgraceful : r.gracefulDegradation = true) (hcalls : r.Calls 1 0) : CallsOnce r 0
  | withoutLock (hon : r.singleFlightCoordinator = true) (hlock : r.Unlocked)
      (hgraceful : r.gracefulDegradation = true) (hcalls : r.Calls 0 0) : CallsOnce r 0

/-- The layers that the `n`-th attempt does not write hold the new entry already. -/
def Keeps (r : Refresh V E) (n : ℕ) : Prop :=
  ∀ value now outcome, r.fetches n = .fetched value now outcome →
    ∀ write ∈ r.caching.write value, write.kind = .value →
      ∀ l < r.layers, outcome.isSaturated = true ∨ r.writes l = false →
        r.held l = some (write.entry now l)

/-- What an attempt adds to the list of those that yielded a value. -/
def yields (r : Refresh V E) (n : ℕ) : List ℕ :=
  match r.fetches n with
  | .fetched _ _ _ => [n]
  | _ => []

variable {r : Refresh V E} {p : Progress E} {n look : ℕ} {release : Option E}

theorem fetchAndPopulate_of_calls (h : ∀ e, r.fetches p.attempts ≠ .refused e) :
    (fetchAndPopulate r.scenario p).2.fetches = p.fetches + 1 ∧
      (fetchAndPopulate r.scenario p).2.fetched = r.yields p.attempts ++ p.fetched ∧
      (fetchAndPopulate r.scenario p).2.attempts = p.attempts + 1 ∧
      (fetchAndPopulate r.scenario p).2.rechecks = p.rechecks := by
  unfold fetchAndPopulate yields
  simp only [scenario]
  cases hf : r.fetches p.attempts with
  | refused e => exact absurd hf (h e)
  | rejected e => exact ⟨rfl, rfl, rfl, rfl⟩
  | fetched value now outcome => cases outcome <;> exact ⟨rfl, rfl, rfl, rfl⟩

theorem fetchTask_eq (r : Refresh V E) (p : Progress E) : fetchTask r.scenario p =
    match r.look p.rechecks with
    | some value => (.ok value, p.rechecked)
    | none => fetchAndPopulate r.scenario p.rechecked := by
  unfold fetchTask
  simp only [scenario, Bool.false_and]
  cases r.look p.rechecks <;> rfl

theorem fetchTask_of_calls (h : r.Calls p.rechecks p.attempts) :
    (fetchTask r.scenario p).2.fetches = p.fetches + 1 ∧
      (fetchTask r.scenario p).2.fetched = r.yields p.attempts ++ p.fetched := by
  obtain ⟨hfetches, hfetched, -⟩ := fetchAndPopulate_of_calls (p := p.rechecked) h.2
  rw [fetchTask_eq, h.1]
  exact ⟨hfetches, hfetched⟩

theorem fetchTask_of_not_calls (h : ¬r.Calls p.rechecks p.attempts) :
    (fetchTask r.scenario p).2.fetches = p.fetches ∧
      (fetchTask r.scenario p).2.fetched = p.fetched := by
  rw [fetchTask_eq]
  cases hlook : r.look p.rechecks with
  | some value => exact ⟨rfl, rfl⟩
  | none =>
    obtain ⟨e, he⟩ : ∃ e, r.fetches p.attempts = .refused e := by
      by_contra hne
      exact h ⟨hlook, fun e he => hne ⟨e, he⟩⟩
    have hrefused : fetchAndPopulate r.scenario p.rechecked =
        (.error e, p.rechecked.attempted) := by
      simp [fetchAndPopulate, scenario, Progress.rechecked, he, Fetch.attempt]
    rw [hrefused]
    exact ⟨rfl, rfl⟩

theorem poll_eq_none_iff : poll r.scenario.polls = none ↔
    ∀ look ∈ r.polls, look.readFromLayers r.layers = none := by
  unfold scenario
  induction r.polls with
  | nil => simp [poll]
  | cons look polls ih => cases hlook : look.readFromLayers r.layers <;> simp_all [poll]

def coordinated (r : Refresh V E) : Except E (Js V) × Progress E :=
  execute r.scenario (fetchTask r.scenario) (waitForFreshValue r.scenario 1 r.scenario.polls) .start

def Idle (p : Progress E) (looks : ℕ) : Prop :=
  p.rechecks = looks ∧ p.attempts = 0 ∧ p.fetches = 0 ∧ p.fetched = []

theorem coordinated_unlocked (h : r.Unlocked) :
    ∃ e p, Idle p 0 ∧ r.coordinated = (.error e, p) := by
  unfold coordinated execute
  cases h with
  | failed e hlock =>
    simp only [scenario, Progress.start, hlock]
    exact ⟨e, _, ⟨rfl, rfl, rfl, rfl⟩, rfl⟩
  | timedOut hheld hpolls hlock =>
    have hlocks : r.scenario.locks (Progress.start : Progress E).locks = .held := hheld
    have hagain : r.scenario.locks (Progress.start : Progress E).locked.locks = r.locks 1 := rfl
    simp only [hlocks, waitForFreshValue, poll_eq_none_iff.mpr hpolls]
    unfold execute
    rw [hagain]
    cases hr : r.locks 1 with
    | failed e => exact ⟨e, _, ⟨rfl, rfl, rfl, rfl⟩, rfl⟩
    | acquired release => exact absurd hr (hlock release)
    | held => exact ⟨_, _, ⟨rfl, rfl, rfl, rfl⟩, rfl⟩

theorem coordinated_found (hlock : r.locks 0 = .acquired release) {value : Js V}
    (hfound : r.look 0 = some value) :
    ∃ p, Idle p 1 ∧ r.coordinated = (Scenario.released release (.ok value), p) := by
  have hlocks : r.scenario.locks (Progress.start : Progress E).locks = .acquired release := hlock
  have htask : fetchTask r.scenario (Progress.start : Progress E).locked =
      (.ok value, (Progress.start : Progress E).locked.rechecked) := by
    have hlook : r.look (Progress.start : Progress E).locked.rechecks = some value := hfound
    rw [fetchTask_eq, hlook]
  refine ⟨(Progress.start : Progress E).locked.rechecked, ⟨rfl, rfl, rfl, rfl⟩, ?_⟩
  unfold coordinated execute
  rw [hlocks]
  cases release <;> simp [htask, Scenario.released]

theorem coordinated_locked (h : r.Locked release look) : ∃ p, Idle p look ∧ r.coordinated =
    (Scenario.released release (fetchAndPopulate r.scenario p).1,
      (fetchAndPopulate r.scenario p).2) := by
  unfold coordinated execute
  cases h with
  | worker hlock hlook =>
    have hlocks : r.scenario.locks (Progress.start : Progress E).locks = .acquired release := hlock
    have htask : fetchTask r.scenario (Progress.start : Progress E).locked =
        fetchAndPopulate r.scenario (Progress.start : Progress E).locked.rechecked := by
      have hlook : r.look (Progress.start : Progress E).locked.rechecks = none := hlook
      rw [fetchTask_eq, hlook]
    refine ⟨(Progress.start : Progress E).locked.rechecked, ⟨rfl, rfl, rfl, rfl⟩, ?_⟩
    rw [hlocks]
    cases release <;> simp [htask, Scenario.released]
  | waiter hheld hpolls hlock =>
    have hlocks : r.scenario.locks (Progress.start : Progress E).locks = .held := hheld
    have hagain : r.scenario.locks (Progress.start : Progress E).locked.locks =
      .acquired release := hlock
    refine ⟨(Progress.start : Progress E).locked.locked, ⟨rfl, rfl, rfl, rfl⟩, ?_⟩
    simp only [hlocks, waitForFreshValue, poll_eq_none_iff.mpr hpolls]
    unfold execute
    rw [hagain]
    cases release <;> simp [Scenario.released]

/-- When the task does not run by itself, the run under the coordinator may be all there is, or the
task is started over after it. -/
theorem run_over (hturn : r.turn = .own) (hon : r.singleFlightCoordinator = true)
    {result : Except E (Js V)} (h : r.coordinated = (result, p))
    (hover : (∃ value, result = .ok value) ∨ r.gracefulDegradation = false) : r.run = p := by
  have hs : (singleFlightTask r.scenario .start).2 = p := by
    have hexecute : execute r.scenario (fetchTask r.scenario)
        (waitForFreshValue r.scenario 1 r.scenario.polls) .start = (result, p) := h
    unfold singleFlightTask
    rw [hexecute]
    have hon : r.scenario.singleFlightCoordinator = true := hon
    cases result with
    | ok value => simp [hon]
    | error e =>
      have hg : r.scenario.gracefulDegradation = false := by
        rcases hover with ⟨_, h⟩ | h
        · cases h
        · exact h
      simp [hon, hg]
  simp [Refresh.run, hturn, fetchWithGuards, hs]

theorem run_again (hturn : r.turn = .own) (hon : r.singleFlightCoordinator = true) {e : E}
    (h : r.coordinated = (.error e, p)) (hg : r.gracefulDegradation = true) :
    r.run = (fetchTask r.scenario p).2 := by
  have hexecute : execute r.scenario (fetchTask r.scenario)
      (waitForFreshValue r.scenario 1 r.scenario.polls) .start = (.error e, p) := h
  have hon : r.scenario.singleFlightCoordinator = true := hon
  have hg : r.scenario.gracefulDegradation = true := hg
  simp [Refresh.run, hturn, fetchWithGuards, singleFlightTask, hexecute, hon, hg]

theorem run_alone (hturn : r.turn = .own) (hoff : r.singleFlightCoordinator = false) :
    r.run = (fetchTask r.scenario .start).2 := by
  have hoff : r.scenario.singleFlightCoordinator = false := hoff
  simp [Refresh.run, hturn, fetchWithGuards, singleFlightTask, hoff]

/-- An attempt after a coordinated run without one. -/
theorem run_again_of_calls (hturn : r.turn = .own) (hon : r.singleFlightCoordinator = true) {e : E}
    (h : r.coordinated = (.error e, p)) (hg : r.gracefulDegradation = true)
    (hfetches : p.fetches = 0) (hfetched : p.fetched = [])
    (hcalls : r.Calls p.rechecks p.attempts) :
    r.run.fetches = 1 ∧ r.run.fetched = r.yields p.attempts := by
  obtain ⟨hf, hy⟩ := fetchTask_of_calls hcalls
  rw [run_again hturn hon h hg]
  exact ⟨by rw [hf, hfetches], by rw [hy, hfetched, List.append_nil]⟩

theorem released_error (release : Option E) (e : E) : ∃ e',
    Scenario.released release (.error e : Except E (Js V)) = .error e' := by
  cases release with
  | none => exact ⟨e, rfl⟩
  | some e' => exact ⟨e', rfl⟩

theorem fetchAndPopulate_refused {e : E} (hp : p.attempts = 0) (h : r.fetches 0 = .refused e) :
    fetchAndPopulate r.scenario p = (.error e, p.attempted) := by
  simp [fetchAndPopulate, scenario, hp, h, Fetch.attempt]

theorem CallsOnce.run (h : r.CallsOnce n) (hturn : r.turn = .own) :
    r.run.fetches = 1 ∧ r.run.fetched = r.yields n := by
  cases h with
  | alone hoff hcalls =>
    obtain ⟨hf, hy⟩ := fetchTask_of_calls (p := .start) hcalls
    rw [run_alone hturn hoff]
    exact ⟨hf, hy.trans (List.append_nil _)⟩
  | withoutLock hon hlock hgraceful hcalls =>
    obtain ⟨e, p, ⟨hlooks, hattempts, hf, hy⟩, hrun⟩ := coordinated_unlocked hlock
    have hcalls : r.Calls p.rechecks p.attempts := by rwa [hlooks, hattempts]
    have h := run_again_of_calls hturn hon hrun hgraceful hf hy hcalls
    rwa [hattempts] at h
  | afterRelease hon e hlock hfound hgraceful hcalls =>
    obtain ⟨value, hvalue⟩ := Option.ne_none_iff_exists'.mp hfound
    obtain ⟨p, ⟨hlooks, hattempts, hf, hy⟩, hrun⟩ := coordinated_found hlock hvalue
    have hcalls : r.Calls p.rechecks p.attempts := by rwa [hlooks, hattempts]
    have h := run_again_of_calls hturn hon hrun hgraceful hf hy hcalls
    rwa [hattempts] at h
  | afterRefusal hon release look hlock e hrefused hgraceful hcalls =>
    obtain ⟨p, ⟨hlooks, hattempts, hf, hy⟩, hrun⟩ := coordinated_locked hlock
    obtain ⟨e', he⟩ := released_error (V := V) release e
    rw [fetchAndPopulate_refused hattempts hrefused, he] at hrun
    have hone : p.attempted.attempts = 1 := congrArg (· + 1) hattempts
    rw [← hlooks, ← hone] at hcalls
    have h := run_again_of_calls (p := p.attempted) hturn hon hrun hgraceful hf hy hcalls
    rwa [hone] at h
  | underLock hon release look hlock hcalls honce =>
    obtain ⟨p, ⟨hlooks, hattempts, hf, hy⟩, hrun⟩ := coordinated_locked hlock
    rw [← hattempts] at hcalls
    obtain ⟨hf', hy', hattempts', hlooks'⟩ := fetchAndPopulate_of_calls hcalls
    rw [hattempts, hy, List.append_nil] at hy'
    rw [hf] at hf'
    have hdone : ∀ q : Progress E, q = (fetchAndPopulate r.scenario p).2 →
        q.fetches = 1 ∧ q.fetched = r.yields 0 := by
      rintro q rfl
      exact ⟨hf', hy'⟩
    cases hresult : Scenario.released release (fetchAndPopulate r.scenario p).1 with
    | ok value =>
      rw [hresult] at hrun
      exact hdone _ (run_over hturn hon hrun (.inl ⟨value, rfl⟩))
    | error e =>
      rw [hresult] at hrun
      rcases honce with ⟨rfl, value, now, hfetched⟩ | hg | hnot
      · simp [Scenario.released, fetchAndPopulate, scenario, hattempts, hfetched, Fetch.attempt,
          StoreOutcome.error] at hresult
      · exact hdone _ (run_over hturn hon hrun (.inr hg))
      · cases hg : r.gracefulDegradation with
        | false => exact hdone _ (run_over hturn hon hrun (.inr hg))
        | true =>
          rw [← hlooks, ← hlooks'] at hnot
          have hone : (fetchAndPopulate r.scenario p).2.attempts = 1 := by
            rw [hattempts', hattempts]
          rw [← hone] at hnot
          obtain ⟨hf'', hy''⟩ := fetchTask_of_not_calls hnot
          rw [run_again hturn hon hrun hg]
          exact ⟨hf''.trans hf', hy''.trans hy'⟩

end Refresh

end LayerCache
