import Mathlib.Data.Nat.Basic
import Mathlib.Order.Basic

/-! # How often a get runs its fetcher

A `get` that has to fetch goes through the single-flight coordinator, if there is one: it
runs its task under the coordinator's lock, or it waits for the value of the instance
that has the lock. What the coordinator, the layers and the fetcher are going to answer
is given by a scenario, each answer by its turn; the functions here count the turns.
-/

namespace LayerCache

variable {V E : Type*}

/-- How one attempt to fetch ends. A breaker or a rate limiter may refuse it; the fetcher may
reject; and a fetched value may fail to be stored. -/
inductive Attempt (V E : Type*)
  | refused (e : E)
  | rejected (e : E)
  | fetched (value : V) (storeError : Option E)

/-- How a call of the coordinator turns out: it fails before it runs anything, it runs the worker
and then releases the lock, or it runs the waiter. -/
inductive Lock (E : Type*)
  | failed (e : E)
  | acquired (releaseError : Option E)
  | held

/-- `polls` are the reads that a waiter makes before its deadline. -/
structure Scenario (V E : Type*) where
  singleFlightCoordinator : Bool
  gracefulDegradation : Bool
  initialMissConfirmed : Bool
  locks : ℕ → Lock E
  rechecks : ℕ → Except E (Option V)
  polls : List (Except E (Option V))
  timedOut : E
  attempts : ℕ → Attempt V E

/-- What has happened so far. `fetched` lists the attempts that yielded a value, the last one
first. -/
structure Progress (E : Type*) where
  locks : ℕ
  rechecks : ℕ
  attempts : ℕ
  fetches : ℕ
  fetched : List ℕ
  rejections : List E

namespace Progress

def start : Progress E := ⟨0, 0, 0, 0, [], []⟩

def locked (p : Progress E) : Progress E := { p with locks := p.locks + 1 }

def rechecked (p : Progress E) : Progress E := { p with rechecks := p.rechecks + 1 }

def attempted (p : Progress E) : Progress E := { p with attempts := p.attempts + 1 }

def yielded (p : Progress E) : Progress E :=
  { p.attempted with fetches := p.fetches + 1, fetched := p.attempts :: p.fetched }

def rejected (p : Progress E) (e : E) : Progress E :=
  { p.attempted with fetches := p.fetches + 1, rejections := e :: p.rejections }

end Progress

/-- The fetcher's invocations are counted where `fetcher(fetcherContext)` stands. -/
def fetchAndPopulate (env : Scenario V E) (p : Progress E) : Except E V × Progress E :=
  match env.attempts p.attempts with
  | .refused e => (.error e, p.attempted)
  | .rejected e => (.error e, p.rejected e)
  | .fetched value none => (.ok value, p.yielded)
  | .fetched _ (some e) => (.error e, p.yielded)

/-- The task behind the lock looks for a fresh value first, except after a confirmed miss with a
coordinator. -/
def fetchTask (env : Scenario V E) (p : Progress E) : Except E V × Progress E :=
  if env.initialMissConfirmed && env.singleFlightCoordinator then fetchAndPopulate env p
  else
    match env.rechecks p.rechecks with
    | .error e => (.error e, p.rechecked)
    | .ok (some value) => (.ok value, p.rechecked)
    | .ok none => fetchAndPopulate env p.rechecked

/-- `CacheSingleFlightCoordinator.execute`. An error while the lock is released takes the place of
what the worker came to. -/
def execute (env : Scenario V E) (worker waiter : Progress E → Except E V × Progress E)
    (p : Progress E) : Except E V × Progress E :=
  match env.locks p.locks with
  | .failed e => (.error e, p.locked)
  | .held => waiter p.locked
  | .acquired none => worker p.locked
  | .acquired (some e) => (.error e, (worker p.locked).2)

/-- What a waiter comes to by polling, unless it runs into its deadline. -/
def poll : List (Except E (Option V)) → Option (Except E V)
  | [] => none
  | .error e :: _ => some (.error e)
  | .ok (some value) :: _ => some (.ok value)
  | .ok none :: polls => poll polls

/-- After its deadline a waiter tries for the lock once more; the second time it does not poll. -/
def waitForFreshValue (env : Scenario V E) :
    ℕ → List (Except E (Option V)) → Progress E → Except E V × Progress E
  | retries, polls, p =>
    match poll polls, retries with
    | some result, _ => (result, p)
    | none, 0 => (.error env.timedOut, p)
    | none, retries + 1 =>
      execute env (fetchAndPopulate env) (waitForFreshValue env retries []) p

/-- With graceful degradation any error of the coordinated run starts the task over without it. -/
def singleFlightTask (env : Scenario V E) (p : Progress E) : Except E V × Progress E :=
  if env.singleFlightCoordinator then
    match execute env (fetchTask env) (waitForFreshValue env 1 env.polls) p with
    | (.error e, p) => if env.gracefulDegradation then fetchTask env p else (.error e, p)
    | (.ok value, p) => (.ok value, p)
  else fetchTask env p

/-- What the caller gets to see: a stale value that it may fall back on hides an error. -/
def answerOr (stale : Option V) : Except E V → Except E V
  | .ok value => .ok value
  | .error e =>
    match stale with
    | some value => .ok value
    | none => .error e

/-- The caller's part in a `get` that fetches: the outcome and what has happened on the way. -/
def fetchWithGuards (env : Scenario V E) (stale : Option V) : Except E V × Progress E :=
  let (result, p) := singleFlightTask env .start
  (answerOr stale result, p)

/-- At most one invocation of the fetcher, and a rejection is what the caller gets to see. -/
def FetchesOnce (env : Scenario V E) (stale : Option V) : Prop :=
  (fetchWithGuards env stale).2.fetches ≤ 1 ∧
    ∀ e ∈ (fetchWithGuards env stale).2.rejections,
      (fetchWithGuards env stale).1 = answerOr stale (.error e)

namespace Scenario

/-- The attempt that is made under the lock, with what becomes of the lock. -/
inductive UnderLock (env : Scenario V E) : Attempt V E → Option E → Prop
  | worker (release : Option E) (hlock : env.locks 0 = .acquired release)
      (hrecheck : env.initialMissConfirmed = true ∨ env.rechecks 0 = .ok none) :
      UnderLock env (env.attempts 0) release
  | waiter (release : Option E) (hheld : env.locks 0 = .held) (hpoll : poll env.polls = none)
      (hlock : env.locks 1 = .acquired release) : UnderLock env (env.attempts 0) release

/-- The second look that the task takes when it is started over, if it takes one. -/
def secondLook (env : Scenario V E) : Except E (Option V) :=
  if env.initialMissConfirmed then .ok none
  else if env.locks 0 matches .held then env.rechecks 0 else env.rechecks 1

/-- What the task comes to when it is started over, unless it runs the fetcher once more. -/
def withoutFetch (env : Scenario V E) : Option (Except E V) :=
  match env.secondLook, env.attempts 1 with
  | .error e, _ => some (.error e)
  | .ok (some value), _ => some (.ok value)
  | .ok none, .refused e => some (.error e)
  | .ok none, _ => none

/-- The fetcher has run under the lock, and the coordinated run still does no harm: nothing failed;
or nothing is started over, and the caller does not see another error in place of the fetcher's; or
starting over does not fetch again, and does not hide the fetcher's error. -/
def Harmless (env : Scenario V E) (stale : Option V) : Attempt V E → Option E → Prop
  | .refused _, _ => True
  | .fetched _ none, none => True
  | .fetched _ _, _ => env.gracefulDegradation = true → env.withoutFetch.isSome = true
  | .rejected e, release =>
    if env.gracefulDegradation then
      ∃ result ∈ env.withoutFetch, answerOr stale result = answerOr stale (.error e)
    else ∀ e' ∈ release, answerOr stale (.error e') = (answerOr stale (.error e) : Except E V)

end Scenario

namespace Progress

def Untried (p : Progress E) : Prop := p.attempts = 0 ∧ p.fetches = 0 ∧ p.rejections = []

@[simp] theorem fetches_attempted (p : Progress E) : p.attempted.fetches = p.fetches := rfl

@[simp] theorem rejections_attempted (p : Progress E) : p.attempted.rejections = p.rejections := rfl

@[simp] theorem fetches_yielded (p : Progress E) : p.yielded.fetches = p.fetches + 1 := rfl

@[simp] theorem rejections_yielded (p : Progress E) : p.yielded.rejections = p.rejections := rfl

@[simp] theorem fetches_rejected (p : Progress E) (e : E) :
    (p.rejected e).fetches = p.fetches + 1 := rfl

@[simp] theorem rejections_rejected (p : Progress E) (e : E) :
    (p.rejected e).rejections = e :: p.rejections := rfl

theorem untried_start : (start : Progress E).Untried := ⟨rfl, rfl, rfl⟩

theorem Untried.locked {p : Progress E} (h : p.Untried) : p.locked.Untried := h

theorem Untried.rechecked {p : Progress E} (h : p.Untried) : p.rechecked.Untried := h

end Progress

section

variable {env : Scenario V E} {stale : Option V} {p : Progress E} {a : Attempt V E}
  {release : Option E}

/-- One attempt calls the fetcher at most once, and passes its rejection on. -/
theorem fetchAndPopulate_once (hf : p.fetches = 0) (hr : p.rejections = []) :
    (fetchAndPopulate env p).2.fetches ≤ 1 ∧
      ∀ e ∈ (fetchAndPopulate env p).2.rejections, (fetchAndPopulate env p).1 = .error e := by
  unfold fetchAndPopulate
  cases env.attempts p.attempts with
  | refused e => simp [hf, hr]
  | rejected e => simp [hf, hr]
  | fetched value storeError =>
    cases storeError <;> simp [hf, hr]

theorem fetchTask_once (hf : p.fetches = 0) (hr : p.rejections = []) :
    (fetchTask env p).2.fetches ≤ 1 ∧
      ∀ e ∈ (fetchTask env p).2.rejections, (fetchTask env p).1 = .error e := by
  unfold fetchTask
  split
  · exact fetchAndPopulate_once hf hr
  · cases env.rechecks p.rechecks with
    | error e => simp [Progress.rechecked, hf, hr]
    | ok found =>
      cases found with
      | some value => simp [Progress.rechecked, hf, hr]
      | none => exact fetchAndPopulate_once (p := p.rechecked) hf hr

/-- A run that comes down to the task by itself fetches once. -/
theorem fetchesOnce_of_fetchTask (hf : p.fetches = 0) (hr : p.rejections = [])
    (heq : singleFlightTask env .start = fetchTask env p) : FetchesOnce env stale := by
  obtain ⟨hle, hrejected⟩ : (fetchTask env p).2.fetches ≤ 1 ∧
      ∀ e ∈ (fetchTask env p).2.rejections, (fetchTask env p).1 = .error e := fetchTask_once hf hr
  unfold FetchesOnce fetchWithGuards
  rw [heq]
  exact ⟨hle, fun e he => congrArg (answerOr stale) (hrejected e he)⟩

namespace Scenario

theorem UnderLock.unique (h : env.UnderLock a release) {a' : Attempt V E} {release' : Option E}
    (h' : env.UnderLock a' release') : a' = a ∧ release' = release := by
  cases h <;> cases h' <;> simp_all

theorem UnderLock.attempt (h : env.UnderLock a release) : env.attempts 0 = a := by
  cases h <;> rfl

/-- The reads that the task has made when it is started over. -/
def looks (env : Scenario V E) : ℕ :=
  if env.initialMissConfirmed then 0 else if env.locks 0 matches .held then 0 else 1

/-- What the worker came to, unless the release of the lock fails. -/
def released (release : Option E) (result : Except E V) : Except E V :=
  match release with
  | none => result
  | some e => .error e

/-- The coordinated run has not tried the fetcher, or has made one attempt under the lock. -/
inductive Coordinated (env : Scenario V E) : Except E V × Progress E → Prop
  | untried (result : Except E V) (p : Progress E) (hp : p.Untried)
      (hnone : ∀ a release, ¬env.UnderLock a release) : Coordinated env (result, p)
  | tried (a : Attempt V E) (release : Option E) (p : Progress E) (hp : p.Untried)
      (hlooks : p.rechecks = env.looks) (hlock : env.UnderLock a release) :
      Coordinated env (released release (fetchAndPopulate env p).1, (fetchAndPopulate env p).2)

theorem secondLook_eq (env : Scenario V E) : env.secondLook =
    if env.initialMissConfirmed then .ok none else env.rechecks env.looks := by
  unfold secondLook looks
  split
  · rfl
  · split <;> rfl

theorem coordinated_acquired (hc : env.singleFlightCoordinator = true)
    (hlock : env.locks 0 = .acquired release) (p : Progress E) (hp : p.Untried)
    (hlooks : p.rechecks = 0) :
    env.Coordinated (released release (fetchTask env p).1, (fetchTask env p).2) := by
  have hnone : ¬(env.initialMissConfirmed = true ∨ env.rechecks 0 = .ok none) →
      ∀ a release, ¬env.UnderLock a release := by
    rintro h a release (⟨_, _, hrecheck⟩ | ⟨_, hheld⟩)
    · exact h hrecheck
    · simp [hlock] at hheld
  unfold fetchTask
  split
  next hconfirmed =>
    have hconfirmed : env.initialMissConfirmed = true := by simp_all
    exact .tried _ release p hp (by simp [looks, hconfirmed, hlooks])
      (.worker release hlock (.inl hconfirmed))
  next hconfirmed =>
    have hconfirmed : env.initialMissConfirmed = false := by simp_all
    rw [hlooks]
    cases hr : env.rechecks 0 with
    | error e => exact .untried _ _ hp.rechecked (hnone (by simp [hconfirmed, hr]))
    | ok found =>
      cases found with
      | some value => exact .untried _ _ hp.rechecked (hnone (by simp [hconfirmed, hr]))
      | none =>
        have hone : p.rechecked.rechecks = env.looks := by
          simp [looks, hconfirmed, hlock, Progress.rechecked, hlooks]
        exact .tried _ release p.rechecked hp.rechecked hone (.worker release hlock (.inr hr))

theorem coordinated_held (hheld : env.locks 0 = .held) (p : Progress E) (hp : p.Untried)
    (hlocks : p.locks = 1) (hlooks : p.rechecks = 0) :
    env.Coordinated (waitForFreshValue env 1 env.polls p) := by
  have hnone : (∀ release, ¬(poll env.polls = none ∧ env.locks 1 = .acquired release)) →
      ∀ a release, ¬env.UnderLock a release := by
    rintro h a release (⟨_, hlock⟩ | ⟨_, _, hpoll, hlock⟩)
    · simp [hheld] at hlock
    · exact h release ⟨hpoll, hlock⟩
  unfold waitForFreshValue
  cases hpoll : poll env.polls with
  | some result => exact .untried _ _ hp (hnone (by simp [hpoll]))
  | none =>
    unfold execute
    rw [hlocks]
    cases hlock : env.locks 1 with
    | failed e => exact .untried _ _ hp.locked (hnone (by simp [hlock]))
    | held =>
      exact .untried _ _ hp.locked.locked (hnone (by simp [hlock]))
    | acquired release =>
      have htried := Coordinated.tried (env.attempts 0) release p.locked hp.locked
        (by simp [looks, hheld, Progress.locked, hlooks]) (.waiter release hheld hpoll hlock)
      cases release <;> exact htried

theorem coordinated (hc : env.singleFlightCoordinator = true) :
    env.Coordinated (execute env (fetchTask env) (waitForFreshValue env 1 env.polls) .start) := by
  have hstart : (Progress.start : Progress E).locks = 0 := rfl
  unfold execute
  rw [hstart]
  cases hlock : env.locks 0 with
  | failed e =>
    have hnone : ∀ a release, ¬env.UnderLock a release := by
      rintro a release (⟨_, h⟩ | ⟨_, h⟩) <;> simp [hlock] at h
    exact .untried _ _ Progress.untried_start.locked hnone
  | held => exact coordinated_held hlock _ Progress.untried_start.locked rfl rfl
  | acquired release =>
    have h := coordinated_acquired hc hlock _ Progress.untried_start.locked rfl
    cases release <;> exact h

end Scenario

/-- Started over after an attempt, the task comes to what is said here or calls the fetcher once
more. -/
theorem fetchTask_again (hc : env.singleFlightCoordinator = true) (hlooks : p.rechecks = env.looks)
    (hattempts : p.attempts = 1) :
    match env.withoutFetch with
    | some result => (fetchTask env p).1 = result ∧ (fetchTask env p).2.fetches = p.fetches ∧
        (fetchTask env p).2.rejections = p.rejections
    | none => (fetchTask env p).2.fetches = p.fetches + 1 := by
  have hattempt : ∀ q : Progress E, q.attempts = 1 → q.fetches = p.fetches →
      q.rejections = p.rejections →
      match env.attempts 1 with
      | .refused e => (fetchAndPopulate env q).1 = .error e ∧
          (fetchAndPopulate env q).2.fetches = p.fetches ∧
          (fetchAndPopulate env q).2.rejections = p.rejections
      | _ => (fetchAndPopulate env q).2.fetches = p.fetches + 1 := by
    intro q hq hf hr
    unfold fetchAndPopulate
    rw [hq]
    cases env.attempts 1 with
    | refused e => exact ⟨rfl, hf, hr⟩
    | rejected e => simp [hf]
    | fetched value storeError =>
      cases storeError <;> simp [hf]
  unfold fetchTask Scenario.withoutFetch
  rw [Scenario.secondLook_eq, hc, Bool.and_true, ← hlooks]
  cases env.initialMissConfirmed with
  | true =>
    have h := hattempt p hattempts rfl rfl
    cases ha : env.attempts 1 <;> simpa [ha] using h
  | false =>
    have h := hattempt p.rechecked hattempts rfl rfl
    cases env.rechecks p.rechecks with
    | error e => exact ⟨rfl, rfl, rfl⟩
    | ok found =>
      cases found with
      | some value => exact ⟨rfl, rfl, rfl⟩
      | none => cases ha : env.attempts 1 <;> simpa [ha] using h

/-- One attempt under the lock, after which the run is over or the task is started over. -/
theorem singleFlightTask_tried (hc : env.singleFlightCoordinator = true) (hp : p.Untried)
    (hlooks : p.rechecks = env.looks) (ha : env.attempts 0 = a)
    (hexecute : execute env (fetchTask env) (waitForFreshValue env 1 env.polls) .start =
      (Scenario.released release (fetchAndPopulate env p).1, (fetchAndPopulate env p).2)) :
    FetchesOnce env stale ↔ env.Harmless stale a release := by
  obtain ⟨hattempts, hf, hr⟩ := hp
  have hover : env.gracefulDegradation = false →
      singleFlightTask env .start =
        (Scenario.released release (fetchAndPopulate env p).1, (fetchAndPopulate env p).2) := by
    intro hg
    unfold singleFlightTask
    rw [hexecute]
    cases Scenario.released release (fetchAndPopulate env p).1 <;> simp [hc, hg]
  have hagain : ∀ e, Scenario.released release (fetchAndPopulate env p).1 = .error e →
      env.gracefulDegradation = true →
      singleFlightTask env .start = fetchTask env (fetchAndPopulate env p).2 := by
    intro e he hg
    simp [singleFlightTask, hc, hexecute, he, hg]
  cases a with
  | refused e =>
    have hrun : fetchAndPopulate env p = (.error e, p.attempted) := by
      simp [fetchAndPopulate, hattempts, ha]
    rw [hrun] at hover hagain
    refine iff_of_true ?_ trivial
    cases hg : env.gracefulDegradation with
    | false =>
      unfold FetchesOnce fetchWithGuards
      simp [hover hg, hf, hr]
    | true =>
      apply fetchesOnce_of_fetchTask (p := p.attempted) hf hr
      cases release with
      | none => exact hagain e rfl hg
      | some e' => exact hagain e' rfl hg
  | rejected e =>
    have hrun : fetchAndPopulate env p = (.error e, p.rejected e) := by
      simp [fetchAndPopulate, hattempts, ha]
    rw [hrun] at hover hagain
    cases hg : env.gracefulDegradation with
    | false =>
      unfold FetchesOnce fetchWithGuards Scenario.Harmless
      rw [hover hg]
      cases release <;>
        simp [Scenario.released, hf, hr, hg]
    | true =>
      have htask := fetchTask_again (p := p.rejected e) hc hlooks (congrArg (· + 1) hattempts)
      have hrun : singleFlightTask env .start = fetchTask env (p.rejected e) := by
        cases release with
        | none => exact hagain e rfl hg
        | some e' => exact hagain e' rfl hg
      unfold FetchesOnce fetchWithGuards Scenario.Harmless
      rw [hrun]
      cases hw : env.withoutFetch with
      | none =>
        rw [hw] at htask
        simp [htask, hg]
      | some result =>
        rw [hw] at htask
        simp [htask, hg, hf, hr]
  | fetched value storeError =>
    have hrun : fetchAndPopulate env p =
        (match storeError with | none => .ok value | some e => .error e, p.yielded) := by
      cases storeError <;> simp [fetchAndPopulate, hattempts, ha]
    rw [hrun] at hover hagain hexecute
    by_cases hok : storeError = none ∧ release = none
    · obtain ⟨rfl, rfl⟩ := hok
      refine iff_of_true ?_ trivial
      unfold FetchesOnce fetchWithGuards singleFlightTask
      simp [hc, hexecute, Scenario.released, hf, hr]
    · have hharmless : env.Harmless stale (.fetched value storeError) release ↔
          (env.gracefulDegradation = true → env.withoutFetch.isSome = true) := by
        cases storeError <;> cases release <;> first | rfl | simp at hok
      rw [hharmless]
      cases hg : env.gracefulDegradation with
      | false =>
        simp only [Bool.false_eq_true, false_implies, iff_true]
        unfold FetchesOnce fetchWithGuards
        simp [hover hg, hf, hr]
      | true =>
        have htask := fetchTask_again (p := p.yielded) hc hlooks (congrArg (· + 1) hattempts)
        have hrun : singleFlightTask env .start = fetchTask env p.yielded := by
          cases release with
          | some e => exact hagain e rfl hg
          | none =>
            cases storeError with
            | some e => exact hagain e rfl hg
            | none => simp at hok
        unfold FetchesOnce fetchWithGuards
        rw [hrun]
        cases hw : env.withoutFetch with
        | none =>
          rw [hw] at htask
          simp [htask, hf]
        | some result =>
          rw [hw] at htask
          simp [htask, hf, hr]

/-- A get calls its fetcher at most once, and passes its rejection on, if and only if the run under
the coordinator's lock is harmless whenever it has tried the fetcher. -/
theorem fetchesOnce_iff (env : Scenario V E) (stale : Option V) :
    FetchesOnce env stale ↔ (env.singleFlightCoordinator = true →
      ∀ a release, env.UnderLock a release → env.Harmless stale a release) := by
  cases hc : env.singleFlightCoordinator with
  | false =>
    simp only [Bool.false_eq_true, false_implies, iff_true]
    exact fetchesOnce_of_fetchTask (p := .start) rfl rfl (by simp [singleFlightTask, hc])
  | true =>
    simp only [true_implies]
    have hrun := Scenario.coordinated hc
    generalize hexecute :
      execute env (fetchTask env) (waitForFreshValue env 1 env.polls) .start = run at hrun
    cases hrun with
    | untried result q hq hnone =>
      refine iff_of_true ?_ (fun a release h => (hnone a release h).elim)
      cases result with
      | ok value =>
        unfold FetchesOnce fetchWithGuards singleFlightTask
        simp [hc, hexecute, hq.2.1, hq.2.2]
      | error e =>
        cases hg : env.gracefulDegradation with
        | true =>
          exact fetchesOnce_of_fetchTask hq.2.1 hq.2.2
            (by simp [singleFlightTask, hc, hexecute, hg])
        | false =>
          unfold FetchesOnce fetchWithGuards singleFlightTask
          simp [hc, hexecute, hg, hq.2.1, hq.2.2]
    | tried a release q hq hlooks hlock =>
      rw [singleFlightTask_tried hc hq hlooks hlock.attempt hexecute]
      constructor
      · intro h a' release' hlock'
        obtain ⟨rfl, rfl⟩ := hlock.unique hlock'
        exact h
      · intro h
        exact h a release hlock

end

/-- The lock works, the first attempt to fetch fails and the second one would not. -/
def rejectedOnce : Scenario ℕ ℕ where
  singleFlightCoordinator := true
  gracefulDegradation := true
  initialMissConfirmed := true
  locks := fun _ => .acquired none
  rechecks := fun _ => .ok none
  polls := []
  timedOut := 0
  attempts := fun n => if n = 0 then .rejected 5 else .fetched 7 none

theorem rejected_fetcher_retried : ¬FetchesOnce rejectedOnce none := by
  intro h
  have htwice : (fetchWithGuards rejectedOnce none).2.fetches = 2 := by decide
  have hle := h.1
  omega

end LayerCache
