import LayerCache.SingleFlight.FetchOnce

/-! # Hits and misses

A `get` counts a hit or a miss after its first read, and a hit each time it comes across a fresh
value when it looks again on its way to the fetcher: in the task behind the lock, or while it waits
for another instance. A background refresh looks again too.
-/

namespace LayerCache.Accounting

variable {V E : Type*}

structure Counts where
  hits : ℕ
  misses : ℕ
  staleHits : ℕ
  deriving DecidableEq

namespace Counts

def hit (m : Counts) : Counts := { m with hits := m.hits + 1 }

def miss (m : Counts) : Counts := { m with misses := m.misses + 1 }

def staleHit (m : Counts) : Counts := { m with staleHits := m.staleHits + 1 }

end Counts

/-- What a part of the way comes to, what has happened so far, and the counters. -/
abbrev Result (V E : Type*) := Except E V × Progress E × Counts

def fetchAndPopulate (env : Scenario V E) (p : Progress E) (m : Counts) : Result V E :=
  let (result, p) := LayerCache.fetchAndPopulate env p
  (result, p, m)

def fetchTask (env : Scenario V E) (p : Progress E) (m : Counts) : Result V E :=
  if env.initialMissConfirmed && env.singleFlightCoordinator then fetchAndPopulate env p m
  else
    match env.rechecks p.rechecks with
    | .error e => (.error e, p.rechecked, m)
    | .ok (some value) => (.ok value, p.rechecked, m.hit)
    | .ok none => fetchAndPopulate env p.rechecked m

def execute (env : Scenario V E) (worker waiter : Progress E → Counts → Result V E)
    (p : Progress E) (m : Counts) : Result V E :=
  match env.locks p.locks with
  | .failed e => (.error e, p.locked, m)
  | .held => waiter p.locked m
  | .acquired none => worker p.locked m
  | .acquired (some e) => (.error e, (worker p.locked m).2)

def waitForFreshValue (env : Scenario V E) :
    ℕ → List (Except E (Option V)) → Progress E → Counts → Result V E
  | retries, polls, p, m =>
    match poll polls, retries with
    | some (.ok value), _ => (.ok value, p, m.hit)
    | some (.error e), _ => (.error e, p, m)
    | none, 0 => (.error env.timedOut, p, m)
    | none, retries + 1 =>
      execute env (fetchAndPopulate env) (waitForFreshValue env retries []) p m

def singleFlightTask (env : Scenario V E) (p : Progress E) (m : Counts) : Result V E :=
  if env.singleFlightCoordinator then
    match execute env (fetchTask env) (waitForFreshValue env 1 env.polls) p m with
    | (.error e, p, m) => if env.gracefulDegradation then fetchTask env p m else (.error e, p, m)
    | (.ok value, p, m) => (.ok value, p, m)
  else fetchTask env p m

/-- How the stampede guard lets a get pass: it runs its task, and sees what it comes to or only that
it takes too long; or the task of another get is running already; or there are too many. Without
stampede prevention every get runs its task and sees what it comes to. -/
inductive Guard (V E : Type*)
  | leads
  | timesOut (e : E)
  | joins (result : Except E V)
  | refused (e : E)

structure Fetching (V E : Type*) where
  guard : Guard V E
  env : Scenario V E

inductive HitState | fresh | staleWhileRevalidate | staleIfError
  deriving DecidableEq

/-- A `get`: what its first read finds, unless it fails, and how fetching is going to turn out if
the get has a fetcher. `policyError` is an error of what is done after a fresh read. -/
structure Get (V E : Type*) where
  read : Except E (Option (HitState × V))
  policyError : Option E
  fetching : Option (Fetching V E)

def fetchWithGuards (fetching : Fetching V E) (initialMissConfirmed : Bool) (m : Counts) :
    Except E V × Counts :=
  let env := { fetching.env with initialMissConfirmed := initialMissConfirmed }
  match fetching.guard with
  | .leads =>
    let (result, _, m) := singleFlightTask env .start m
    (result, m)
  | .timesOut e =>
    let (_, _, m) := singleFlightTask env .start m
    (.error e, m)
  | .joins result => (result, m)
  | .refused e => (.error e, m)

def getPrepared (get : Get V E) (m : Counts) : Except E (Option V) × Counts :=
  match get.read with
  | .error e => (.error e, m)
  | .ok (some (.fresh, value)) =>
    match get.policyError with
    | none => (.ok (some value), m.hit)
    | some e => (.error e, m.hit)
  | .ok (some (.staleWhileRevalidate, value)) => (.ok (some value), m.hit.staleHit)
  | .ok (some (.staleIfError, value)) =>
    match get.fetching with
    | none => (.ok (some value), m.hit.staleHit)
    | some fetching =>
      match fetchWithGuards fetching false m with
      | (.ok fetched, m) => (.ok (some fetched), m)
      | (.error _, m) => (.ok (some value), m.staleHit)
  | .ok none =>
    match get.fetching with
    | none => (.ok none, m.miss)
    | some fetching =>
      match fetchWithGuards fetching true m.miss with
      | (.ok fetched, m) => (.ok (some fetched), m)
      | (.error e, m) => (.error e, m)

/-- What the readers of a stack do: gets, and refreshes in the background. -/
inductive Activity (V E : Type*)
  | get (get : Get V E)
  | refresh (fetching : Fetching V E)

def perform (m : Counts) : Activity V E → Counts
  | .get get => (getPrepared get m).2
  | .refresh fetching => (fetchWithGuards fetching false m).2

def gets : List (Activity V E) → ℕ
  | [] => 0
  | .get _ :: activities => gets activities + 1
  | .refresh _ :: activities => gets activities

/-- One get counts as one hit or one miss, and as a stale hit at most if it counts as a hit. -/
def CountsOnce (get : Get V E) : Prop :=
  ∀ m : Counts, (getPrepared get m).2.hits + (getPrepared get m).2.misses = m.hits + m.misses + 1 ∧
    (getPrepared get m).2.staleHits ≤ m.staleHits + 1 ∧
    (getPrepared get m).2.staleHits + m.hits ≤ m.staleHits + (getPrepared get m).2.hits

def Balanced (m : Counts) (gets : ℕ) : Prop := m.hits + m.misses = gets ∧ m.staleHits ≤ m.hits

namespace Counts

def addHits (m : Counts) (n : ℕ) : Counts := { m with hits := m.hits + n }

@[simp] theorem addHits_zero (m : Counts) : m.addHits 0 = m := rfl

@[simp] theorem addHits_addHits (m : Counts) (a b : ℕ) :
    (m.addHits a).addHits b = m.addHits (a + b) := by
  simp [addHits, Nat.add_assoc]

end Counts

def isFresh : Except E (Option V) → Bool
  | .ok (some _) => true
  | _ => false

def attemptFails : Attempt V E → Bool
  | .fetched _ none => false
  | _ => true

section

variable (env : Scenario V E)

/-- The run comes across a fresh value when it looks for the first time: in the task, if it is not
known that there is none, or as a waiter. -/
def findsFirst : Bool :=
  if env.singleFlightCoordinator then
    match env.locks 0 with
    | .failed _ => false
    | .held =>
      match poll env.polls with
      | some (.ok _) => true
      | _ => false
    | .acquired _ => !env.initialMissConfirmed && isFresh (env.rechecks 0)
  else isFresh (env.rechecks 0)

def workerFails : Bool :=
  if env.initialMissConfirmed then attemptFails (env.attempts 0)
  else
    match env.rechecks 0 with
    | .error _ => true
    | .ok (some _) => false
    | .ok none => attemptFails (env.attempts 0)

def breaks : Bool :=
  match env.locks 0 with
  | .failed _ => true
  | .acquired release => release.isSome || workerFails env
  | .held =>
    match poll env.polls with
    | some (.ok _) => false
    | some (.error _) => true
    | none =>
      match env.locks 1 with
      | .acquired none => attemptFails (env.attempts 0)
      | _ => true

def looked : ℕ :=
  match env.locks 0 with
  | .acquired _ => 1
  | _ => 0

/-- The task is started over without the coordinator, and comes across a fresh value then. -/
def findsAgain : Bool :=
  env.singleFlightCoordinator && env.gracefulDegradation && breaks env &&
    (!env.initialMissConfirmed && isFresh (env.rechecks (looked env)))

end

section

variable {env : Scenario V E} {p : Progress E} {m : Counts}

theorem counts_fetchTask (env : Scenario V E) (p : Progress E) (m : Counts) :
    (fetchTask env p m).2.2 = m.addHits
      (!(env.initialMissConfirmed && env.singleFlightCoordinator) &&
        isFresh (env.rechecks p.rechecks)).toNat := by
  unfold fetchTask
  cases env.initialMissConfirmed && env.singleFlightCoordinator with
  | true => rfl
  | false =>
    cases env.rechecks p.rechecks with
    | error e => rfl
    | ok found => cases found <;> rfl

theorem fetchAndPopulate_spec (env : Scenario V E) (p : Progress E) (m : Counts) :
    (fetchAndPopulate env p m).2.2 = m ∧
      (fetchAndPopulate env p m).1.isOk = !attemptFails (env.attempts p.attempts) ∧
      (fetchAndPopulate env p m).2.1.rechecks = p.rechecks := by
  unfold fetchAndPopulate LayerCache.fetchAndPopulate
  cases env.attempts p.attempts with
  | refused e => exact ⟨rfl, rfl, rfl⟩
  | rejected e => exact ⟨rfl, rfl, rfl⟩
  | fetched value storeError => cases storeError <;> exact ⟨rfl, rfl, rfl⟩

/-- What a coordinated run comes across, whether it fails, and how often its task has looked. -/
structure Coordinated (env : Scenario V E) (m : Counts) (run : Result V E) : Prop where
  counts : run.2.2 = m.addHits (findsFirst env).toNat
  isOk : run.1.isOk = !breaks env
  rechecks : env.initialMissConfirmed = false → run.2.1.rechecks = looked env

theorem coordinated_acquired (hc : env.singleFlightCoordinator = true) {release : Option E}
    (hlock : env.locks 0 = .acquired release) :
    (fetchTask env (Progress.start : Progress E).locked m).2.2 = m.addHits (findsFirst env).toNat ∧
      (fetchTask env (Progress.start : Progress E).locked m).1.isOk = !workerFails env ∧
      (env.initialMissConfirmed = false →
        (fetchTask env (Progress.start : Progress E).locked m).2.1.rechecks = 1) := by
  have hstart : (Progress.start : Progress E).locked.rechecks = 0 := rfl
  refine ⟨?_, ?_, ?_⟩
  · simp [counts_fetchTask, findsFirst, hc, hlock, hstart]
  · unfold fetchTask workerFails
    rw [hc, hstart]
    cases env.initialMissConfirmed with
    | true => exact (fetchAndPopulate_spec env _ m).2.1
    | false =>
      cases env.rechecks 0 with
      | error e => rfl
      | ok found =>
        cases found with
        | some value => rfl
        | none => exact (fetchAndPopulate_spec env _ m).2.1
  · intro hconfirmed
    unfold fetchTask
    rw [hconfirmed, hstart]
    cases env.rechecks 0 with
    | error e => rfl
    | ok found =>
      cases found with
      | some value => rfl
      | none => exact (fetchAndPopulate_spec env _ m).2.2

theorem coordinated_again (hc : env.singleFlightCoordinator = true) (hlock : env.locks 0 = .held)
    (hpoll : poll env.polls = none) :
    Coordinated env m
      (waitForFreshValue env 1 env.polls (Progress.start : Progress E).locked m) := by
  unfold waitForFreshValue
  rw [hpoll]
  have hfirst : findsFirst env = false := by simp [findsFirst, hc, hlock, hpoll]
  have hlooked : looked env = 0 := by simp [looked, hlock]
  obtain ⟨hcounts, hisOk, hrechecks⟩ :=
    fetchAndPopulate_spec env (Progress.start : Progress E).locked.locked m
  unfold execute
  cases hagain : env.locks (Progress.start : Progress E).locked.locks with
  | failed e =>
    have hagain : env.locks 1 = .failed e := hagain
    constructor
    case counts => simp [hfirst]
    case isOk => simp [breaks, hlock, hpoll, hagain, Except.isOk, Except.toBool]
    case rechecks => simp [hlooked, Progress.start, Progress.locked]
  | held =>
    have hagain : env.locks 1 = .held := hagain
    have hlate : ∀ p, waitForFreshValue env 0 [] p m = (.error env.timedOut, p, m) := fun _ => rfl
    constructor
    case counts => simp [hfirst, hlate]
    case isOk => simp [breaks, hlock, hpoll, hagain, hlate, Except.isOk, Except.toBool]
    case rechecks => simp [hlooked, hlate, Progress.start, Progress.locked]
  | acquired release =>
    have hagain : env.locks 1 = .acquired release := hagain
    cases release with
    | none =>
      constructor
      case counts => simpa [hfirst] using hcounts
      case isOk =>
        simp only [breaks, hlock, hpoll, hagain]
        exact hisOk
      case rechecks =>
        intro _
        rw [hlooked]
        exact hrechecks
    | some e =>
      constructor
      case counts => simpa [hfirst] using hcounts
      case isOk => simp [breaks, hlock, hpoll, hagain, Except.isOk, Except.toBool]
      case rechecks =>
        intro _
        rw [hlooked]
        exact hrechecks

theorem coordinated_held (hc : env.singleFlightCoordinator = true) (hlock : env.locks 0 = .held) :
    Coordinated env m
      (waitForFreshValue env 1 env.polls (Progress.start : Progress E).locked m) := by
  cases hpoll : poll env.polls with
  | none => exact coordinated_again hc hlock hpoll
  | some result =>
    unfold waitForFreshValue
    rw [hpoll]
    cases result with
    | ok value =>
      constructor
      case counts => simp [findsFirst, hc, hlock, hpoll, Counts.addHits, Counts.hit]
      case isOk => simp [breaks, hlock, hpoll, Except.isOk, Except.toBool]
      case rechecks => simp [looked, hlock, Progress.start, Progress.locked]
    | error e =>
      constructor
      case counts => simp [findsFirst, hc, hlock, hpoll]
      case isOk => simp [breaks, hlock, hpoll, Except.isOk, Except.toBool]
      case rechecks => simp [looked, hlock, Progress.start, Progress.locked]

theorem coordinated (hc : env.singleFlightCoordinator = true) :
    Coordinated env m
      (execute env (fetchTask env) (waitForFreshValue env 1 env.polls) .start m) := by
  unfold execute
  cases hlock : env.locks (Progress.start : Progress E).locks with
  | failed e =>
    have hlock : env.locks 0 = .failed e := hlock
    constructor
    case counts => simp [findsFirst, hc, hlock]
    case isOk => simp [breaks, hlock, Except.isOk, Except.toBool]
    case rechecks => simp [looked, hlock, Progress.start, Progress.locked]
  | held => exact coordinated_held hc hlock
  | acquired release =>
    have hlock : env.locks 0 = .acquired release := hlock
    obtain ⟨hcounts, hisOk, hrechecks⟩ := coordinated_acquired (m := m) hc hlock
    cases release with
    | none =>
      constructor
      case counts => exact hcounts
      case isOk => simpa [breaks, hlock] using hisOk
      case rechecks => simpa [looked, hlock] using hrechecks
    | some e =>
      constructor
      case counts => exact hcounts
      case isOk => simp [breaks, hlock, Except.isOk, Except.toBool]
      case rechecks => simpa [looked, hlock] using hrechecks

/-- A run counts a hit for each fresh value that it comes across. -/
theorem counts_singleFlightTask (env : Scenario V E) (m : Counts) :
    (singleFlightTask env .start m).2.2 =
      m.addHits ((findsFirst env).toNat + (findsAgain env).toNat) := by
  cases hc : env.singleFlightCoordinator with
  | false =>
    have hstart : (Progress.start : Progress E).rechecks = 0 := rfl
    simp [singleFlightTask, hc, counts_fetchTask, findsFirst, findsAgain, hstart]
  | true =>
    obtain ⟨hcounts, hisOk, hrechecks⟩ := coordinated (m := m) hc
    unfold singleFlightTask
    generalize execute env (fetchTask env) (waitForFreshValue env 1 env.polls) .start m = run at *
    obtain ⟨result, p, m'⟩ := run
    cases result with
    | ok value =>
      have hbreaks : breaks env = false := by simpa [Except.isOk, Except.toBool] using hisOk
      simpa [hc, findsAgain, hbreaks] using hcounts
    | error e =>
      have hbreaks : breaks env = true := by simpa [Except.isOk, Except.toBool] using hisOk
      cases hg : env.gracefulDegradation with
      | false => simpa [hc, hg, findsAgain] using hcounts
      | true =>
        have hcounts : m' = m.addHits (findsFirst env).toNat := hcounts
        have hagain : findsAgain env =
            (!env.initialMissConfirmed && isFresh (env.rechecks p.rechecks)) := by
          cases hconfirmed : env.initialMissConfirmed with
          | true => simp [findsAgain, hconfirmed]
          | false =>
            have hlooked : p.rechecks = looked env := hrechecks hconfirmed
            simp [findsAgain, hc, hg, hbreaks, hconfirmed, hlooked]
        simp [hc, counts_fetchTask, hcounts, hagain]

end

def erase (run : Result V E) : Except E V × Progress E := (run.1, run.2.1)

section

variable (env : Scenario V E)

theorem erase_fetchTask (p : Progress E) (m : Counts) :
    erase (fetchTask env p m) = LayerCache.fetchTask env p := by
  unfold fetchTask LayerCache.fetchTask
  cases env.initialMissConfirmed && env.singleFlightCoordinator with
  | true => rfl
  | false =>
    cases env.rechecks p.rechecks with
    | error e => rfl
    | ok found => cases found <;> rfl

theorem erase_execute {worker waiter : Progress E → Counts → Result V E}
    {worker' waiter' : Progress E → Except E V × Progress E}
    (hworker : ∀ p m, erase (worker p m) = worker' p)
    (hwaiter : ∀ p m, erase (waiter p m) = waiter' p) (p : Progress E) (m : Counts) :
    erase (execute env worker waiter p m) = LayerCache.execute env worker' waiter' p := by
  unfold execute LayerCache.execute
  cases env.locks p.locks with
  | failed e => rfl
  | held => exact hwaiter p.locked m
  | acquired release =>
    cases release with
    | none => exact hworker p.locked m
    | some e =>
      rw [← hworker p.locked m]
      rfl

theorem erase_waitForFreshValue (retries : ℕ) (polls : List (Except E (Option V)))
    (p : Progress E) (m : Counts) :
    erase (waitForFreshValue env retries polls p m) =
      LayerCache.waitForFreshValue env retries polls p := by
  induction retries generalizing polls p m with
  | zero =>
    unfold waitForFreshValue LayerCache.waitForFreshValue
    cases poll polls with
    | none => rfl
    | some result => cases result <;> rfl
  | succ retries ih =>
    unfold waitForFreshValue LayerCache.waitForFreshValue
    cases poll polls with
    | none => exact erase_execute env (fun _ _ => rfl) (ih []) p m
    | some result => cases result <;> rfl

theorem erase_singleFlightTask (p : Progress E) (m : Counts) :
    erase (singleFlightTask env p m) = LayerCache.singleFlightTask env p := by
  unfold singleFlightTask LayerCache.singleFlightTask
  cases env.singleFlightCoordinator with
  | false => exact erase_fetchTask env p m
  | true =>
    have hrun := erase_execute env (erase_fetchTask env)
      (erase_waitForFreshValue env 1 env.polls) p m
    rw [← hrun]
    generalize execute env (fetchTask env) (waitForFreshValue env 1 env.polls) p m = run
    obtain ⟨result, q, m'⟩ := run
    cases result with
    | ok value => rfl
    | error e =>
      cases env.gracefulDegradation with
      | false => rfl
      | true => exact erase_fetchTask env q m'

end

namespace Fetching

def runs (fetching : Fetching V E) : Bool :=
  match fetching.guard with
  | .leads | .timesOut _ => true
  | _ => false

def scenario (fetching : Fetching V E) (initialMissConfirmed : Bool) : Scenario V E :=
  { fetching.env with initialMissConfirmed := initialMissConfirmed }

def finds (fetching : Fetching V E) (initialMissConfirmed : Bool) : ℕ :=
  if fetching.runs then
    (findsFirst (fetching.scenario initialMissConfirmed)).toNat +
      (findsAgain (fetching.scenario initialMissConfirmed)).toNat
  else 0

end Fetching

/-- The first read of a get does not fail. After a miss it does not come across a fresh value on its
way to the fetcher, and after finding a value that it may only fall back on it runs its own task and
does come across one, once. A refresh does not come across a fresh value. -/
def Meets : Activity V E → Prop
  | .get get =>
    match get.read, get.fetching with
    | .error _, _ => False
    | .ok none, some fetching =>
      fetching.runs = true → findsFirst (fetching.scenario true) = false
    | .ok (some (.staleIfError, _)), some fetching =>
      fetching.runs = true ∧
        findsFirst (fetching.scenario false) ≠ findsAgain (fetching.scenario false)
    | _, _ => True
  | .refresh fetching =>
    fetching.runs = true → findsFirst (fetching.scenario false) = false ∧
      findsAgain (fetching.scenario false) = false

section

variable {m : Counts}

theorem counts_fetchWithGuards (fetching : Fetching V E) (initialMissConfirmed : Bool)
    (m : Counts) :
    (fetchWithGuards fetching initialMissConfirmed m).2 =
      m.addHits (fetching.finds initialMissConfirmed) := by
  have hrun := counts_singleFlightTask (fetching.scenario initialMissConfirmed) m
  unfold fetchWithGuards Fetching.finds Fetching.runs
  cases fetching.guard with
  | leads => exact hrun
  | timesOut e => exact hrun
  | joins result => rfl
  | refused e => rfl

theorem findsAgain_confirmed (fetching : Fetching V E) :
    findsAgain (fetching.scenario true) = false := by
  simp [findsAgain, Fetching.scenario]

theorem counts_after_miss (policyError : Option E) (fetching : Fetching V E) (m : Counts) :
    (getPrepared ⟨.ok none, policyError, some fetching⟩ m).2 =
      m.miss.addHits (fetching.finds true) := by
  rw [← counts_fetchWithGuards]
  cases hrun : fetchWithGuards fetching true m.miss with
  | mk result m' => cases result <;> simp [getPrepared, hrun]

theorem counts_staleIfError (value : V) (policyError : Option E) (fetching : Fetching V E)
    (m : Counts) : ∃ stale ≤ 1,
      (getPrepared ⟨.ok (some (.staleIfError, value)), policyError, some fetching⟩ m).2 =
        { m.addHits (fetching.finds false) with staleHits := m.staleHits + stale } := by
  have hcounts := counts_fetchWithGuards fetching false m
  cases hrun : fetchWithGuards fetching false m with
  | mk result m' =>
    rw [hrun] at hcounts
    obtain rfl : m' = m.addHits (fetching.finds false) := hcounts
    cases result with
    | ok fetched => exact ⟨0, Nat.zero_le 1, by simp [getPrepared, hrun, Counts.addHits]⟩
    | error e =>
      exact ⟨1, le_rfl, by simp [getPrepared, hrun, Counts.addHits, Counts.staleHit]⟩

/-- A get counts once if and only if it meets the condition. -/
theorem countsOnce_iff (get : Get V E) : CountsOnce get ↔ Meets (.get get) := by
  obtain ⟨read, policyError, fetching⟩ := get
  cases read with
  | error e =>
    refine iff_of_false (fun h => ?_) id
    have hzero := (h ⟨0, 0, 0⟩).1
    simp [getPrepared] at hzero
  | ok found =>
    cases found with
    | none =>
      cases fetching with
      | none =>
        refine iff_of_true (fun m => ?_) trivial
        simp only [getPrepared, Counts.miss]
        omega
      | some fetching =>
        have hfinds : fetching.finds true = 0 ↔
            (fetching.runs = true → findsFirst (fetching.scenario true) = false) := by
          unfold Fetching.finds
          rw [findsAgain_confirmed]
          cases fetching.runs <;> cases findsFirst (fetching.scenario true) <;> decide
        refine Iff.trans ?_ hfinds
        simp only [CountsOnce, counts_after_miss, Counts.addHits, Counts.miss]
        constructor
        · intro h
          have hzero := (h ⟨0, 0, 0⟩).1
          simp only at hzero
          omega
        · intro h m
          omega
    | some hit =>
      obtain ⟨state, value⟩ := hit
      cases state with
      | fresh =>
        refine iff_of_true (fun m => ?_) trivial
        cases policyError <;> simp only [getPrepared, Counts.hit] <;> omega
      | staleWhileRevalidate =>
        refine iff_of_true (fun m => ?_) trivial
        simp only [getPrepared, Counts.hit, Counts.staleHit]
        omega
      | staleIfError =>
        cases fetching with
        | none =>
          refine iff_of_true (fun m => ?_) trivial
          simp only [getPrepared, Counts.hit, Counts.staleHit]
          omega
        | some fetching =>
          have hfinds : fetching.finds false = 1 ↔ fetching.runs = true ∧
              findsFirst (fetching.scenario false) ≠ findsAgain (fetching.scenario false) := by
            unfold Fetching.finds
            cases fetching.runs <;> cases findsFirst (fetching.scenario false) <;>
              cases findsAgain (fetching.scenario false) <;> decide
          refine Iff.trans ?_ hfinds
          constructor
          · intro h
            obtain ⟨stale, _, hcounts⟩ :=
              counts_staleIfError value policyError fetching ⟨0, 0, 0⟩
            have hone := (h ⟨0, 0, 0⟩).1
            rw [hcounts] at hone
            simpa [Counts.addHits] using hone
          · intro h m
            obtain ⟨stale, hstale, hcounts⟩ := counts_staleIfError value policyError fetching m
            rw [hcounts, h]
            simp only [Counts.addHits]
            omega

/-- A refresh leaves the counters alone if and only if it meets the condition. -/
theorem perform_refresh_iff (fetching : Fetching V E) :
    (∀ m, perform m (.refresh fetching) = m) ↔ Meets (.refresh fetching) := by
  have hfinds : fetching.finds false = 0 ↔ (fetching.runs = true →
      findsFirst (fetching.scenario false) = false ∧
        findsAgain (fetching.scenario false) = false) := by
    unfold Fetching.finds
    cases fetching.runs <;> cases findsFirst (fetching.scenario false) <;>
      cases findsAgain (fetching.scenario false) <;> decide
  refine Iff.trans ?_ hfinds
  simp only [perform, counts_fetchWithGuards]
  constructor
  · intro h
    have hzero := congrArg Counts.hits (h ⟨0, 0, 0⟩)
    simpa [Counts.addHits] using hzero
  · intro h m
    rw [h, Counts.addHits_zero]

theorem perform_spec {n : ℕ} (h : Balanced m n) (activity : Activity V E) (ha : Meets activity) :
    Balanced (perform m activity) (n + gets [activity]) := by
  cases activity with
  | get get =>
    have hone := (countsOnce_iff get).mpr ha m
    obtain ⟨htotal, hstale⟩ := h
    simp only [Balanced, perform, gets]
    omega
  | refresh fetching =>
    rw [(perform_refresh_iff fetching).mpr ha m]
    exact h

theorem gets_cons (activity : Activity V E) (activities : List (Activity V E)) :
    gets (activity :: activities) = gets [activity] + gets activities := by
  cases activity <;> simp [gets, Nat.add_comm]

theorem balanced_foldl {activities : List (Activity V E)} {n : ℕ} (h : Balanced m n)
    (ha : ∀ activity ∈ activities, Meets activity) :
    Balanced (activities.foldl perform m) (n + gets activities) := by
  induction activities generalizing m n with
  | nil => exact h
  | cons activity activities ih =>
    rw [gets_cons, ← Nat.add_assoc]
    exact ih (perform_spec h activity (ha activity List.mem_cons_self))
      fun a hmem => ha a (List.mem_cons_of_mem _ hmem)

end

/-- Gets that meet the condition count once, and the totals of runs that meet it add up. -/
structure AccountsFor (V E : Type*) (meets : Activity V E → Prop) : Prop where
  once : ∀ get, meets (.get get) → CountsOnce get
  total : ∀ activities : List (Activity V E), (∀ activity ∈ activities, meets activity) →
    Balanced (activities.foldl perform ⟨0, 0, 0⟩) (gets activities)

/-- The condition is exact: a get that does not meet it does not count once, and a refresh that does
not meet it moves the counters. -/
structure AccountsIff (V E : Type*) (meets : Activity V E → Prop) : Prop
    extends AccountsFor V E meets where
  get_iff : ∀ get, CountsOnce get ↔ meets (.get get)
  refresh_iff : ∀ fetching, (∀ m, perform m (.refresh fetching) = m) ↔ meets (.refresh fetching)

theorem accountsIff_meets (V E : Type*) : AccountsIff V E Meets where
  once := fun get h => (countsOnce_iff get).mpr h
  total := fun activities h => by
    have hrun := balanced_foldl (m := ⟨0, 0, 0⟩) (n := 0) ⟨rfl, le_rfl⟩ h
    rwa [Nat.zero_add] at hrun
  get_iff := countsOnce_iff
  refresh_iff := perform_refresh_iff

/-- The fetcher fails, and there is a stale value to fall back on. -/
def fallenBack : Get ℕ ℕ where
  read := .ok (some (.staleIfError, 1))
  policyError := none
  fetching := some
    { guard := .leads
      env :=
        { singleFlightCoordinator := false
          gracefulDegradation := false
          initialMissConfirmed := false
          locks := fun _ => .held
          rechecks := fun _ => .ok none
          polls := []
          timedOut := 0
          attempts := fun _ => .rejected 5 } }

/-- The stale value that is served is a stale hit, and neither a hit nor a miss. -/
theorem fallenBack_not_hit : ¬AccountsFor ℕ ℕ (fun _ => True) := by
  intro h
  have htotal := (h.once fallenBack trivial ⟨0, 0, 0⟩).1
  have hnone : getPrepared fallenBack ⟨0, 0, 0⟩ = (.ok (some 1), ⟨0, 0, 1⟩) := rfl
  rw [hnone] at htotal
  cases htotal

end LayerCache.Accounting
