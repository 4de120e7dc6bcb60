import LayerCache.Expiry.TtlResolver
import LayerCache.SingleFlight.FetchOnce
import Mathlib.Algebra.Order.Floor.Ring
import Mathlib.Data.Rat.Floor
import Mathlib.Tactic.Linarith

/-! # How long a get waits for another instance

A waiter polls the layers until its deadline and sleeps in between, longer each time. The
clock is advanced by every sleep and by whatever else takes time, so that here the polls that
a scenario only lists are made one after another. The loop of the waiter is given a number
of turns; it ends if it comes to the same with every larger one.
-/

namespace LayerCache.Timed

variable {V E : Type*}

/-- `drift n` is what the clock gains before its `n`-th reading, sleeps apart, and `observed n` is
what the `n`-th poll finds. -/
structure Timing (V E : Type*) where
  singleFlightTimeoutMs : Option Millis
  singleFlightPollMs : Option Millis
  validTimeout : Ttl.validatePositiveNumber singleFlightTimeoutMs = true
  validPoll : Ttl.validatePositiveNumber singleFlightPollMs = true
  now : Millis
  drift : ℕ → {ms : Millis // 0 ≤ ms}
  random : ℕ → {r : ℚ // 0 ≤ r ∧ r < 1}
  observed : ℕ → Except E (Option V)

/-- The clock, and what a get has done while it waited: when it started each poll, how long it
slept, and until when each of its waiters was to wait, the last one first. -/
structure Waiting where
  now : Millis
  readings : ℕ
  polls : List Millis
  sleeps : List Millis
  deadlines : List Millis

namespace Timing

def timeoutMs (t : Timing V E) : Millis := t.singleFlightTimeoutMs.getD 5000

def pollIntervalMs (t : Timing V E) : Millis := t.singleFlightPollMs.getD 50

/-- `Date.now()`. -/
def read (t : Timing V E) (w : Waiting) : Waiting :=
  { w with now := w.now + t.drift w.readings, readings := w.readings + 1 }

def start (t : Timing V E) : Waiting := ⟨t.now, 0, [], [], []⟩

def deadline (t : Timing V E) : Millis := (t.read t.start).now + t.timeoutMs

end Timing

namespace Waiting

def polled (w : Waiting) : Waiting := { w with polls := w.now :: w.polls }

def slept (w : Waiting) (ms : Millis) : Waiting :=
  { w with now := w.now + ms, sleeps := ms :: w.sleeps }

def begun (w : Waiting) (deadline : Millis) : Waiting :=
  { w with deadlines := deadline :: w.deadlines }

end Waiting

/-- `Math.round`. -/
def round (x : ℚ) : ℤ := ⌊x + 1 / 2⌋

def jitterSingleFlightPoll (random : ℚ) (delayMs : Millis) : Millis :=
  let jitterRange := delayMs * (1 / 5)
  max 1 (round (delayMs - jitterRange + random * jitterRange * 2))

/-- The loop of a waiter. It ends with what a poll has come to, or with nothing; `none` stands for
turns that do not suffice. -/
def pollLoop (t : Timing V E) (operationDeadline : Millis) :
    ℕ → Millis → Waiting → Option (Option (Except E V) × Waiting)
  | 0, _, _ => none
  | turns + 1, nextPollMs, w =>
    let w := t.read w
    if w.now < operationDeadline then
      let polled := w.polled
      match t.observed w.polls.length with
      | .error e => some (some (.error e), polled)
      | .ok (some value) => some (some (.ok value), polled)
      | .ok none =>
        let w := t.read polled
        let remainingMs := operationDeadline - w.now
        if remainingMs ≤ 0 then some (none, w)
        else
          let delayMs :=
            min (jitterSingleFlightPoll (t.random w.sleeps.length) nextPollMs) remainingMs
          pollLoop t operationDeadline turns (min (min (nextPollMs * 2) 1000) t.timeoutMs)
            (w.slept delayMs)
    else some (none, w)

/-- `CacheSingleFlightCoordinator.execute` with a waiter that takes its time. -/
def execute (env : Scenario V E) (worker : Progress E → Except E V × Progress E)
    (waiter : Progress E → Waiting → Option (Except E V × Progress E × Waiting))
    (p : Progress E) (w : Waiting) : Option (Except E V × Progress E × Waiting) :=
  match env.locks p.locks with
  | .held => waiter p.locked w
  | _ =>
    let (result, p) := LayerCache.execute env worker worker p
    some (result, p, w)

def waitForFreshValue (env : Scenario V E) (t : Timing V E) :
    ℕ → Option Millis → ℕ → Progress E → Waiting → Option (Except E V × Progress E × Waiting)
  | 0, _, _, _, _ => none
  | turns + 1, deadline, coordinatorRetries, p, w =>
    let (operationDeadline, w) :=
      match deadline with
      | some deadline => (deadline, w)
      | none => ((t.read w).now + t.timeoutMs, t.read w)
    match pollLoop t operationDeadline (turns + 1) t.pollIntervalMs (w.begun operationDeadline) with
    | none => none
    | some (some result, w) => some (result, p, w)
    | some (none, w) =>
      if !env.singleFlightCoordinator || coordinatorRetries ≥ 1 then
        some (.error env.timedOut, p, w)
      else
        execute env (fetchAndPopulate env)
          (waitForFreshValue env t turns (some operationDeadline) (coordinatorRetries + 1)) p w

def singleFlightTask (env : Scenario V E) (t : Timing V E) (turns : ℕ) :
    Option (Except E V × Progress E × Waiting) :=
  if env.singleFlightCoordinator then
    match execute env (fetchTask env) (waitForFreshValue env t turns none 0) .start t.start with
    | none => none
    | some (.error e, p, w) =>
      if env.gracefulDegradation then
        let (result, p) := fetchTask env p
        some (result, p, w)
      else some (.error e, p, w)
    | some (.ok value, p, w) => some (.ok value, p, w)
  else
    let (result, p) := fetchTask env .start
    some (result, p, t.start)

/-- A `get` that fetches, with what its caller gets to see. -/
def fetchWithGuards (env : Scenario V E) (t : Timing V E) (stale : Option V) (turns : ℕ) :
    Option (Except E V × Progress E × Waiting) :=
  (singleFlightTask env t turns).map fun (result, p, w) => (answerOr stale result, p, w)

namespace Timing

theorem le_read (t : Timing V E) (w : Waiting) : w.now ≤ (t.read w).now :=
  le_add_of_nonneg_right (t.drift w.readings).2

@[simp] theorem polls_read (t : Timing V E) (w : Waiting) : (t.read w).polls = w.polls := rfl

@[simp] theorem sleeps_read (t : Timing V E) (w : Waiting) : (t.read w).sleeps = w.sleeps := rfl

@[simp] theorem deadlines_read (t : Timing V E) (w : Waiting) :
    (t.read w).deadlines = w.deadlines := rfl

/-- What the polls from the `a`-th to before the `b`-th have found. -/
def seen (t : Timing V E) (a b : ℕ) : List (Except E (Option V)) :=
  (List.range' a (b - a)).map t.observed

theorem seen_self (t : Timing V E) (a : ℕ) : t.seen a a = [] := by simp [seen]

theorem seen_of_lt (t : Timing V E) {a b : ℕ} (h : a < b) :
    t.seen a b = t.observed a :: t.seen (a + 1) b := by
  obtain ⟨n, rfl⟩ : ∃ n, b = a + n + 1 := ⟨b - a - 1, by omega⟩
  have hlength : a + n + 1 - a = n + 1 := by omega
  have hrest : a + n + 1 - (a + 1) = n := by omega
  unfold seen
  rw [hlength, hrest, List.range'_succ, List.map_cons]

end Timing

theorem one_le_jitterSingleFlightPoll (random : ℚ) (delayMs : Millis) :
    1 ≤ jitterSingleFlightPoll random delayMs := le_max_left _ _

/-- What the loop does to the state of the waiter, and what it comes to. -/
structure Polled (t : Timing V E) (operationDeadline : Millis) (w : Waiting)
    (result : Option (Except E V)) (w' : Waiting) : Prop where
  polls : ∀ started ∈ w'.polls, started ∈ w.polls ∨ started < operationDeadline
  sleeps : ∀ ms ∈ w'.sleeps, ms ∈ w.sleeps ∨ 0 < ms
  deadlines : w'.deadlines = w.deadlines
  length_le : w.polls.length ≤ w'.polls.length
  result_eq : result = poll (t.seen w.polls.length w'.polls.length)
  nothing : ∀ k, w.polls.length ≤ k → k + 1 < w'.polls.length → t.observed k = .ok none
  passed : result = none → operationDeadline ≤ w'.now

section

variable {t : Timing V E} {operationDeadline nextPollMs : Millis} {turns : ℕ} {w : Waiting}

theorem pollLoop_late (h : operationDeadline ≤ (t.read w).now) :
    pollLoop t operationDeadline (turns + 1) nextPollMs w = some (none, t.read w) := by
  simp [pollLoop, not_lt.mpr h]

theorem pollLoop_found (h : (t.read w).now < operationDeadline) {result : Except E V}
    (hfound : poll [t.observed w.polls.length] = some result) :
    pollLoop t operationDeadline (turns + 1) nextPollMs w =
      some (some result, (t.read w).polled) := by
  simp only [pollLoop, if_pos h, Timing.polls_read]
  cases hobserved : t.observed w.polls.length with
  | error e => simpa [poll, hobserved] using hfound
  | ok found =>
    cases found with
    | some value => simpa [poll, hobserved] using hfound
    | none => simp [poll, hobserved] at hfound

theorem pollLoop_nothing (h : (t.read w).now < operationDeadline)
    (hobserved : t.observed w.polls.length = .ok none) :
    pollLoop t operationDeadline (turns + 1) nextPollMs w =
      let next := t.read (t.read w).polled
      if operationDeadline - next.now ≤ 0 then some (none, next)
      else
        pollLoop t operationDeadline turns (min (min (nextPollMs * 2) 1000) t.timeoutMs)
          (next.slept (min (jitterSingleFlightPoll (t.random next.sleeps.length) nextPollMs)
            (operationDeadline - next.now))) := by
  simp only [pollLoop, if_pos h, Timing.polls_read, hobserved]

theorem Polled.cons {result : Option (Except E V)} {next w' : Waiting}
    (h : (t.read w).now < operationDeadline) (hobserved : t.observed w.polls.length = .ok none)
    (hpolls : next.polls = (t.read w).polled.polls)
    (hsleeps : ∀ ms ∈ next.sleeps, ms ∈ w.sleeps ∨ 0 < ms)
    (hdeadlines : next.deadlines = w.deadlines)
    (hrest : Polled t operationDeadline next result w') :
    Polled t operationDeadline w result w' := by
  have hlength : next.polls.length = w.polls.length + 1 := by rw [hpolls]; rfl
  have hle : w.polls.length + 1 ≤ w'.polls.length := hlength ▸ hrest.length_le
  constructor
  case polls =>
    intro started hstarted
    rcases hrest.polls started hstarted with hbefore | hbefore
    · rw [hpolls] at hbefore
      rcases List.mem_cons.mp hbefore with rfl | hbefore
      · exact .inr h
      · exact .inl hbefore
    · exact .inr hbefore
  case sleeps =>
    intro ms hms
    rcases hrest.sleeps ms hms with hbefore | hpos
    · exact hsleeps ms hbefore
    · exact .inr hpos
  case deadlines => exact hrest.deadlines.trans hdeadlines
  case length_le => omega
  case result_eq =>
    have hresult := hrest.result_eq
    rw [t.seen_of_lt hle, hobserved, hresult, hlength]
    rfl
  case nothing =>
    intro k hk hlt
    rcases Nat.eq_or_lt_of_le hk with rfl | hk
    · exact hobserved
    · exact hrest.nothing k (by omega) hlt
  case passed => exact hrest.passed

theorem Polled.refl (h : operationDeadline ≤ (t.read w).now) :
    Polled t operationDeadline w none (t.read w) := by
  constructor
  case passed => exact fun _ => h
  case result_eq => simp [Timing.seen_self, poll]
  case nothing =>
    intro k hk hlt
    simp only [Timing.polls_read] at hlt
    omega
  all_goals simp +contextual

theorem Polled.found (h : (t.read w).now < operationDeadline) {result : Except E V}
    (hfound : poll [t.observed w.polls.length] = some result) :
    Polled t operationDeadline w (some result) (t.read w).polled := by
  have hlength : (t.read w).polled.polls.length = w.polls.length + 1 := rfl
  constructor
  case polls =>
    intro started hstarted
    rcases List.mem_cons.mp hstarted with rfl | hbefore
    · exact .inr h
    · exact .inl hbefore
  case result_eq => rw [hlength, t.seen_of_lt (by omega), Timing.seen_self, hfound]
  case nothing =>
    intro k hk hlt
    omega
  case passed => exact fun hnone => nomatch hnone
  case sleeps => exact fun ms hms => .inl hms
  case deadlines => rfl
  case length_le => omega

/-- The loop ends: each of its sleeps takes it a millisecond on, or to the deadline. -/
theorem pollLoop_ends (t : Timing V E) (operationDeadline : Millis) (n : ℕ) (nextPollMs : Millis)
    (w : Waiting) (hn : operationDeadline - w.now ≤ n) :
    ∃ result w', (∀ turns, n < turns →
      pollLoop t operationDeadline turns nextPollMs w = some (result, w')) ∧
      Polled t operationDeadline w result w' := by
  induction n generalizing nextPollMs w with
  | zero =>
    have hlate : operationDeadline ≤ (t.read w).now := by
      have hread := t.le_read w
      push_cast at hn
      linarith
    refine ⟨none, t.read w, fun turns hturns => ?_, Polled.refl hlate⟩
    obtain ⟨turns, rfl⟩ : ∃ n, turns = n + 1 := ⟨turns - 1, by omega⟩
    exact pollLoop_late hlate
  | succ n ih =>
    rcases le_or_gt operationDeadline (t.read w).now with hlate | h
    · refine ⟨none, t.read w, fun turns hturns => ?_, Polled.refl hlate⟩
      obtain ⟨turns, rfl⟩ : ∃ n, turns = n + 1 := ⟨turns - 1, by omega⟩
      exact pollLoop_late hlate
    cases hfound : poll [t.observed w.polls.length] with
    | some result =>
      refine ⟨some result, (t.read w).polled, fun turns hturns => ?_, Polled.found h hfound⟩
      obtain ⟨turns, rfl⟩ : ∃ n, turns = n + 1 := ⟨turns - 1, by omega⟩
      exact pollLoop_found h hfound
    | none =>
      have hobserved : t.observed w.polls.length = .ok none := by
        cases hobserved : t.observed w.polls.length with
        | error e => simp [poll, hobserved] at hfound
        | ok found =>
          cases found with
          | some value => simp [poll, hobserved] at hfound
          | none => rfl
      set next := t.read (t.read w).polled with hnext
      by_cases hover : operationDeadline - next.now ≤ 0
      · refine ⟨none, next, fun turns hturns => ?_, ?_⟩
        · obtain ⟨turns, rfl⟩ : ∃ n, turns = n + 1 := ⟨turns - 1, by omega⟩
          rw [pollLoop_nothing h hobserved]
          exact if_pos hover
        · have hlate : operationDeadline ≤ (t.read (t.read w).polled).now := by linarith
          exact (Polled.refl hlate).cons h hobserved rfl (fun ms hms => .inl hms) rfl
      · -- the sleep is at least as long as what is left, or as a millisecond
        set delayMs := min (jitterSingleFlightPoll (t.random next.sleeps.length) nextPollMs)
          (operationDeadline - next.now) with hdelay
        have hjitter := one_le_jitterSingleFlightPoll (t.random next.sleeps.length) nextPollMs
        have hpos : 0 < delayMs := lt_min (by linarith) (by linarith)
        have hleft : operationDeadline - (next.slept delayMs).now ≤ n := by
          have hread : w.now ≤ next.now :=
            (t.le_read w).trans (t.le_read (t.read w).polled)
          have hslept : (next.slept delayMs).now = next.now + delayMs := rfl
          push_cast at hn
          rw [hslept]
          rcases min_choice (jitterSingleFlightPoll (t.random next.sleeps.length) nextPollMs)
            (operationDeadline - next.now) with hmin | hmin
          · rw [hdelay, hmin]
            linarith
          · have hcast : (0 : ℚ) ≤ n := Nat.cast_nonneg n
            rw [hdelay, hmin]
            linarith
        obtain ⟨result, w', hrun, hrest⟩ :=
          ih (min (min (nextPollMs * 2) 1000) t.timeoutMs) (next.slept delayMs) hleft
        have hpolls : (next.slept delayMs).polls = (t.read w).polled.polls := rfl
        refine ⟨result, w', fun turns hturns => ?_, hrest.cons h hobserved hpolls ?_ rfl⟩
        · obtain ⟨turns, rfl⟩ : ∃ n, turns = n + 1 := ⟨turns - 1, by omega⟩
          rw [pollLoop_nothing h hobserved]
          exact (if_neg hover).trans (hrun turns (by omega))
        · intro ms hms
          rcases List.mem_cons.mp hms with rfl | hms
          · exact .inr hpos
          · exact .inl hms

theorem poll_seen {a b k : ℕ} (hak : a ≤ k) (hkb : k ≤ b)
    (h : ∀ i, a ≤ i → i < k → t.observed i = .ok none) : poll (t.seen a b) = poll (t.seen k b) := by
  induction k, hak using Nat.le_induction with
  | base => rfl
  | succ k hak ih =>
    rw [ih (by omega) fun i hi hik => h i hi (by omega), t.seen_of_lt hkb,
      h k hak (Nat.lt_succ_self k)]
    rfl

end

/-- The scenario in which the waiter makes these polls. -/
def observing (env : Scenario V E) (polls : List (Except E (Option V))) : Scenario V E :=
  { env with polls := polls }

structure Patient (t : Timing V E) (w : Waiting) : Prop where
  before_deadline : ∀ started ∈ w.polls, started < t.deadline
  sleeps_pos : ∀ ms ∈ w.sleeps, 0 < ms
  same_deadline : ∀ deadline ∈ w.deadlines, deadline = t.deadline
  nothing : ∀ k, k + 1 < w.polls.length → t.observed k = .ok none

section

variable {env : Scenario V E} {t : Timing V E} {p : Progress E} {w : Waiting}

theorem waitForFreshValue_poll {retries : ℕ} {polls : List (Except E (Option V))}
    {result : Except E V} (h : poll polls = some result) :
    LayerCache.waitForFreshValue env retries polls p = (result, p) := by
  unfold LayerCache.waitForFreshValue
  rw [h]

theorem waitForFreshValue_retry {retries : ℕ} {polls : List (Except E (Option V))}
    (h : poll polls = none) :
    LayerCache.waitForFreshValue env (retries + 1) polls p =
      LayerCache.execute env (fetchAndPopulate env)
        (LayerCache.waitForFreshValue env retries []) p := by
  conv_lhs => unfold LayerCache.waitForFreshValue
  rw [h]

/-- The polls that a scenario lists are those of the first waiter only. -/
theorem waitForFreshValue_observing (env : Scenario V E) (listed : List (Except E (Option V)))
    (retries : ℕ) (polls : List (Except E (Option V))) :
    LayerCache.waitForFreshValue (observing env listed) retries polls =
      LayerCache.waitForFreshValue env retries polls := by
  induction retries generalizing polls with
  | zero =>
    funext p
    unfold LayerCache.waitForFreshValue
    cases poll polls <;> rfl
  | succ retries ih =>
    funext p
    cases h : poll polls with
    | some result => rw [waitForFreshValue_poll h, waitForFreshValue_poll h]
    | none =>
      rw [waitForFreshValue_retry h, waitForFreshValue_retry h, ih]
      rfl

theorem Patient.start (t : Timing V E) : Patient t t.start := by
  constructor
  case nothing => exact fun k hk => nomatch hk
  all_goals exact fun _ h => nomatch h

theorem waitForFreshValue_late {operationDeadline : Millis} (h : operationDeadline ≤ w.now)
    (turns : ℕ) :
    waitForFreshValue env t (turns + 1) (some operationDeadline) 1 p w =
      some (.error env.timedOut, p, t.read (w.begun operationDeadline)) := by
  have hlate : operationDeadline ≤ (t.read (w.begun operationDeadline)).now :=
    h.trans (t.le_read (w.begun operationDeadline))
  simp [waitForFreshValue, pollLoop_late hlate]

theorem Polled.patient {t : Timing V E} {result : Option (Except E V)} {w : Waiting}
    (h : Polled t t.deadline ((t.read t.start).begun t.deadline) result w) : Patient t w := by
  constructor
  case before_deadline =>
    intro started hstarted
    exact (h.polls started hstarted).resolve_left (List.not_mem_nil)
  case sleeps_pos =>
    intro ms hms
    exact (h.sleeps ms hms).resolve_left (List.not_mem_nil)
  case same_deadline =>
    intro deadline hdeadline
    rw [h.deadlines] at hdeadline
    exact List.mem_singleton.mp hdeadline
  case nothing => exact fun k => h.nothing k (Nat.zero_le k)

/-- A second look at the clock, for the same deadline, is no less patient. -/
theorem Patient.begun {t : Timing V E} {w : Waiting} (h : Patient t w) :
    Patient t (t.read (w.begun t.deadline)) := by
  constructor
  case same_deadline =>
    intro deadline hdeadline
    rcases List.mem_cons.mp hdeadline with rfl | hdeadline
    · rfl
    · exact h.same_deadline deadline hdeadline
  case before_deadline => exact h.before_deadline
  case sleeps_pos => exact h.sleeps_pos
  case nothing => exact h.nothing

theorem waitForFreshValue_ends (hc : env.singleFlightCoordinator = true) (t : Timing V E)
    (p : Progress E) :
    ∃ n result p' w', (∀ turns, n ≤ turns →
      waitForFreshValue env t turns none 0 p t.start = some (result, p', w')) ∧
      (result, p') = LayerCache.waitForFreshValue env 1 (t.seen 0 w'.polls.length) p ∧
      Patient t w' := by
  obtain ⟨result, w, hrun, hpolled⟩ := pollLoop_ends t t.deadline
    ⌈t.deadline - (t.read t.start).now⌉₊ t.pollIntervalMs ((t.read t.start).begun t.deadline)
    (Nat.le_ceil _)
  generalize ⌈t.deadline - (t.read t.start).now⌉₊ = n at hrun
  have hpatient : Patient t w := hpolled.patient
  have hpoll : result = poll (t.seen 0 w.polls.length) := hpolled.result_eq
  cases result with
  | some result =>
    refine ⟨n + 1, result, p, w, fun turns hturns => ?_, ?_, hpatient⟩
    · obtain ⟨turns, rfl⟩ : ∃ n, turns = n + 1 := ⟨turns - 1, by omega⟩
      have hloop := hrun (turns + 1) (by omega)
      simp only [waitForFreshValue]
      rw [← Timing.deadline, hloop]
    · rw [waitForFreshValue_poll hpoll.symm]
  | none =>
    have hlate : t.deadline ≤ w.now := hpolled.passed rfl
    have hwaiter : ∀ turns, n + 2 ≤ turns → waitForFreshValue env t turns none 0 p t.start =
        execute env (fetchAndPopulate env)
          (waitForFreshValue env t (turns - 1) (some t.deadline) 1) p w := by
      intro turns hturns
      obtain ⟨turns, rfl⟩ : ∃ n, turns = n + 1 := ⟨turns - 1, by omega⟩
      have hloop := hrun (turns + 1) (by omega)
      simp only [waitForFreshValue]
      rw [← Timing.deadline, hloop]
      simp [hc]
    have huntimed : LayerCache.waitForFreshValue env 1 (t.seen 0 w.polls.length) p =
        LayerCache.execute env (fetchAndPopulate env) (LayerCache.waitForFreshValue env 0 []) p :=
      waitForFreshValue_retry hpoll.symm
    by_cases hheld : env.locks p.locks = .held
    · refine ⟨n + 2, .error env.timedOut, p.locked, t.read (w.begun t.deadline),
        fun turns hturns => ?_, ?_, hpatient.begun⟩
      · obtain ⟨turns, rfl⟩ : ∃ n, turns = n + 2 := ⟨turns - 2, by omega⟩
        rw [hwaiter _ hturns]
        simp only [execute, hheld]
        exact waitForFreshValue_late hlate turns
      · change _ = LayerCache.waitForFreshValue env 1 (t.seen 0 w.polls.length) p
        rw [huntimed]
        simp only [LayerCache.execute, hheld]
        rfl
    · refine ⟨n + 2, _, _, w, fun turns hturns => ?_, huntimed.symm, hpatient⟩
      rw [hwaiter turns hturns]
      unfold execute LayerCache.execute
      cases hlock : env.locks p.locks with
      | held => exact absurd hlock hheld
      | failed e => rfl
      | acquired release => cases release <;> rfl

theorem execute_ends (hc : env.singleFlightCoordinator = true) (t : Timing V E) :
    ∃ n result p w, (∀ turns, n ≤ turns →
      execute env (fetchTask env) (waitForFreshValue env t turns none 0) .start t.start =
        some (result, p, w)) ∧
      (result, p) = LayerCache.execute env (fetchTask env)
        (LayerCache.waitForFreshValue env 1 (t.seen 0 w.polls.length)) .start ∧
      Patient t w ∧ (w.polls ≠ [] → env.locks 0 = .held) := by
  by_cases hheld : env.locks 0 = .held
  · obtain ⟨n, result, p, w, hrun, heq, hpatient⟩ :=
      waitForFreshValue_ends hc t (Progress.start : Progress E).locked
    have hlock : env.locks (Progress.start : Progress E).locks = .held := hheld
    refine ⟨n, result, p, w, fun turns hturns => ?_, ?_, hpatient, fun _ => hheld⟩
    · simp only [execute, hlock]
      exact hrun turns hturns
    · simp only [LayerCache.execute, hlock]
      exact heq
  · refine ⟨0, _, _, t.start, fun turns _ => ?_, rfl, Patient.start t, fun h => absurd rfl h⟩
    unfold execute LayerCache.execute
    cases hlock : env.locks (Progress.start : Progress E).locks with
    | held => exact absurd hlock hheld
    | failed e => rfl
    | acquired release => cases release <;> rfl

/-- Every get ends, and comes to what it comes to in the scenario of the polls it has made. -/
theorem fetchWithGuards_ends (env : Scenario V E) (t : Timing V E) (stale : Option V) :
    ∃ n answer p w, (∀ turns, n ≤ turns →
      fetchWithGuards env t stale turns = some (answer, p, w)) ∧
      (answer, p) = LayerCache.fetchWithGuards (observing env (t.seen 0 w.polls.length)) stale ∧
      Patient t w ∧
      (w.polls ≠ [] → env.singleFlightCoordinator = true ∧ env.locks 0 = .held) := by
  cases hc : env.singleFlightCoordinator with
  | false =>
    have hrun : ∀ polls, LayerCache.singleFlightTask (observing env polls) .start =
        fetchTask env .start := by
      intro polls
      have hc' : (observing env polls).singleFlightCoordinator = false := hc
      unfold LayerCache.singleFlightTask
      rw [hc']
      rfl
    refine ⟨0, answerOr stale (fetchTask env .start).1, (fetchTask env .start).2, t.start,
      fun turns _ => ?_, ?_, Patient.start t, fun h => absurd rfl h⟩
    · simp [fetchWithGuards, singleFlightTask, hc]
    · simp only [LayerCache.fetchWithGuards, hrun]
  | true =>
    obtain ⟨n, result, p, w, hrun, heq, hpatient, hheld⟩ := execute_ends hc t
    set env' := observing env (t.seen 0 w.polls.length) with henv
    have hexecute : LayerCache.execute env' (fetchTask env')
        (LayerCache.waitForFreshValue env' 1 env'.polls) .start = (result, p) := by
      rw [henv, waitForFreshValue_observing]
      exact heq.symm
    have hc' : env'.singleFlightCoordinator = true := hc
    have hg' : env'.gracefulDegradation = env.gracefulDegradation := rfl
    have htask : fetchTask env' = fetchTask env := rfl
    refine ⟨n, (LayerCache.fetchWithGuards env' stale).1, (LayerCache.fetchWithGuards env' stale).2,
      w, fun turns hturns => ?_, rfl, hpatient, fun h => ⟨rfl, hheld h⟩⟩
    have hrun := hrun turns hturns
    unfold fetchWithGuards singleFlightTask LayerCache.fetchWithGuards LayerCache.singleFlightTask
    rw [hrun, hexecute, hc', hg', hc, htask]
    cases result with
    | ok value => rfl
    | error e => cases env.gracefulDegradation <;> rfl

end

section

variable {env : Scenario V E} {stale : Option V}

@[simp] theorem locks_fetchAndPopulate (env : Scenario V E) (p : Progress E) :
    (fetchAndPopulate env p).2.locks = p.locks := by
  unfold fetchAndPopulate
  cases env.attempts p.attempts with
  | refused e => rfl
  | rejected e => rfl
  | fetched value storeError => cases storeError <;> rfl

@[simp] theorem locks_fetchTask (env : Scenario V E) (p : Progress E) :
    (fetchTask env p).2.locks = p.locks := by
  unfold fetchTask
  split
  · exact locks_fetchAndPopulate env p
  · cases env.rechecks p.rechecks with
    | error e => rfl
    | ok found =>
      cases found with
      | some value => rfl
      | none => exact locks_fetchAndPopulate env p.rechecked

def waits : Lock E → Bool
  | .held => true
  | _ => false

theorem locks_execute {worker waiter : Progress E → Except E V × Progress E} {n : ℕ}
    (hworker : ∀ p : Progress E, (worker p).2.locks = p.locks)
    (hwaiter : ∀ p : Progress E, (waiter p).2.locks = p.locks + n) (p : Progress E) :
    (LayerCache.execute env worker waiter p).2.locks =
      p.locks + 1 + if waits (env.locks p.locks) then n else 0 := by
  have hlocked : p.locked.locks = p.locks + 1 := rfl
  unfold LayerCache.execute
  cases env.locks p.locks with
  | failed e => simp [waits, hlocked]
  | held => simp [waits, hwaiter, hlocked]
  | acquired release => cases release <;> simp [waits, hworker, hlocked]

theorem locks_waitForFreshValue (env : Scenario V E) (polls : List (Except E (Option V)))
    (p : Progress E) :
    (LayerCache.waitForFreshValue env 1 polls p).2.locks =
      p.locks + if (poll polls).isSome then 0 else 1 := by
  cases h : poll polls with
  | some result => simp [waitForFreshValue_poll h]
  | none =>
    have hlate : ∀ p, (LayerCache.waitForFreshValue env 0 [] p).2.locks = p.locks + 0 :=
      fun p => rfl
    rw [waitForFreshValue_retry h, locks_execute (locks_fetchAndPopulate env) hlate]
    simp

/-- What the get makes of the coordinated run: with graceful degradation the task is started over
after an error. -/
def settle (env : Scenario V E) (stale : Option V) :
    Except E V × Progress E → Except E V × Progress E
  | (.ok value, p) => (.ok value, p)
  | (.error e, p) =>
    if env.gracefulDegradation then (answerOr stale (fetchTask env p).1, (fetchTask env p).2)
    else (answerOr stale (.error e), p)

theorem fetchWithGuards_coordinated (hc : env.singleFlightCoordinator = true) :
    LayerCache.fetchWithGuards env stale =
      settle env stale (LayerCache.execute env (fetchTask env)
        (LayerCache.waitForFreshValue env 1 env.polls) .start) := by
  unfold LayerCache.fetchWithGuards LayerCache.singleFlightTask settle
  rw [hc]
  cases LayerCache.execute env (fetchTask env)
    (LayerCache.waitForFreshValue env 1 env.polls) .start with
  | mk result p =>
    cases result with
    | ok value => rfl
    | error e => cases env.gracefulDegradation <;> rfl

@[simp] theorem locks_settle (env : Scenario V E) (stale : Option V)
    (run : Except E V × Progress E) : (settle env stale run).2.locks = run.2.locks := by
  obtain ⟨result, p⟩ := run
  cases result with
  | ok value => rfl
  | error e =>
    simp only [settle]
    split <;> simp

/-- The coordinator is asked once, and once more if the get is told to wait and finds nothing. -/
theorem locks_fetchWithGuards (env : Scenario V E) (stale : Option V) :
    (LayerCache.fetchWithGuards env stale).2.locks =
      if env.singleFlightCoordinator then
        1 + if waits (env.locks 0) then if (poll env.polls).isSome then 0 else 1 else 0
      else 0 := by
  cases hc : env.singleFlightCoordinator with
  | false =>
    unfold LayerCache.fetchWithGuards LayerCache.singleFlightTask
    rw [hc]
    exact locks_fetchTask env .start
  | true =>
    have hwaiter := locks_waitForFreshValue env env.polls
    have hstart : (Progress.start : Progress E).locks = 0 := rfl
    rw [fetchWithGuards_coordinated hc, locks_settle,
      locks_execute (locks_fetchTask env) hwaiter, hstart]
    rfl

/-- Told to wait twice, without having seen a value, the coordinated run times out. -/
theorem fetchWithGuards_timedOut (hc : env.singleFlightCoordinator = true)
    (hfirst : env.locks 0 = .held) (hsecond : env.locks 1 = .held) (h : poll env.polls = none) :
    (LayerCache.fetchWithGuards env stale).1 =
      answerOr stale (if env.gracefulDegradation then
        (fetchTask env (Progress.start : Progress E).locked.locked).1
      else .error env.timedOut) := by
  have hrun : LayerCache.execute env (fetchTask env)
      (LayerCache.waitForFreshValue env 1 env.polls) .start =
        (.error env.timedOut, (Progress.start : Progress E).locked.locked) := by
    have hlock : env.locks (Progress.start : Progress E).locks = .held := hfirst
    have hlock' : env.locks (Progress.start : Progress E).locked.locks = .held := hsecond
    simp only [LayerCache.execute, hlock]
    rw [waitForFreshValue_retry h]
    simp only [LayerCache.execute, hlock']
    rfl
  rw [fetchWithGuards_coordinated hc, hrun]
  unfold settle
  cases env.gracefulDegradation <;> rfl

theorem fetchWithGuards_found (hc : env.singleFlightCoordinator = true)
    (hfirst : env.locks 0 = .held) {value : V} (h : poll env.polls = some (.ok value)) :
    (LayerCache.fetchWithGuards env stale).1 = .ok value := by
  have hrun : LayerCache.execute env (fetchTask env)
      (LayerCache.waitForFreshValue env 1 env.polls) .start =
        (.ok value, (Progress.start : Progress E).locked) := by
    have hlock : env.locks (Progress.start : Progress E).locks = .held := hfirst
    simp only [LayerCache.execute, hlock]
    exact waitForFreshValue_poll h
  rw [fetchWithGuards_coordinated hc, hrun]
  rfl

end

/-- The get is told to wait both times, and what it waits for does not come. -/
def GivesUp (env : Scenario V E) (t : Timing V E) (w : Waiting) : Prop :=
  env.singleFlightCoordinator = true ∧ env.locks 0 = .held ∧ env.locks 1 = .held ∧
    ∀ k < w.polls.length, t.observed k = .ok none

/-- A get ends, after polls that it starts before the deadline of its first waiter. It answers with
the first fresh value that it observes; told to wait and without one, it asks the coordinator again,
and with the same deadline, but no third time; and if it gives up, it ends with `last`. -/
structure EndsWaiting (env : Scenario V E) (t : Timing V E) (last answer : Except E V)
    (p : Progress E) (w : Waiting) : Prop where
  before_deadline : ∀ started ∈ w.polls, started < t.deadline
  sleeps_pos : ∀ ms ∈ w.sleeps, 0 < ms
  same_deadline : ∀ deadline ∈ w.deadlines, deadline = t.deadline
  first_fresh : ∀ k value, k < w.polls.length → t.observed k = .ok (some value) →
    k + 1 = w.polls.length ∧ answer = .ok value
  asks_again : env.singleFlightCoordinator = true → env.locks 0 = .held →
    (∀ k < w.polls.length, t.observed k = .ok none) → p.locks = 2
  locks_le : p.locks ≤ 2
  gives_up : GivesUp env t w → answer = last

def WaitsFor (env : Scenario V E) (t : Timing V E) (stale : Option V) (last : Except E V) : Prop :=
  ∃ n answer p w, (∀ turns, n ≤ turns →
    fetchWithGuards env t stale turns = some (answer, p, w)) ∧ EndsWaiting env t last answer p w

def givenUp (env : Scenario V E) (stale : Option V) : Except E V :=
  answerOr stale (if env.gracefulDegradation then
    (fetchTask env (Progress.start : Progress E).locked.locked).1 else .error env.timedOut)

theorem Patient.poll_last {t : Timing V E} {w : Waiting} (h : Patient t w) {k : ℕ}
    (hk : k < w.polls.length) (hfound : t.observed k ≠ .ok none) :
    k + 1 = w.polls.length ∧ poll (t.seen 0 w.polls.length) = poll [t.observed k] := by
  have hlast : k + 1 = w.polls.length := by
    by_contra hne
    exact hfound (h.nothing k (by omega))
  have hseen : t.seen k w.polls.length = [t.observed k] := by
    rw [t.seen_of_lt hk, ← hlast, t.seen_self]
  refine ⟨hlast, ?_⟩
  rw [poll_seen (Nat.zero_le k) hk.le fun i _ hik => h.nothing i (by omega), hseen]

/-- Every get waits no longer than its deadline lets it. One that gives up answers with its stale
value if it may fall back on one, and runs its task without the coordinator under graceful
degradation; else it ends with the timeout. -/
theorem waitsFor_givenUp (env : Scenario V E) (t : Timing V E) (stale : Option V) :
    WaitsFor env t stale (givenUp env stale) := by
  obtain ⟨n, answer, p, w, hrun, heq, hpatient, hheld⟩ := fetchWithGuards_ends env t stale
  set env' := observing env (t.seen 0 w.polls.length) with henv
  have hanswer : answer = (LayerCache.fetchWithGuards env' stale).1 := by rw [← heq]
  have hnothing : (∀ k < w.polls.length, t.observed k = .ok none) →
      poll (t.seen 0 w.polls.length) = none := by
    intro h
    rw [poll_seen (Nat.zero_le _) le_rfl fun i _ hi => h i hi, t.seen_self]
    rfl
  have hlocks := locks_fetchWithGuards env' stale
  rw [← heq] at hlocks
  refine ⟨n, answer, p, w, hrun, ?_⟩
  constructor
  case before_deadline => exact hpatient.before_deadline
  case sleeps_pos => exact hpatient.sleeps_pos
  case same_deadline => exact hpatient.same_deadline
  case first_fresh =>
    intro k value hk hvalue
    obtain ⟨hlast, hpoll⟩ := hpatient.poll_last hk (by simp [hvalue])
    obtain ⟨hc, hfirst⟩ := hheld (List.ne_nil_of_length_pos (by omega))
    have hc' : env'.singleFlightCoordinator = true := hc
    have hfirst' : env'.locks 0 = .held := hfirst
    have hpoll' : poll env'.polls = some (.ok value) := by
      rw [hvalue] at hpoll
      exact hpoll
    exact ⟨hlast, hanswer.trans (fetchWithGuards_found hc' hfirst' hpoll')⟩
  case asks_again =>
    intro hc hfirst h
    have hpoll : poll env'.polls = none := hnothing h
    rw [hpoll] at hlocks
    simpa [henv, observing, hc, hfirst, waits] using hlocks
  case locks_le =>
    have hle : p.locks ≤ 2 := by
      rw [hlocks]
      split_ifs <;> omega
    exact hle
  case gives_up =>
    rintro ⟨hc, hfirst, hsecond, h⟩
    have hc' : env'.singleFlightCoordinator = true := hc
    have hfirst' : env'.locks 0 = .held := hfirst
    have hsecond' : env'.locks 1 = .held := hsecond
    exact hanswer.trans (fetchWithGuards_timedOut hc' hfirst' hsecond' (hnothing h))

/-- Another instance has the lock all the time, and does not store anything. -/
def neverReleased : Scenario ℕ ℕ where
  singleFlightCoordinator := true
  gracefulDegradation := true
  initialMissConfirmed := true
  locks := fun _ => .held
  rechecks := fun _ => .ok none
  polls := []
  timedOut := 0
  attempts := fun _ => .fetched 7 none

def steadyClock : Timing ℕ ℕ where
  singleFlightTimeoutMs := some 20
  singleFlightPollMs := some 10
  validTimeout := by decide
  validPoll := by decide
  now := 0
  drift := fun _ => ⟨0, le_rfl⟩
  random := fun _ => ⟨1 / 2, by norm_num⟩
  observed := fun _ => .ok none

/-- A get that is told to wait both times fetches by itself under graceful degradation. -/
theorem degraded_get_not_timedOut :
    ¬WaitsFor neverReleased steadyClock none (.error neverReleased.timedOut) := by
  rintro ⟨n, answer, p, w, hrun, h⟩
  obtain ⟨n', answer', p', w', hrun', heq, _⟩ :=
    fetchWithGuards_ends neverReleased steadyClock none
  have hsame : answer = answer' := by
    have hboth := (hrun (max n n') (le_max_left _ _)).symm.trans
      (hrun' (max n n') (le_max_right _ _))
    simp only [Option.some.injEq, Prod.mk.injEq] at hboth
    exact hboth.1
  have hnothing : poll (steadyClock.seen 0 w'.polls.length) = none := by
    rw [poll_seen (Nat.zero_le _) le_rfl fun _ _ _ => rfl, Timing.seen_self]
    rfl
  have hfetched : answer' = .ok 7 := by
    have hdegraded : (LayerCache.fetchWithGuards
        (observing neverReleased (steadyClock.seen 0 w'.polls.length)) none).1 = .ok 7 :=
      fetchWithGuards_timedOut rfl rfl rfl hnothing
    rw [← heq] at hdegraded
    exact hdegraded
  have hgiven := h.gives_up ⟨rfl, rfl, rfl, fun _ _ => rfl⟩
  rw [hsame, hfetched] at hgiven
  cases hgiven

end LayerCache.Timed
