import Mathlib.Algebra.Order.Floor.Semiring
import Mathlib.Data.List.Sort
import Mathlib.Data.Rat.Floor
import LayerCache.Transition.Run

/-! # Warming up

Workers take entries from a common queue, the most urgent first, and each takes its next one when
the last has been processed. A failure ends the worker that meets it, unless errors are passed over,
and so does a progress callback that throws. It does not end the others, which go on with the queue.
Event listeners do not throw.
-/

namespace LayerCache

structure CacheWarmEntry where
  key : String
  priority : Option ℚ
deriving DecidableEq

/-- A number that a caller may give. Minus infinity does not differ from any number below one. -/
inductive WarmConcurrency
  | finite (n : ℚ)
  | infinity
  | nan
deriving DecidableEq

/-- As many entries as the concurrency lets be in flight. One that is no number lets none. -/
def WarmConcurrency.Admits (inFlight : ℕ) : WarmConcurrency → Prop
  | .finite n => (inFlight : ℚ) ≤ n
  | .infinity => True
  | .nan => inFlight = 0

structure CacheWarmProgress where
  completed : ℕ
  total : ℕ
  key : String
  success : Bool
deriving DecidableEq

/-- `onProgress` is what the callback throws, if it throws anything, when it is told of the last of
some reports. -/
structure CacheWarmOptions where
  concurrency : Option WarmConcurrency
  continueOnError : Bool
  onProgress : List CacheWarmProgress → Option String

def CacheWarmOptions.Quiet (options : CacheWarmOptions) : Prop :=
  ∀ progress, options.onProgress progress = none

namespace WarmUp

/-- A worker waits for an entry that it has started, is through, or has thrown. -/
inductive Worker
  | running (entry : CacheWarmEntry)
  | returned
  | thrown
deriving DecidableEq

inductive Outcome
  | success
  | failure (error : String)
deriving DecidableEq

/-- The failures are those of the entries. The first of them that a worker throws rejects the
whole. -/
structure State where
  total : ℕ
  queue : List CacheWarmEntry
  started : List CacheWarmEntry
  workers : List Worker
  completed : ℕ
  progress : List CacheWarmProgress
  failures : List String
  rejection : Option String

/-- The order of the queue; entries of one priority stay in the order of the caller. -/
def AtLeastAsUrgent (left right : CacheWarmEntry) : Prop :=
  right.priority.getD 0 ≤ left.priority.getD 0

instance : DecidableRel AtLeastAsUrgent := fun _ _ => inferInstanceAs (Decidable (_ ≤ _))

instance : Std.Total AtLeastAsUrgent := ⟨fun _ _ => le_total _ _⟩

instance : IsTrans CacheWarmEntry AtLeastAsUrgent := ⟨fun _ _ _ hab hbc => le_trans hbc hab⟩

/-- `Math.max(1, options.concurrency ?? 4)`. -/
def concurrency (options : CacheWarmOptions) : WarmConcurrency :=
  match options.concurrency.getD (.finite 4) with
  | .finite n => .finite (max 1 n)
  | n => n

/-- There are no more workers than entries, but always one, unless the concurrency is no number. -/
def workerCount (options : CacheWarmOptions) (entries : ℕ) : ℕ :=
  match concurrency options with
  | .finite n => ⌊min n ((max entries 1 : ℕ) : ℚ)⌋₊
  | .infinity => max entries 1
  | .nan => 0

def startWorker (s : State) : State :=
  match s.queue with
  | [] => { s with workers := s.workers ++ [.returned] }
  | entry :: queue =>
    { s with queue, started := s.started ++ [entry], workers := s.workers ++ [.running entry] }

def initial (entries : List CacheWarmEntry) (options : CacheWarmOptions) : State :=
  startWorker^[workerCount options entries.length]
    { total := entries.length
      queue := entries.insertionSort AtLeastAsUrgent
      started := []
      workers := []
      completed := 0
      progress := []
      failures := []
      rejection := none }

def nextRound (s : State) (worker : ℕ) : State :=
  match s.queue with
  | [] => { s with workers := s.workers.set worker .returned }
  | entry :: queue =>
    { s with
      queue
      started := s.started ++ [entry]
      workers := s.workers.set worker (.running entry) }

/-- An entry is processed; its progress is reported in either case. -/
def report (s : State) (entry : CacheWarmEntry) (success : Bool) : State :=
  { s with
    completed := s.completed + 1
    progress := s.progress ++ [⟨s.completed + 1, s.total, entry.key, success⟩] }

def rejectWith (s : State) (worker : ℕ) (error : String) : State :=
  { s with workers := s.workers.set worker .thrown, rejection := s.rejection.or (some error) }

/-- What becomes of the worker once progress has been reported: what the callback throws goes before
the error of the entry. -/
def finish (options : CacheWarmOptions) (s : State) (worker : ℕ) (outcome : Outcome) : State :=
  match options.onProgress s.progress, outcome with
  | some error, _ => rejectWith s worker error
  | none, .success => nextRound s worker
  | none, .failure error =>
    if options.continueOnError then nextRound s worker else rejectWith s worker error

def settle (options : CacheWarmOptions) (s : State) (worker : ℕ) (outcome : Outcome) :
    Option State :=
  match s.workers[worker]? with
  | some (.running entry) =>
    match outcome with
    | .success => some (finish options (report s entry true) worker outcome)
    | .failure error =>
      let s := { report s entry false with failures := s.failures ++ [error] }
      some (finish options s worker outcome)
  | _ => none

def step (options : CacheWarmOptions) (s : State) : ℕ × Outcome → Option State
  | (worker, outcome) => settle options s worker outcome

def isRunning : Worker → Bool
  | .running _ => true
  | _ => false

def inFlight (s : State) : ℕ := (s.workers.filter isRunning).length

def Over (s : State) : Prop := ∀ worker ∈ s.workers, isRunning worker = false

abbrev Reachable (entries : List CacheWarmEntry) (options : CacheWarmOptions) : State → Prop :=
  Transition.Reaches (step options) (fun _ _ => True) (initial entries options)

/-- What the documentation says of a warm-up in this state. -/
structure Promised (entries : List CacheWarmEntry) (options : CacheWarmOptions) (s : State) :
    Prop where
  inFlight : (concurrency options).Admits (inFlight s)
  once : ∃ later, (s.started ++ later).Perm entries
  urgent : s.started.Pairwise AtLeastAsUrgent
  complete : options.continueOnError = true → Over s → s.started.Perm entries
  rejects : options.continueOnError = false → s.failures ≠ [] → s.rejection = s.failures.head?
  stops : options.continueOnError = false → s.failures ≠ [] →
    ∀ a s', step options s a = some s' → s'.started = s.started

def WarmsAsPromised (entries : List CacheWarmEntry) (options : CacheWarmOptions) : Prop :=
  ∀ s, Reachable entries options s → Promised entries options s

variable {entries : List CacheWarmEntry} {options : CacheWarmOptions} {s s' : State} {worker : ℕ}
  {outcome : Outcome}

theorem nextRound_cases (s : State) (worker : ℕ) :
    (s.queue = [] ∧ nextRound s worker =
      { s with workers := s.workers.set worker .returned }) ∨
    ∃ entry queue, s.queue = entry :: queue ∧ nextRound s worker = { s with
      queue
      started := s.started ++ [entry]
      workers := s.workers.set worker (.running entry) } := by
  cases hqueue : s.queue with
  | nil => exact .inl ⟨rfl, by rw [nextRound, hqueue]⟩
  | cons entry queue => exact .inr ⟨entry, queue, rfl, by rw [nextRound, hqueue]⟩

/-- A callback that throws ends its worker, also where errors are passed over. -/
theorem finish_of_throws {error : String} (h : options.onProgress s.progress = some error)
    (worker : ℕ) (outcome : Outcome) :
    finish options s worker outcome = rejectWith s worker error := by
  simp only [finish, h]

theorem step_cases (hquiet : options.Quiet) {a : ℕ × Outcome} (h : step options s a = some s') :
    ∃ worker entry success failures, s.workers[worker]? = some (.running entry) ∧
      ((s' = nextRound { report s entry success with failures } worker ∧
        (failures = s.failures ∨ options.continueOnError = true)) ∨
      ∃ error, options.continueOnError = false ∧ failures = s.failures ++ [error] ∧
        s' = rejectWith { report s entry success with failures } worker error) := by
  obtain ⟨worker, outcome⟩ := a
  rw [step, settle] at h
  split at h
  · rename_i entry hworker
    cases outcome with
    | success =>
      simp only [finish, hquiet (report s entry true).progress] at h
      obtain rfl := Option.some.inj h
      exact ⟨worker, entry, true, s.failures, hworker, .inl ⟨rfl, .inl rfl⟩⟩
    | failure error =>
      simp only [finish, hquiet (report s entry false).progress] at h
      split at h
      · rename_i hcontinue
        obtain rfl := Option.some.inj h
        exact ⟨worker, entry, false, _, hworker, .inl ⟨rfl, .inr hcontinue⟩⟩
      · rename_i hstop
        obtain rfl := Option.some.inj h
        exact ⟨worker, entry, false, _, hworker,
          .inr ⟨error, Bool.eq_false_iff.mpr hstop, rfl, rfl⟩⟩
  · cases h

theorem one_le_of_concurrency {n : ℚ} (h : concurrency options = .finite n) : 1 ≤ n := by
  unfold concurrency at h
  split at h
  · cases h
    exact le_max_left _ _
  next hnot => exact absurd h (hnot n)

theorem workerCount_eq_zero_or (options : CacheWarmOptions) (n : ℕ) :
    concurrency options = .nan ∧ workerCount options n = 0 ∨
      concurrency options ≠ .nan ∧ 1 ≤ workerCount options n := by
  cases hconcurrency : concurrency options with
  | finite c =>
    refine .inr ⟨nofun, ?_⟩
    rw [workerCount, hconcurrency]
    apply Nat.le_floor
    rw [Nat.cast_one, le_min_iff]
    exact ⟨one_le_of_concurrency hconcurrency, by exact_mod_cast le_max_right n 1⟩
  | infinity =>
    refine .inr ⟨nofun, ?_⟩
    rw [workerCount, hconcurrency]
    exact le_max_right _ _
  | nan => exact .inl ⟨rfl, by rw [workerCount, hconcurrency]⟩

theorem one_le_workerCount (h : concurrency options ≠ .nan) (n : ℕ) :
    1 ≤ workerCount options n :=
  ((workerCount_eq_zero_or options n).resolve_left fun hnan => h hnan.1).2

theorem workerCount_le_concurrency (options : CacheWarmOptions) {n started : ℕ}
    (h : started ≤ workerCount options n) : (concurrency options).Admits started := by
  cases hconcurrency : concurrency options with
  | finite c =>
    rw [workerCount, hconcurrency] at h
    have hpos : 0 ≤ min c ((max n 1 : ℕ) : ℚ) :=
      le_min (zero_le_one.trans (one_le_of_concurrency hconcurrency)) (Nat.cast_nonneg _)
    exact (Nat.cast_le.mpr h).trans ((Nat.floor_le hpos).trans (min_le_left _ _))
  | infinity => trivial
  | nan =>
    rw [workerCount, hconcurrency] at h
    exact Nat.le_zero.mp h

theorem workerCount_le (options : CacheWarmOptions) (n : ℕ) : workerCount options n ≤ max n 1 := by
  rw [workerCount]
  split
  · apply Nat.floor_le_of_le
    exact min_le_right _ _
  · exact le_rfl
  · exact Nat.zero_le _

theorem iterate_startWorker {n : ℕ} (h : n ≤ s.queue.length) : startWorker^[n] s = { s with
    queue := s.queue.drop n
    started := s.started ++ s.queue.take n
    workers := s.workers ++ (s.queue.take n).map .running } := by
  induction n with
  | zero => simp
  | succ n ih =>
    have hlt : n < s.queue.length := h
    rw [Function.iterate_succ_apply', ih hlt.le, startWorker]
    simp only [List.drop_eq_getElem_cons hlt]
    rw [List.take_succ_eq_append_getElem hlt]
    simp only [List.map_append, List.append_assoc, List.map_cons, List.map_nil]

theorem initial_of_ne_nil (h : entries ≠ []) (options : CacheWarmOptions) :
    initial entries options =
      let sorted := entries.insertionSort AtLeastAsUrgent
      let count := workerCount options entries.length
      ⟨entries.length, sorted.drop count, sorted.take count, (sorted.take count).map .running, 0,
        [], [], none⟩ := by
  have hpos : 1 ≤ entries.length := List.length_pos_of_ne_nil h
  have hcount : workerCount options entries.length ≤
      (entries.insertionSort AtLeastAsUrgent).length := by
    rw [List.length_insertionSort]
    exact (workerCount_le options entries.length).trans (max_le le_rfl hpos)
  rw [initial, iterate_startWorker hcount]
  rfl

structure Inv (entries : List CacheWarmEntry) (options : CacheWarmOptions) (s : State) : Prop where
  queue : s.started ++ s.queue = entries.insertionSort AtLeastAsUrgent
  count : s.workers.length = workerCount options entries.length
  returned : .returned ∈ s.workers → s.queue = []
  continues : options.continueOnError = true → .thrown ∉ s.workers
  thrown : options.continueOnError = false → s.failures ≠ [] → .thrown ∈ s.workers
  rejects : options.continueOnError = false → s.rejection = s.failures.head?
  /-- With a worker for each entry the queue is empty from the start. -/
  crowded : entries.length ≤ workerCount options entries.length → s.queue = []

theorem inv_initial (entries : List CacheWarmEntry) (options : CacheWarmOptions) :
    Inv entries options (initial entries options) := by
  cases hentries : entries with
  | nil =>
    rcases workerCount_eq_zero_or options 0 with ⟨-, hcount⟩ | ⟨-, hpos⟩
    · have hinitial : initial [] options = ⟨0, [], [], [], 0, [], [], none⟩ := by
        rw [initial, List.length_nil, hcount]
        rfl
      rw [hinitial]
      exact ⟨rfl, hcount.symm, fun _ => rfl, by simp, by simp, fun _ => rfl, fun _ => rfl⟩
    · have hcount : workerCount options 0 = 1 := le_antisymm (workerCount_le options 0) hpos
      have hinitial : initial [] options = ⟨0, [], [], [.returned], 0, [], [], none⟩ := by
        rw [initial, List.length_nil, hcount]
        rfl
      rw [hinitial]
      exact ⟨rfl, hcount.symm, fun _ => rfl, by simp, by simp, fun _ => rfl, fun _ => rfl⟩
  | cons entry rest =>
    rw [← hentries]
    have hne : entries ≠ [] := by rw [hentries]; exact List.cons_ne_nil _ _
    have hpos : 1 ≤ entries.length := List.length_pos_of_ne_nil hne
    rw [initial_of_ne_nil hne]
    constructor
    · exact List.take_append_drop _ _
    · simp only [List.length_map, List.length_take, List.length_insertionSort]
      exact min_eq_left ((workerCount_le options entries.length).trans (max_le le_rfl hpos))
    · intro hmem
      obtain ⟨_, _, heq⟩ := List.mem_map.mp hmem
      cases heq
    · intro _ hmem
      obtain ⟨_, _, heq⟩ := List.mem_map.mp hmem
      cases heq
    · exact fun _ h => absurd rfl h
    · exact fun _ => rfl
    · intro hcrowded
      exact List.drop_eq_nil_of_le (by rwa [List.length_insertionSort])

theorem mem_set_of_ne {workers : List Worker} {other current next : Worker}
    (hworker : workers[worker]? = some current) (hne : other ≠ current) (h : other ∈ workers) :
    other ∈ workers.set worker next := by
  obtain ⟨i, hi⟩ := List.getElem?_of_mem h
  have hi' : worker ≠ i := by
    rintro rfl
    exact hne (Option.some.inj (hi.symm.trans hworker))
  exact List.mem_of_getElem? ((List.getElem?_set_ne hi').trans hi)

theorem mem_of_mem_set {workers : List Worker} {other next : Worker} (hne : other ≠ next)
    (h : other ∈ workers.set worker next) : other ∈ workers :=
  (List.mem_or_eq_of_mem_set h).resolve_right hne

theorem Inv.nextRound (h : Inv entries options s) {entry : CacheWarmEntry}
    (hworker : s.workers[worker]? = some (.running entry)) :
    Inv entries options (nextRound s worker) := by
  rcases nextRound_cases s worker with ⟨hqueue, heq⟩ | ⟨next, queue, hqueue, heq⟩
  · rw [heq]
    exact {
      queue := h.queue
      count := (List.length_set ..).trans h.count
      returned := fun _ => hqueue
      continues := fun hcontinue hmem => h.continues hcontinue (mem_of_mem_set (by simp) hmem)
      thrown := fun hstop hfailed =>
        mem_set_of_ne hworker (by simp) (h.thrown hstop hfailed)
      rejects := h.rejects
      crowded := h.crowded }
  · rw [heq]
    have hstarted : s.started ++ [next] ++ queue = entries.insertionSort AtLeastAsUrgent := by
      rw [List.append_assoc, List.singleton_append, ← hqueue]
      exact h.queue
    exact {
      queue := hstarted
      count := (List.length_set ..).trans h.count
      returned := fun hmem => by
        have hnil := h.returned (mem_of_mem_set (by simp) hmem)
        cases hqueue.symm.trans hnil
      continues := fun hcontinue hmem => h.continues hcontinue (mem_of_mem_set (by simp) hmem)
      thrown := fun hstop hfailed =>
        mem_set_of_ne hworker (by simp) (h.thrown hstop hfailed)
      rejects := h.rejects
      crowded := fun hcrowded => by cases hqueue.symm.trans (h.crowded hcrowded) }

theorem Inv.step (h : Inv entries options s) (hquiet : options.Quiet) {a : ℕ × Outcome}
    (hs : step options s a = some s') : Inv entries options s' := by
  obtain ⟨worker, entry, success, failures, hworker, ⟨rfl, hfailures⟩ |
    ⟨error, hstop, rfl, rfl⟩⟩ := step_cases hquiet hs
  · have hreport : Inv entries options { report s entry success with failures } := {
      queue := h.queue
      count := h.count
      returned := h.returned
      continues := h.continues
      thrown := fun hstop hfailed => by
        obtain rfl := hfailures.resolve_right (by rw [hstop]; simp)
        exact h.thrown hstop hfailed
      rejects := fun hstop => by
        obtain rfl := hfailures.resolve_right (by rw [hstop]; simp)
        exact h.rejects hstop
      crowded := h.crowded }
    exact hreport.nextRound hworker
  · have hlt : worker < s.workers.length := (List.getElem?_eq_some_iff.mp hworker).1
    exact {
      queue := h.queue
      count := (List.length_set ..).trans h.count
      returned := fun hmem => h.returned (mem_of_mem_set (by simp) hmem)
      continues := fun hcontinue => by rw [hstop] at hcontinue; cases hcontinue
      thrown := fun _ _ => List.mem_set hlt .thrown
      rejects := fun _ => by
        change s.rejection.or (some error) = (s.failures ++ [error]).head?
        rw [h.rejects hstop, List.head?_append]
        rfl
      crowded := h.crowded }

theorem step_success {entry : CacheWarmEntry} (hquiet : options.Quiet)
    (hworker : s.workers[worker]? = some (.running entry)) :
    WarmUp.step options s (worker, .success) =
      some (WarmUp.nextRound (report s entry true) worker) := by
  rw [WarmUp.step, settle, hworker]
  simp only [finish, hquiet (report s entry true).progress]

theorem step_failure {entry : CacheWarmEntry} (hquiet : options.Quiet)
    (hstop : options.continueOnError = false)
    (hworker : s.workers[worker]? = some (.running entry)) (error : String) :
    WarmUp.step options s (worker, .failure error) = some (rejectWith { report s entry false with
      failures := s.failures ++ [error] } worker error) := by
  rw [WarmUp.step, settle, hworker]
  simp only [finish, hquiet (report s entry false).progress, hstop, Bool.false_eq_true, if_false]

theorem inv_of_reachable (hquiet : options.Quiet) (h : Reachable entries options s) :
    Inv entries options s :=
  h.invariant (fun _ _ _ hinv _ hs => hinv.step hquiet hs) (inv_initial entries options)

theorem pairwise_sorted (entries : List CacheWarmEntry) :
    (entries.insertionSort AtLeastAsUrgent).Pairwise AtLeastAsUrgent :=
  List.pairwise_insertionSort _ entries

theorem Inv.once (h : Inv entries options s) : (s.started ++ s.queue).Perm entries :=
  h.queue ▸ List.perm_insertionSort _ _

theorem Inv.urgent (h : Inv entries options s) : s.started.Pairwise AtLeastAsUrgent := by
  have hsorted := pairwise_sorted entries
  rw [← h.queue] at hsorted
  exact (List.pairwise_append.mp hsorted).1

theorem Inv.inFlight_le (h : Inv entries options s) :
    (concurrency options).Admits (inFlight s) :=
  workerCount_le_concurrency options ((List.length_filter_le _ _).trans h.count.le)

/-- Where every worker has ended, one of them has found the queue empty. -/
theorem Inv.complete (h : Inv entries options s) (hnumber : concurrency options ≠ .nan)
    (hcontinue : options.continueOnError = true) (hover : Over s) : s.started.Perm entries := by
  have hpos : 0 < s.workers.length := h.count ▸ one_le_workerCount hnumber entries.length
  obtain ⟨worker, hworker⟩ := List.exists_mem_of_length_pos hpos
  have hnil : s.queue = [] := by
    cases worker with
    | running entry => cases hover _ hworker
    | returned => exact h.returned hworker
    | thrown => exact absurd hworker (h.continues hcontinue)
  have honce := h.once
  rwa [hnil, List.append_nil] at honce

theorem Inv.started_eq (h : Inv entries options s) (hquiet : options.Quiet)
    (hstop : options.continueOnError = false) (hfailed : s.failures ≠ [])
    (hfew : workerCount options entries.length < 2 ∨
      entries.length ≤ workerCount options entries.length) {a : ℕ × Outcome}
    (hs : WarmUp.step options s a = some s') : s'.started = s.started := by
  obtain ⟨worker, entry, success, failures, hworker, ⟨rfl, -⟩ | ⟨error, -, -, rfl⟩⟩ :=
    step_cases hquiet hs
  · rcases hfew with hfew | hcrowded
    · have hone : s.workers.length = 1 := by
        have hpos := List.length_pos_of_mem (List.mem_of_getElem? hworker)
        have hcount := h.count
        omega
      obtain ⟨only, honly⟩ := List.length_eq_one_iff.mp hone
      have hthrown := h.thrown hstop hfailed
      rw [honly] at hthrown hworker
      obtain rfl := List.mem_singleton.mp hthrown
      have hmem := List.mem_of_getElem? hworker
      simp at hmem
    · have hnil := h.crowded hcrowded
      rcases nextRound_cases { report s entry success with failures } worker with
        ⟨-, heq⟩ | ⟨next, queue, hqueue, -⟩
      · rw [heq]
        rfl
      · cases hqueue.symm.trans hnil
  · rfl

/-- Errors are passed over, there is one worker only, or there is one for every entry; and where
errors are passed over there is something to start the entries. -/
def Suits (options : CacheWarmOptions) (entries : List CacheWarmEntry) : Prop :=
  (concurrency options ≠ .nan ∨ entries = [] ∨ options.continueOnError = false) ∧
    (options.continueOnError = true ∨ workerCount options entries.length < 2 ∨
      entries.length ≤ workerCount options entries.length)

theorem promised (h : Inv entries options s) (hquiet : options.Quiet)
    (hsuits : Suits options entries) : Promised entries options s where
  inFlight := h.inFlight_le
  once := ⟨s.queue, h.once⟩
  urgent := h.urgent
  complete hcontinue hover := by
    rcases hsuits.1 with hnumber | rfl | hstop
    · exact h.complete hnumber hcontinue hover
    · have hnil := (List.append_eq_nil_iff.mp h.queue).1
      rw [hnil]
    · rw [hcontinue] at hstop
      cases hstop
  rejects hstop _ := h.rejects hstop
  stops hstop hfailed a s' hs := by
    have hfew := hsuits.2.resolve_left (by rw [hstop]; simp)
    exact h.started_eq hquiet hstop hfailed hfew hs

theorem not_promised_of_nan (hnan : concurrency options = .nan) (hne : entries ≠ [])
    (hcontinue : options.continueOnError = true) :
    ¬ Promised entries options (initial entries options) := by
  intro hpromised
  have hcount : workerCount options entries.length = 0 := by rw [workerCount, hnan]
  have hinitial := initial_of_ne_nil hne options
  rw [hcount] at hinitial
  have hover : Over (initial entries options) := by
    rw [hinitial]
    intro worker hworker
    cases hworker
  have hperm := hpromised.complete hcontinue hover
  rw [hinitial] at hperm
  exact hne (List.nil_perm.mp hperm)

theorem started_nextRound_ne (hqueue : s.queue ≠ []) :
    (nextRound s worker).started ≠ s.started := by
  rcases nextRound_cases s worker with ⟨hnil, -⟩ | ⟨next, queue, -, heq⟩
  · exact absurd hnil hqueue
  · rw [heq]
    intro hsame
    have hlonger := congrArg List.length hsame
    simp at hlonger

theorem other_goes_on {first second : CacheWarmEntry} (hquiet : options.Quiet)
    (hstop : options.continueOnError = false)
    (hfirst : s.workers[0]? = some (.running first))
    (hsecond : s.workers[1]? = some (.running second)) (hqueue : s.queue ≠ []) :
    ∃ failed s', WarmUp.step options s (0, .failure "error") = some failed ∧
      failed.failures ≠ [] ∧ WarmUp.step options failed (1, .success) = some s' ∧
      s'.started ≠ failed.started := by
  have hother : (s.workers.set 0 .thrown)[1]? = some (.running second) :=
    (List.getElem?_set_ne Nat.zero_ne_one).trans hsecond
  refine ⟨_, _, step_failure hquiet hstop hfirst "error", by simp [rejectWith],
    step_success hquiet hother, ?_⟩
  exact @started_nextRound_ne (report (rejectWith { report s first false with
    failures := s.failures ++ ["error"] } 0 "error") second true) 1 hqueue

theorem not_promised (hquiet : options.Quiet) (hstop : options.continueOnError = false)
    (htwo : 2 ≤ workerCount options entries.length)
    (hmore : workerCount options entries.length < entries.length) :
    ∃ s, Reachable entries options s ∧ ¬ Promised entries options s := by
  have hne : entries ≠ [] := by
    rintro rfl
    exact absurd hmore (Nat.not_lt_zero _)
  have hlength : (entries.insertionSort AtLeastAsUrgent).length = entries.length :=
    List.length_insertionSort _ _
  have hworker : ∀ i, i < workerCount options entries.length → ∃ entry,
      (initial entries options).workers[i]? = some (.running entry) := by
    intro i hi
    have hlt : i < (entries.insertionSort AtLeastAsUrgent).length := by omega
    refine ⟨(entries.insertionSort AtLeastAsUrgent)[i], ?_⟩
    rw [initial_of_ne_nil hne, List.getElem?_map, List.getElem?_take_of_lt hi,
      List.getElem?_eq_getElem hlt]
    rfl
  have hqueue : (initial entries options).queue ≠ [] := by
    rw [initial_of_ne_nil hne]
    intro hnil
    have hdrop := List.drop_eq_nil_iff.mp hnil
    omega
  obtain ⟨first, hfirst⟩ := hworker 0 (by omega)
  obtain ⟨second, hsecond⟩ := hworker 1 (by omega)
  obtain ⟨failed, s', hfailed, hfailures, hs', hstarted⟩ :=
    other_goes_on hquiet hstop hfirst hsecond hqueue
  exact ⟨failed, .tail .refl ⟨_, trivial, hfailed⟩,
    fun hpromised => hstarted (hpromised.stops hstop hfailures _ s' hs')⟩

/-- With a callback that does not throw, a warm-up keeps its promises in every run exactly if its
options suit the entries. -/
theorem warmsAsPromised_iff (entries : List CacheWarmEntry) (options : CacheWarmOptions)
    (hquiet : options.Quiet) : WarmsAsPromised entries options ↔ Suits options entries := by
  constructor
  · intro hwarms
    constructor
    · by_contra hnot
      obtain ⟨hnan, hnot⟩ := not_or.mp hnot
      obtain ⟨hne, hcontinue⟩ := not_or.mp hnot
      exact not_promised_of_nan (not_not.mp hnan) hne (by simpa using hcontinue)
        (hwarms _ .refl)
    · by_contra hnot
      obtain ⟨hstop, hnot⟩ := not_or.mp hnot
      obtain ⟨htwo, hmore⟩ := not_or.mp hnot
      obtain ⟨s, hreachable, hbroken⟩ := not_promised hquiet (Bool.eq_false_iff.mpr hstop)
        (Nat.le_of_not_lt htwo) (Nat.lt_of_not_le hmore)
      exact hbroken (hwarms s hreachable)
  · exact fun hsuits s hreachable => promised (inv_of_reachable hquiet hreachable) hquiet hsuits

def threeEntries : List CacheWarmEntry := [⟨"low", some 1⟩, ⟨"high", some 10⟩, ⟨"mid", some 5⟩]

/-- Three workers, one for each entry. -/
theorem warmsAsPromised_threeEntries :
    WarmsAsPromised threeEntries ⟨some (.finite 3), false, fun _ => none⟩ := by
  refine (warmsAsPromised_iff threeEntries _ fun _ => rfl).mpr ⟨.inl nofun, .inr (.inr ?_)⟩
  norm_num [workerCount, concurrency, threeEntries]

/-- Two workers for three entries. -/
theorem not_warmsAsPromised_threeEntries :
    ¬ WarmsAsPromised threeEntries ⟨some (.finite 2), false, fun _ => none⟩ := by
  have hcount : workerCount ⟨some (.finite 2), false, fun _ => none⟩ threeEntries.length = 2 := by
    norm_num [workerCount, concurrency, threeEntries]
  obtain ⟨s, hreachable, hbroken⟩ := @not_promised threeEntries
    ⟨some (.finite 2), false, fun _ => none⟩ (fun _ => rfl) rfl hcount.ge (by rw [hcount]; decide)
  exact fun hwarms => hbroken (hwarms s hreachable)

end WarmUp

end LayerCache
