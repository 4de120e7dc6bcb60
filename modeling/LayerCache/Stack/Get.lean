import LayerCache.Stack.Read
import LayerCache.Stack.Write

/-! # Gets and the stampede guard

A `get` reads the layers first. A fresh hit is returned, after its sliding TTL has been
renewed; a miss with a fetcher goes through the stampede guard, which runs one task for
each key and lets every later caller join it. The task looks for a fresh entry again
before it fetches, and stores what it fetched under the fence of the `get` that created
it.
-/

namespace LayerCache

variable {K V T : Type}

/-- How a fetcher run ends: it throws, its value is not cached, or its value is stored. -/
inductive Outcome (V T : Type*)
  | failed
  | uncached (value : Js V)
  | store (write : WriteValue V) (tags : Option (List T))

/-- What the caller of the fetcher is handed when the value is stored. -/
def WriteValue.answer (write : WriteValue V) : Js V :=
  match write.kind with
  | .value => .ofOption write.value
  | .empty => .undefined

/-- `planFreshReadPolicies`: the renewed entry with its expiry, for a sliding TTL. -/
def refreshedStored (now : Millis) (item : Item V) (slidingTtl : Bool) :
    Option (Item V × Option Millis) :=
  if slidingTtl && isStoredValueEnvelope now item.stored then
    let stored := refreshStoredEnvelope now item.stored now
    some (⟨stored, item.born⟩, remainingStoredTtlMs now stored now)
  else none

/-- The fresh time an envelope has left, at least one millisecond. -/
def remainingFreshTtlMs (now : Millis) (stored : Stored V) : Option Millis :=
  match stored with
  | .plain _ => none
  | .envelope e =>
    if isStoredValueEnvelope now stored then
      e.freshUntil.map fun f => if f - now ≤ 0 then 0 else max 1 ⌈f - now⌉
    else none

def shouldScheduleBackgroundRefresh (now : Millis) (stored : Stored V) (options : GetOptions)
    (layer : ℕ) : Bool :=
  let remaining := (remainingFreshTtlMs now stored).getD 0
  options.hasFetcher && decide (0 < options.refreshAheadMs layer) && decide (0 < remaining) &&
    decide (remaining ≤ options.refreshAheadMs layer)

def Hit.answer (hit : Hit V) : Answer V := ⟨hit.value, some hit.item.born⟩

namespace Stack

variable [DecidableEq K]

/-- A `get` captures its fence and starts to read. -/
def get (s : Stack K V T) (key : K) (options : GetOptions) : Option (Stack K V T) :=
  some ((s.openReader key .allowStale).putGet s.clock {
    key, options
    background := false
    fence := s.store.epochs.fence key
    phase := .reading })

/-- Starts a background refresh unless the key has one under way. -/
def scheduleBackgroundRefresh (s : Stack K V T) (key : K) (options : GetOptions) :
    Stack K V T :=
  match s.backgroundRefreshes key with
  | some _ => s
  | none =>
    { s.putGet s.clock {
        key, options
        background := true
        fence := s.store.epochs.fence key
        phase := .entering none } with
      backgroundRefreshes := Function.update s.backgroundRefreshes key (some s.clock) }

/-- The read of a `get` is over. -/
def conclude (s : Stack K V T) (g : ℕ) : Option (Stack K V T) := do
  let get ← s.gets g
  let reader ← s.readers g
  match get.phase, reader.phase with
  | .reading, .failed => some (s.putGet g { get with phase := .failed })
  | .reading, .done none =>
    some (s.putGet g { get with
      phase := if get.options.hasFetcher then .entering none else .done ⟨.undefined, none⟩ })
  | .reading, .done (some hit) =>
    match hit.state with
    | .fresh =>
      let ahead := shouldScheduleBackgroundRefresh s.store.now hit.item.stored get.options
        hit.layerIndex
      some (s.putGet g { get with
        phase :=
          match refreshedStored s.store.now hit.item get.options.slidingTtl with
          | some (stored, ttl) =>
            .sliding hit.answer (List.range (hit.layerIndex + 1)) stored ttl ahead
          | none => .sliding hit.answer [] hit.item none ahead })
    | .staleWhileRevalidate =>
      let s' := s.putGet g { get with phase := .done hit.answer }
      some (if get.options.hasFetcher then s'.scheduleBackgroundRefresh get.key get.options
        else s')
    | _ =>
      some (s.putGet g { get with
        phase :=
          if get.options.hasFetcher then .entering (some hit.answer) else .done hit.answer })
  | _, _ => none

/-- The renewed entry is written to the layers up to the hit, one after the other, outside of the
chain; a fresh `get` then returns. -/
def slide (s : Stack K V T) (g : ℕ) : Option (Stack K V T) := do
  let get ← s.gets g
  match get.phase with
  | .sliding answer [] _ _ ahead =>
    let s' := s.putGet g { get with phase := .done answer }
    some (if ahead then s'.scheduleBackgroundRefresh get.key get.options else s')
  | .sliding answer (l :: rest) stored ttl ahead =>
    let s' := s.putGet g { get with phase := .sliding answer rest stored ttl ahead }
    some (if s.degraded l then s'
      else { s' with store := s.store.layerSet ⟨l, get.key, stored, ttl⟩ none })
  | _ => none

def slideFail (s : Stack K V T) (g : ℕ) : Option (Stack K V T) := do
  let get ← s.gets g
  match get.phase with
  | .sliding answer (_ :: rest) stored ttl ahead =>
    some (s.putGet g { get with phase := .sliding answer rest stored ttl ahead })
  | _ => none

/-- `StampedeGuard.execute`: joins the task in flight for the key, or creates it. -/
def enter (cfg : Config) (s : Stack K V T) (g : ℕ) : Option (Stack K V T) := do
  let get ← s.gets g
  match get.phase with
  | .entering fallback =>
    let task : Task K V := {
      key := get.key
      fence := get.fence
      captured := g
      references := 1
      settled := false
      phase := .idle false }
    let fresh := (s.putGet g { get with phase := .waiting s.clock fallback }).putTask s.clock task
    if cfg.stampedePrevention then
      match s.inFlight get.key with
      | some i => do
        let joined ← s.tasks i
        some ((s.putGet g { get with phase := .waiting i fallback }).putTask i
          { joined with references := joined.references + 1 })
      | none =>
        some { fresh with inFlight := Function.update s.inFlight get.key (some s.clock) }
    else some fresh
  | _ => none

/-- `releaseEntry`: the last caller to leave a settled entry takes it out of the map. -/
def release (s : Stack K V T) (i : ℕ) (task : Task K V) : Stack K V T :=
  let s' := s.putTask i { task with references := task.references - 1 }
  if task.references - 1 = 0 ∧ task.settled ∧ s.inFlight task.key = some i then
    { s' with inFlight := Function.update s.inFlight task.key none }
  else s'

/-- A caller of a resolved task leaves with its answer, or with the stale one it fell back on. -/
def leave (s : Stack K V T) (g : ℕ) : Option (Stack K V T) := do
  let get ← s.gets g
  match get.phase with
  | .waiting i fallback => do
    let task ← s.tasks i
    match task.phase with
    | .resolved result =>
      let s' := (s.release i task).putGet g { get with
        phase :=
          match result.or fallback with
          | some answer => .done answer
          | none => .failed }
      some (if get.background then
        { s' with backgroundRefreshes := Function.update s.backgroundRefreshes get.key none }
        else s')
    | _ => none
  | _ => none

/-- A task looks for a fresh entry; behind a coordinator it may look again and again. -/
def recheck (cfg : Config) (s : Stack K V T) (i : ℕ) : Option (Stack K V T) := do
  let task ← s.tasks i
  match task.phase with
  | .idle missed =>
    if missed && !cfg.singleFlightCoordinator then none
    else
      some ((s.openReader task.key .freshOnly).putTask i
        { task with phase := .rechecking s.clock })
  | _ => none

def rechecked (s : Stack K V T) (i : ℕ) : Option (Stack K V T) := do
  let task ← s.tasks i
  match task.phase with
  | .rechecking r => do
    let reader ← s.readers r
    match reader.phase with
    | .done (some hit) =>
      some (s.putTask i { task with phase := .resolved (some hit.answer) })
    | .done none => some (s.putTask i { task with phase := .idle true })
    | .failed => some (s.putTask i { task with phase := .resolved none })
    | _ => none
  | _ => none

/-- The fetcher starts; a coordinator spares the second look after a confirmed miss. -/
def fetch (cfg : Config) (s : Stack K V T) (i : ℕ) : Option (Stack K V T) := do
  let task ← s.tasks i
  match task.phase with
  | .idle missed =>
    if missed || cfg.singleFlightCoordinator then
      some (s.putTask i { task with phase := .fetching s.clock })
    else none
  | _ => none

/-- The fetcher is through: a value to cache is stored under the task's fence, unless that is
outdated already. -/
def fetched (cfg : Config) (s : Stack K V T) (i : ℕ) (outcome : Outcome V T) :
    Option (Stack K V T) := do
  let task ← s.tasks i
  match task.phase with
  | .fetching born =>
    match outcome with
    | .failed => some (s.putTask i { task with phase := .resolved none })
    | .uncached value =>
      some (s.putTask i { task with phase := .resolved (some ⟨value, some born⟩) })
    | .store write tags =>
      let answer : Answer V := ⟨write.answer, some born⟩
      if s.store.epochs.isWriteOutdated task.key task.fence then
        some (s.putTask i { task with phase := .resolved (some answer) })
      else
        some ((s.storeEntry cfg task.key write tags task.fence task.captured born).putTask i
          { task with phase := .storing s.clock answer })
  | _ => none

def stored (s : Stack K V T) (i : ℕ) : Option (Stack K V T) := do
  let task ← s.tasks i
  match task.phase with
  | .storing w answer => do
    let writer ← s.writers w
    match writer.phase with
    | .done => some (s.putTask i { task with phase := .resolved (some answer) })
    | _ => none
  | _ => none

/-- A task gives up before it fetches: an open breaker, a rate limit, a coordinator timeout. -/
def giveUp (s : Stack K V T) (i : ℕ) : Option (Stack K V T) := do
  let task ← s.tasks i
  match task.phase with
  | .idle _ => some (s.putTask i { task with phase := .resolved none })
  | _ => none

/-- `settleEntry`: a settled entry nobody waits for leaves the map. -/
def settleTask (s : Stack K V T) (i : ℕ) : Option (Stack K V T) := do
  let task ← s.tasks i
  match task.phase, task.settled with
  | .resolved _, false =>
    let s' := s.putTask i { task with settled := true }
    some (if task.references = 0 ∧ s.inFlight task.key = some i then
      { s' with inFlight := Function.update s.inFlight task.key none }
      else s')
  | _, _ => none

variable {cfg : Config} {s s' : Stack K V T} {g i : ℕ}

theorem scheduleBackgroundRefresh_cases (s : Stack K V T) (key : K) (options : GetOptions) :
    s.scheduleBackgroundRefresh key options = s ∨
    (s.backgroundRefreshes key = none ∧ s.scheduleBackgroundRefresh key options =
      { s.putGet s.clock ⟨key, options, true, s.store.epochs.fence key, .entering none⟩ with
        backgroundRefreshes := Function.update s.backgroundRefreshes key (some s.clock) }) := by
  unfold scheduleBackgroundRefresh
  split
  · exact .inl rfl
  · exact .inr ⟨‹_›, rfl⟩

/-- What a `get` does with the outcome of its read. -/
inductive Concludes (s : Stack K V T) (g : ℕ) (get : Get K V) (reader : Reader K V) :
    Stack K V T → Prop
  | failed (h : reader.phase = .failed) :
      Concludes s g get reader (s.putGet g { get with phase := .failed })
  | miss (h : reader.phase = .done none) (hfetcher : get.options.hasFetcher = true) :
      Concludes s g get reader (s.putGet g { get with phase := .entering none })
  | absent (h : reader.phase = .done none) (hfetcher : get.options.hasFetcher = false) :
      Concludes s g get reader (s.putGet g { get with phase := .done ⟨.undefined, none⟩ })
  | fresh (hit : Hit V) (h : reader.phase = .done (some hit)) (hstate : hit.state = .fresh)
      (todo : List ℕ) (stored : Item V) (ttl : Option Millis) (ahead : Bool)
      (htodo : todo = [] ∨ (refreshedStored s.store.now hit.item get.options.slidingTtl =
        some (stored, ttl) ∧ todo = List.range (hit.layerIndex + 1)))
      (hahead : ahead = shouldScheduleBackgroundRefresh s.store.now hit.item.stored get.options
        hit.layerIndex) :
      Concludes s g get reader
        (s.putGet g { get with phase := .sliding hit.answer todo stored ttl ahead })
  | stale (hit : Hit V) (h : reader.phase = .done (some hit))
      (hstate : hit.state = .staleWhileRevalidate) (hfetcher : get.options.hasFetcher = false) :
      Concludes s g get reader (s.putGet g { get with phase := .done hit.answer })
  | refresh (hit : Hit V) (h : reader.phase = .done (some hit))
      (hstate : hit.state = .staleWhileRevalidate) (hfetcher : get.options.hasFetcher = true) :
      Concludes s g get reader ((s.putGet g
        { get with phase := .done hit.answer }).scheduleBackgroundRefresh get.key get.options)
  | staleIfError (hit : Hit V) (h : reader.phase = .done (some hit)) (hstate : hit.state ≠ .fresh)
      (hfetcher : get.options.hasFetcher = true) :
      Concludes s g get reader (s.putGet g { get with phase := .entering (some hit.answer) })
  | fallback (hit : Hit V) (h : reader.phase = .done (some hit)) (hstate : hit.state ≠ .fresh)
      (hfetcher : get.options.hasFetcher = false) :
      Concludes s g get reader (s.putGet g { get with phase := .done hit.answer })

theorem conclude_spec (h : s.conclude g = some s') : ∃ get reader, s.gets g = some get ∧
    s.readers g = some reader ∧ get.phase = .reading ∧ s.Concludes g get reader s' := by
  simp only [conclude, Option.bind_eq_bind, Option.bind_eq_some_iff] at h
  obtain ⟨get, hg, reader, hr, h⟩ := h
  refine ⟨get, reader, hg, hr, ?_⟩
  split at h
  · cases h
    exact ⟨‹_›, .failed ‹_›⟩
  · rename_i hphase hdone
    refine ⟨hphase, ?_⟩
    cases hf : get.options.hasFetcher <;> simp only [hf, if_true] at h <;> cases h
    · exact .absent hdone hf
    · exact .miss hdone hf
  · rename_i hit hphase hdone
    refine ⟨hphase, ?_⟩
    split at h
    · rename_i hstate
      cases h
      cases href : refreshedStored s.store.now hit.item get.options.slidingTtl with
      | none => exact .fresh hit hdone hstate [] hit.item none _ (.inl rfl) rfl
      | some p => exact .fresh hit hdone hstate _ p.1 p.2 _ (.inr ⟨href, rfl⟩) rfl
    · rename_i hstate
      cases hf : get.options.hasFetcher <;> simp only [hf, if_true] at h <;> cases h
      · exact .stale hit hdone hstate hf
      · exact .refresh hit hdone hstate hf
    · rename_i hfresh _
      cases hf : get.options.hasFetcher <;> simp only [hf, if_true] at h <;> cases h
      · exact .fallback hit hdone hfresh hf
      · exact .staleIfError hit hdone hfresh hf
  · cases h

theorem slide_spec (h : s.slide g = some s') : ∃ get answer todo stored ttl ahead,
    s.gets g = some get ∧ get.phase = .sliding answer todo stored ttl ahead ∧
      ((todo = [] ∧ (s' = s.putGet g { get with phase := .done answer } ∨
        (ahead = true ∧ s' = (s.putGet g
          { get with phase := .done answer }).scheduleBackgroundRefresh get.key get.options))) ∨
      (∃ l rest, todo = l :: rest ∧
        (s' = s.putGet g { get with phase := .sliding answer rest stored ttl ahead } ∨
        s' = { s.putGet g { get with phase := .sliding answer rest stored ttl ahead } with
          store := s.store.layerSet ⟨l, get.key, stored, ttl⟩ none }))) := by
  simp only [slide, Option.bind_eq_bind, Option.bind_eq_some_iff] at h
  obtain ⟨get, hg, h⟩ := h
  split at h
  · rename_i answer stored ttl ahead hphase
    cases h
    refine ⟨get, answer, [], stored, ttl, ahead, hg, hphase, .inl ⟨rfl, ?_⟩⟩
    split
    · exact .inr ⟨‹_›, rfl⟩
    · exact .inl rfl
  · rename_i answer l rest stored ttl ahead hphase
    cases h
    refine ⟨get, answer, l :: rest, stored, ttl, ahead, hg, hphase, .inr ⟨l, rest, rfl, ?_⟩⟩
    split
    · exact .inl rfl
    · exact .inr rfl
  · cases h

omit [DecidableEq K] in
theorem slideFail_spec (h : s.slideFail g = some s') : ∃ get answer l rest stored ttl ahead,
    s.gets g = some get ∧ get.phase = .sliding answer (l :: rest) stored ttl ahead ∧
      s' = s.putGet g { get with phase := .sliding answer rest stored ttl ahead } := by
  simp only [slideFail, Option.bind_eq_bind, Option.bind_eq_some_iff] at h
  obtain ⟨get, hg, h⟩ := h
  split at h
  · cases h
    exact ⟨get, _, _, _, _, _, _, hg, ‹_›, rfl⟩
  · cases h

/-- The task that a `get` without a task to join creates. -/
def newTask (get : Get K V) (g : ℕ) : Task K V :=
  ⟨get.key, get.fence, g, 1, false, .idle false⟩

theorem enter_spec (h : s.enter cfg g = some s') : ∃ get fallback,
    s.gets g = some get ∧ get.phase = .entering fallback ∧
      ((∃ i joined, cfg.stampedePrevention = true ∧ s.inFlight get.key = some i ∧
        s.tasks i = some joined ∧
        s' = (s.putGet g { get with phase := .waiting i fallback }).putTask i
          { joined with references := joined.references + 1 }) ∨
      (∃ inFlight, ((cfg.stampedePrevention = true ∧ s.inFlight get.key = none ∧
          inFlight = Function.update s.inFlight get.key (some s.clock)) ∨
          (cfg.stampedePrevention = false ∧ inFlight = s.inFlight)) ∧
        s' = { (s.putGet g { get with phase := .waiting s.clock fallback }).putTask s.clock
          (newTask get g) with inFlight })) := by
  simp only [enter, Option.bind_eq_bind, Option.bind_eq_some_iff] at h
  obtain ⟨get, hg, h⟩ := h
  split at h
  · rename_i fallback hphase
    refine ⟨get, fallback, hg, hphase, ?_⟩
    split at h
    · rename_i hcfg
      split at h
      · rename_i i hi
        simp only [Option.bind_eq_some_iff] at h
        obtain ⟨joined, hjoined, h⟩ := h
        cases h
        exact .inl ⟨i, joined, hcfg, hi, hjoined, rfl⟩
      · cases h
        exact .inr ⟨_, .inl ⟨hcfg, ‹_›, rfl⟩, rfl⟩
    · rename_i hcfg
      cases h
      exact .inr ⟨_, .inr ⟨by simpa using hcfg, rfl⟩, rfl⟩
  · cases h

omit [DecidableEq K] in
theorem leave_phase (result fallback : Option (Answer V)) :
    (∃ answer, result.or fallback = some answer ∧
      (match result.or fallback with
        | some answer => GetPhase.done answer
        | none => .failed) = .done answer) ∨
    (result.or fallback = none ∧
      (match result.or fallback with
        | some answer => GetPhase.done answer
        | none => .failed) = .failed) := by
  cases h : result.or fallback with
  | none => exact .inr ⟨rfl, rfl⟩
  | some answer => exact .inl ⟨answer, rfl, rfl⟩

/-- A caller leaves with the task's answer or the fallback, or fails; the last one may take the
settled entry out of the map. -/
theorem leave_spec (h : s.leave g = some s') : ∃ get i fallback task result phase inFlight
    refreshes, s.gets g = some get ∧ get.phase = .waiting i fallback ∧ s.tasks i = some task ∧
      task.phase = .resolved result ∧
      ((∃ answer, result.or fallback = some answer ∧ phase = .done answer) ∨
        (result.or fallback = none ∧ phase = .failed)) ∧
      (inFlight = s.inFlight ∨ (task.references - 1 = 0 ∧ task.settled = true ∧
        s.inFlight task.key = some i ∧ inFlight = Function.update s.inFlight task.key none)) ∧
      s' = { (s.putTask i { task with references := task.references - 1 }).putGet g
        { get with phase } with inFlight, backgroundRefreshes := refreshes } := by
  simp only [leave, Option.bind_eq_bind, Option.bind_eq_some_iff] at h
  obtain ⟨get, hg, h⟩ := h
  split at h
  · rename_i i fallback hphase
    simp only [Option.bind_eq_some_iff] at h
    obtain ⟨task, htask, h⟩ := h
    split at h
    · rename_i result hres
      simp only [Option.some.injEq] at h
      subst h
      have hphase' := leave_phase result fallback
      have hor : ∀ phase : GetPhase V, phase = (match result.or fallback with
          | some answer => GetPhase.done answer
          | none => .failed) →
          (∃ answer, result.or fallback = some answer ∧ phase = .done answer) ∨
            (result.or fallback = none ∧ phase = .failed) := by
        rintro phase rfl
        exact hphase'.imp_left fun ⟨a, ha, he⟩ => ⟨a, ha, he⟩
      unfold release
      by_cases hc : task.references - 1 = 0 ∧ task.settled = true ∧
          s.inFlight task.key = some i
      · rw [if_pos hc]
        split
        · exact ⟨get, i, fallback, task, result, _, _, _, hg, hphase, htask, hres, hor _ rfl,
            .inr ⟨hc.1, hc.2.1, hc.2.2, rfl⟩, rfl⟩
        · exact ⟨get, i, fallback, task, result, _, _, s.backgroundRefreshes, hg, hphase, htask,
            hres, hor _ rfl, .inr ⟨hc.1, hc.2.1, hc.2.2, rfl⟩, rfl⟩
      · rw [if_neg hc]
        split
        · exact ⟨get, i, fallback, task, result, _, _, _, hg, hphase, htask, hres, hor _ rfl,
            .inl rfl, rfl⟩
        · exact ⟨get, i, fallback, task, result, _, _, s.backgroundRefreshes, hg, hphase, htask,
            hres, hor _ rfl, .inl rfl, rfl⟩
    · cases h
  · cases h

theorem recheck_spec (h : s.recheck cfg i = some s') : ∃ task missed, s.tasks i = some task ∧
    task.phase = .idle missed ∧ (missed = false ∨ cfg.singleFlightCoordinator = true) ∧
      s' = (s.openReader task.key .freshOnly).putTask i
        { task with phase := .rechecking s.clock } := by
  simp only [recheck, Option.bind_eq_bind, Option.bind_eq_some_iff] at h
  obtain ⟨task, htask, h⟩ := h
  split at h
  · rename_i missed hphase
    split at h <;> cases h
    rename_i hne
    refine ⟨task, missed, htask, hphase, ?_, rfl⟩
    cases missed <;> simp_all
  · cases h

omit [DecidableEq K] in
theorem rechecked_spec (h : s.rechecked i = some s') : ∃ task r reader phase,
    s.tasks i = some task ∧ task.phase = .rechecking r ∧ s.readers r = some reader ∧
      ((∃ hit, reader.phase = .done (some hit) ∧ phase = .resolved (some hit.answer)) ∨
        (reader.phase = .done none ∧ phase = .idle true) ∨
        (reader.phase = .failed ∧ phase = .resolved none)) ∧
      s' = s.putTask i { task with phase } := by
  simp only [rechecked, Option.bind_eq_bind, Option.bind_eq_some_iff] at h
  obtain ⟨task, htask, h⟩ := h
  split at h
  · rename_i r hphase
    simp only [Option.bind_eq_some_iff] at h
    obtain ⟨reader, hr, h⟩ := h
    split at h <;> cases h
    · exact ⟨task, r, reader, _, htask, hphase, hr, .inl ⟨_, ‹_›, rfl⟩, rfl⟩
    · exact ⟨task, r, reader, _, htask, hphase, hr, .inr (.inl ⟨‹_›, rfl⟩), rfl⟩
    · exact ⟨task, r, reader, _, htask, hphase, hr, .inr (.inr ⟨‹_›, rfl⟩), rfl⟩
  · cases h

omit [DecidableEq K] in
theorem fetch_spec (h : s.fetch cfg i = some s') : ∃ task missed, s.tasks i = some task ∧
    task.phase = .idle missed ∧ (missed = true ∨ cfg.singleFlightCoordinator = true) ∧
      s' = s.putTask i { task with phase := .fetching s.clock } := by
  simp only [fetch, Option.bind_eq_bind, Option.bind_eq_some_iff] at h
  obtain ⟨task, htask, h⟩ := h
  split at h
  · rename_i missed hphase
    split at h <;> cases h
    rename_i hor
    exact ⟨task, missed, htask, hphase, by simpa using hor, rfl⟩
  · cases h

/-- A fetcher run ends without a store, or its value is stored under the task's fence. -/
theorem fetched_spec {outcome : Outcome V T} (h : s.fetched cfg i outcome = some s') :
    ∃ task born, s.tasks i = some task ∧ task.phase = .fetching born ∧
      ((∃ result, (∀ a ∈ result, a.born = some born) ∧
        (∀ write tags, outcome = .store write tags → result = some ⟨write.answer, some born⟩ ∧
          s.store.epochs.isWriteOutdated task.key task.fence = true) ∧
        s' = s.putTask i { task with phase := .resolved result }) ∨
      (∃ write tags, outcome = .store write tags ∧
        s.store.epochs.isWriteOutdated task.key task.fence = false ∧
        s' = (s.storeEntry cfg task.key write tags task.fence task.captured born).putTask i
          { task with phase := .storing s.clock ⟨write.answer, some born⟩ })) := by
  simp only [fetched, Option.bind_eq_bind, Option.bind_eq_some_iff] at h
  obtain ⟨task, htask, h⟩ := h
  split at h
  · rename_i born hphase
    refine ⟨task, born, htask, hphase, ?_⟩
    cases outcome with
    | failed =>
      cases h
      exact .inl ⟨none, by simp, by simp, rfl⟩
    | uncached value =>
      cases h
      exact .inl ⟨_, by simp, by simp, rfl⟩
    | store write tags =>
      simp only at h
      split at h <;> cases h
      · rename_i hout
        refine .inl ⟨_, by simp, ?_, rfl⟩
        rintro _ _ ⟨⟩
        exact ⟨rfl, hout⟩
      · rename_i hout
        exact .inr ⟨write, tags, rfl, by simpa using hout, rfl⟩
  · cases h

omit [DecidableEq K] in
theorem stored_spec (h : s.stored i = some s') : ∃ task w answer writer, s.tasks i = some task ∧
    task.phase = .storing w answer ∧ s.writers w = some writer ∧ writer.phase = .done ∧
      s' = s.putTask i { task with phase := .resolved (some answer) } := by
  simp only [stored, Option.bind_eq_bind, Option.bind_eq_some_iff] at h
  obtain ⟨task, htask, h⟩ := h
  split at h
  · rename_i w answer hphase
    simp only [Option.bind_eq_some_iff] at h
    obtain ⟨writer, hw, h⟩ := h
    split at h <;> cases h
    exact ⟨task, w, answer, writer, htask, hphase, hw, ‹_›, rfl⟩
  · cases h

omit [DecidableEq K] in
theorem giveUp_spec (h : s.giveUp i = some s') : ∃ task missed, s.tasks i = some task ∧
    task.phase = .idle missed ∧ s' = s.putTask i { task with phase := .resolved none } := by
  simp only [giveUp, Option.bind_eq_bind, Option.bind_eq_some_iff] at h
  obtain ⟨task, htask, h⟩ := h
  split at h <;> cases h
  exact ⟨task, _, htask, ‹_›, rfl⟩

theorem settleTask_spec (h : s.settleTask i = some s') : ∃ task result inFlight,
    s.tasks i = some task ∧ task.phase = .resolved result ∧ task.settled = false ∧
      (inFlight = s.inFlight ∨ (task.references = 0 ∧ s.inFlight task.key = some i ∧
        inFlight = Function.update s.inFlight task.key none)) ∧
      s' = { s.putTask i { task with settled := true } with inFlight } := by
  simp only [settleTask, Option.bind_eq_bind, Option.bind_eq_some_iff] at h
  obtain ⟨task, htask, h⟩ := h
  split at h
  · rename_i hphase hsettled
    simp only [Option.some.injEq] at h
    subst h
    split
    · rename_i hc
      exact ⟨task, _, _, htask, hphase, hsettled, .inr ⟨hc.1, hc.2, rfl⟩, rfl⟩
    · exact ⟨task, _, s.inFlight, htask, hphase, hsettled, .inl rfl, rfl⟩
  · cases h

end Stack

end LayerCache
