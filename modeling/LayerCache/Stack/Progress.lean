import LayerCache.Stack.Links

/-! # How the records go on

After a step in which no layer fails, a reader, a `get` or a task is what it was, or it is
new, or the action has taken it on by one of the ways that are listed here.
-/

namespace LayerCache

variable {K V T : Type} {cfg : Config} {s s' : Stack K V T} {r g i : ℕ}

namespace Stack

inductive ReaderGoes (cfg : Config) (s : Stack K V T) (r : ℕ) (reader : Reader K V) :
    Action K V T → Reader K V → Prop
  | load (hphase : reader.phase = .ready) :
      ReaderGoes cfg s r reader (.read (.load r)) { reader with
        phase := .loaded
          (if s.degraded reader.index then none else s.store.visible reader.index reader.key) }
  | resume {reader' : Reader K V} (h : reader.Resumes cfg.layers s.store.now reader') :
      ReaderGoes cfg s r reader (.read (.resume r)) reader'
  | purge (hphase : reader.phase = .purging) :
      ReaderGoes cfg s r reader (.read (.purge r)) (reader.next cfg.layers)
  | backfill {hit : Hit V} (ttls : ℕ → Option Millis) (hphase : reader.phase = .touched hit) :
      ReaderGoes cfg s r reader (.read (.backfill r ttls))
        { reader with phase := .backfilling hit s.clock }
  | refuse {hit : Hit V} (hphase : reader.phase = .touched hit) :
      ReaderGoes cfg s r reader (.read (.refuse r)) { reader with phase := .failed }
  | hit (a : ReadAction K) {hit : Hit V}
      (hphase : reader.phase = .touched hit ∨ ∃ order, reader.phase = .backfilling hit order) :
      ReaderGoes cfg s r reader (.read a) { reader with phase := .done (some hit) }
  | unindex (hphase : reader.phase = .missed) :
      ReaderGoes cfg s r reader (.read (.unindex r)) { reader with phase := .done none }

theorem ReaderGoes.key {reader reader' : Reader K V} {a : Action K V T}
    (h : s.ReaderGoes cfg r reader a reader') : reader'.key = reader.key := by
  cases h with
  | resume hres => exact hres.same.1
  | purge => exact (reader.next_same cfg.layers).1
  | load | backfill | refuse | hit | unindex => rfl

variable [DecidableEq K]

theorem readers_getStep {a : GetAction K V T} (hs : s.getStep cfg a = some s')
    {reader : Reader K V} (hr : s'.readers r = some reader) :
    s.readers r = some reader ∨ (r = s.clock ∧ reader.phase = .ready) := by
  have hopen : ∀ {key : K} {mode : ReadMode}, (s.openReader key mode).readers r = some reader →
      s.readers r = some reader ∨ (r = s.clock ∧ reader.phase = .ready) := by
    intro key mode h
    rcases update_eq_some h with ⟨rfl, rfl⟩ | ⟨-, h⟩
    · exact .inr ⟨rfl, rfl⟩
    · exact .inl h
  cases a with
  | get key options =>
    cases hs
    exact hopen hr
  | conclude g =>
    obtain ⟨get, reader', -, -, -, hconcl⟩ := conclude_spec hs
    cases hconcl with
    | refresh hit =>
      obtain ⟨gets, refreshes, he⟩ := scheduleBackgroundRefresh_frame
        (s.putGet g { get with phase := .done hit.answer }) get.key get.options
      rw [he] at hr
      exact .inl hr
    | failed | miss | absent | fresh | stale | staleIfError | fallback => exact .inl hr
  | slide g =>
    obtain ⟨get, answer, todo, stored, ttl, ahead, -, -, ⟨-, rfl | ⟨-, rfl⟩⟩ |
      ⟨l, rest, -, rfl | rfl⟩⟩ := slide_spec hs
    · exact .inl hr
    · obtain ⟨gets, refreshes, he⟩ := scheduleBackgroundRefresh_frame
        (s.putGet g { get with phase := .done answer }) get.key get.options
      rw [he] at hr
      exact .inl hr
    · exact .inl hr
    · exact .inl hr
  | enter g =>
    obtain ⟨get, fallback, -, -, ⟨i, joined, -, -, -, rfl⟩ | ⟨inFlight, -, rfl⟩⟩ :=
      enter_spec hs <;> exact .inl hr
  | leave g =>
    obtain ⟨get, i, fallback, task, result, phase, inFlight, refreshes, -, -, -, -, -, -, rfl⟩ :=
      leave_spec hs
    exact .inl hr
  | recheck i =>
    obtain ⟨task, missed, -, -, -, rfl⟩ := recheck_spec hs
    exact hopen hr
  | rechecked i =>
    obtain ⟨task, r', reader', phase, -, -, -, -, rfl⟩ := rechecked_spec hs
    exact .inl hr
  | fetch i =>
    obtain ⟨task, missed, -, -, -, rfl⟩ := fetch_spec hs
    exact .inl hr
  | fetched i outcome =>
    obtain ⟨task, b, -, -, ⟨result, -, -, rfl⟩ | ⟨write, tags, -, -, rfl⟩⟩ := fetched_spec hs <;>
      exact .inl hr
  | stored i =>
    obtain ⟨task, w, answer, writer, -, -, -, -, rfl⟩ := stored_spec hs
    exact .inl hr
  | giveUp i =>
    obtain ⟨task, missed, -, -, rfl⟩ := giveUp_spec hs
    exact .inl hr
  | settle i =>
    obtain ⟨task, result, inFlight, -, -, -, -, rfl⟩ := settleTask_spec hs
    exact .inl hr

theorem readers_act [DecidableEq T] {a : Action K V T} (hok : s.Healthy a)
    (hs : s.act cfg a = some s') {reader' : Reader K V} (hr : s'.readers r = some reader') :
    s.readers r = some reader' ∨ (r = s.clock ∧ reader'.phase = .ready) ∨
      ∃ reader, s.readers r = some reader ∧ s.ReaderGoes cfg r reader a reader' := by
  have hput : ∀ {r₀ : ℕ} {reader₀ reader₁ : Reader K V}, s.readers r₀ = some reader₀ →
      s.ReaderGoes cfg r₀ reader₀ a reader₁ →
      Function.update s.readers r₀ (some reader₁) r = some reader' →
      s.readers r = some reader' ∨ (r = s.clock ∧ reader'.phase = .ready) ∨
        ∃ reader, s.readers r = some reader ∧ s.ReaderGoes cfg r reader a reader' := by
    intro r₀ reader₀ reader₁ hr₀ hgoes h
    rcases update_eq_some h with ⟨rfl, rfl⟩ | ⟨-, h⟩
    · exact .inr (.inr ⟨reader₀, hr₀, hgoes⟩)
    · exact .inl h
  cases a with
  | fault a => cases hok
  | store a =>
    obtain ⟨store, -, rfl⟩ := storeStep_spec hs
    exact .inl hr
  | write a =>
    obtain ⟨writers, index, store, queue, flushing, outbox, rfl⟩ := writeStep_frame hs
    exact .inl hr
  | invalidate a =>
    obtain ⟨invs, index, store, queue, outbox, rfl⟩ := invalidateStep_frame hs
    exact .inl hr
  | get a => exact (readers_getStep hs hr).imp_right .inl
  | read a =>
    cases a with
    | read key =>
      cases hs
      rcases update_eq_some hr with ⟨rfl, rfl⟩ | ⟨-, hr⟩
      · exact .inr (.inl ⟨rfl, rfl⟩)
      · exact .inl hr
    | load r =>
      obtain ⟨reader, hr₀, hphase, rfl⟩ := load_spec hs
      exact hput hr₀ (.load hphase) hr
    | resume r =>
      obtain ⟨reader, reader₁, index, hr₀, hres, -, rfl⟩ := resume_spec hs
      exact hput hr₀ (.resume hres) hr
    | purge r =>
      obtain ⟨reader, hr₀, hphase, rfl⟩ := purge_spec hs
      exact hput hr₀ (.purge hphase) hr
    | backfill r ttls =>
      obtain ⟨reader, hit, hr₀, hphase, ⟨-, rfl⟩ | ⟨-, rfl⟩⟩ := backfill_spec hs
      · exact hput hr₀ (.hit _ (.inl hphase)) hr
      · exact hput hr₀ (.backfill ttls hphase) hr
    | refuse r =>
      obtain ⟨reader, hit, hr₀, hphase, rfl⟩ := refuse_spec hs
      exact hput hr₀ (.refuse hphase) hr
    | backfilled r =>
      obtain ⟨reader, hit, order, hr₀, hphase, -, rfl⟩ := backfilled_spec hs
      exact hput hr₀ (.hit _ (.inr ⟨order, hphase⟩)) hr
    | unindex r =>
      obtain ⟨reader, hr₀, hphase, rfl⟩ := unindex_spec hs
      exact hput hr₀ (.unindex hphase) hr

/-- How a `get` goes on to its next phase. -/
inductive GetGoes (s : Stack K V T) (g : ℕ) (get : Get K V) : Action K V T → GetPhase V → Prop
  | failed {reader : Reader K V} (hphase : get.phase = .reading) (hr : s.readers g = some reader)
      (h : reader.phase = .failed) : GetGoes s g get (.get (.conclude g)) .failed
  | miss {reader : Reader K V} (hphase : get.phase = .reading) (hr : s.readers g = some reader)
      (h : reader.phase = .done none) (hfetcher : get.options.hasFetcher = true) :
      GetGoes s g get (.get (.conclude g)) (.entering none)
  | absent {reader : Reader K V} (hphase : get.phase = .reading) (hr : s.readers g = some reader)
      (h : reader.phase = .done none) (hfetcher : get.options.hasFetcher = false) :
      GetGoes s g get (.get (.conclude g)) (.done ⟨.undefined, none⟩)
  | fresh {reader : Reader K V} (hphase : get.phase = .reading) (hr : s.readers g = some reader)
      (hit : Hit V) (h : reader.phase = .done (some hit)) (hstate : hit.state = .fresh)
      (todo : List ℕ) (stored : Item V) (ttl : Option Millis) (ahead : Bool)
      (htodo : todo = [] ∨ (refreshedStored s.store.now hit.item get.options.slidingTtl =
        some (stored, ttl) ∧ todo = List.range (hit.layerIndex + 1))) :
      GetGoes s g get (.get (.conclude g)) (.sliding hit.answer todo stored ttl ahead)
  | stale {reader : Reader K V} (hphase : get.phase = .reading) (hr : s.readers g = some reader)
      (hit : Hit V) (h : reader.phase = .done (some hit)) (hstate : hit.state ≠ .fresh)
      (phase : GetPhase V) : GetGoes s g get (.get (.conclude g)) phase
  | slid {answer : Answer V} {stored : Item V} {ttl : Option Millis} {ahead : Bool}
      (hphase : get.phase = .sliding answer [] stored ttl ahead) :
      GetGoes s g get (.get (.slide g)) (.done answer)
  | slide {answer : Answer V} {l : ℕ} {rest : List ℕ} {stored : Item V} {ttl : Option Millis}
      {ahead : Bool} (hphase : get.phase = .sliding answer (l :: rest) stored ttl ahead) :
      GetGoes s g get (.get (.slide g)) (.sliding answer rest stored ttl ahead)
  | enter {fallback : Option (Answer V)} (i : ℕ) (hphase : get.phase = .entering fallback) :
      GetGoes s g get (.get (.enter g)) (.waiting i fallback)
  | leave {i : ℕ} {fallback : Option (Answer V)} {task : Task K V} {result : Option (Answer V)}
      {phase : GetPhase V} (hphase : get.phase = .waiting i fallback)
      (hi : s.tasks i = some task) (hresult : task.phase = .resolved result)
      (hanswer : ∀ answer, result.or fallback = some answer → phase = .done answer) :
      GetGoes s g get (.get (.leave g)) phase

theorem gets_getStep {a : GetAction K V T} (hs : s.getStep cfg a = some s') {get' : Get K V}
    (hg : s'.gets g = some get') :
    s.gets g = some get' ∨ (g = s.clock ∧ (get'.phase = .reading ∨ get'.phase = .entering none)) ∨
      ∃ get phase, s.gets g = some get ∧ get' = { get with phase } ∧
        s.GetGoes g get (.get a) phase := by
  have hput : ∀ {g₀ : ℕ} {get₀ : Get K V} {phase : GetPhase V}, s.gets g₀ = some get₀ →
      s.GetGoes g₀ get₀ (.get a) phase →
      Function.update s.gets g₀ (some { get₀ with phase }) g = some get' →
      s.gets g = some get' ∨
        (g = s.clock ∧ (get'.phase = .reading ∨ get'.phase = .entering none)) ∨
        ∃ get phase, s.gets g = some get ∧ get' = { get with phase } ∧
          s.GetGoes g get (.get a) phase := by
    intro g₀ get₀ phase hg₀ hgoes h
    rcases update_eq_some h with ⟨rfl, rfl⟩ | ⟨-, h⟩
    · exact .inr (.inr ⟨get₀, phase, hg₀, rfl, hgoes⟩)
    · exact .inl h
  have hschedule : ∀ {g₀ : ℕ} {get₁ : Get K V} {key : K} {options : GetOptions},
      ((s.putGet g₀ get₁).scheduleBackgroundRefresh key options).gets g = some get' →
      (s.putGet g₀ get₁).gets g = some get' ∨ (g = s.clock ∧ get'.phase = .entering none) := by
    intro g₀ get₁ key options h
    rcases scheduleBackgroundRefresh_cases (s.putGet g₀ get₁) key options with he | ⟨-, he⟩ <;>
      rw [he] at h
    · exact .inl h
    · rcases update_eq_some h with ⟨rfl, rfl⟩ | ⟨-, h⟩
      · exact .inr ⟨rfl, rfl⟩
      · exact .inl h
  cases a with
  | get key options =>
    cases hs
    rcases update_eq_some hg with ⟨rfl, rfl⟩ | ⟨-, hg⟩
    · exact .inr (.inl ⟨rfl, .inl rfl⟩)
    · exact .inl hg
  | conclude g₀ =>
    obtain ⟨get₀, reader, hg₀, hr, hphase, hconcl⟩ := conclude_spec hs
    cases hconcl with
    | failed h => exact hput hg₀ (.failed hphase hr h) hg
    | miss h hfetcher => exact hput hg₀ (.miss hphase hr h hfetcher) hg
    | absent h hfetcher => exact hput hg₀ (.absent hphase hr h hfetcher) hg
    | fresh hit h hstate todo stored ttl ahead htodo =>
      exact hput hg₀ (.fresh hphase hr hit h hstate todo stored ttl ahead htodo) hg
    | stale hit h hstate => exact hput hg₀ (.stale hphase hr hit h (by simp [hstate]) _) hg
    | refresh hit h hstate =>
      rcases hschedule hg with hg | ⟨rfl, hnew⟩
      · exact hput hg₀ (.stale hphase hr hit h (by simp [hstate]) _) hg
      · exact .inr (.inl ⟨rfl, .inr hnew⟩)
    | staleIfError hit h hstate => exact hput hg₀ (.stale hphase hr hit h hstate _) hg
    | fallback hit h hstate => exact hput hg₀ (.stale hphase hr hit h hstate _) hg
  | slide g₀ =>
    obtain ⟨get₀, answer, todo, stored, ttl, ahead, hg₀, hphase, ⟨rfl, rfl | ⟨-, rfl⟩⟩ |
      ⟨l, rest, rfl, rfl | rfl⟩⟩ := slide_spec hs
    · exact hput hg₀ (.slid hphase) hg
    · rcases hschedule hg with hg | ⟨rfl, hnew⟩
      · exact hput hg₀ (.slid hphase) hg
      · exact .inr (.inl ⟨rfl, .inr hnew⟩)
    · exact hput hg₀ (.slide hphase) hg
    · exact hput hg₀ (.slide hphase) hg
  | enter g₀ =>
    obtain ⟨get₀, fallback, hg₀, hphase, ⟨i, joined, -, -, -, rfl⟩ | ⟨inFlight, -, rfl⟩⟩ :=
      enter_spec hs
    · exact hput hg₀ (.enter i hphase) hg
    · exact hput hg₀ (.enter s.clock hphase) hg
  | leave g₀ =>
    obtain ⟨get₀, i, fallback, task, result, phase, inFlight, refreshes, hg₀, hphase, hi, hresult,
      hanswer, -, rfl⟩ := leave_spec hs
    refine hput hg₀ (.leave hphase hi hresult ?_) hg
    intro answer hor
    rcases hanswer with ⟨answer', hor', rfl⟩ | ⟨hnone, -⟩
    · rw [Option.some.inj (hor.symm.trans hor')]
    · cases hor.symm.trans hnone
  | recheck i =>
    obtain ⟨task, missed, -, -, -, rfl⟩ := recheck_spec hs
    exact .inl hg
  | rechecked i =>
    obtain ⟨task, r', reader', phase, -, -, -, -, rfl⟩ := rechecked_spec hs
    exact .inl hg
  | fetch i =>
    obtain ⟨task, missed, -, -, -, rfl⟩ := fetch_spec hs
    exact .inl hg
  | fetched i outcome =>
    obtain ⟨task, b, -, -, ⟨result, -, -, rfl⟩ | ⟨write, tags, -, -, rfl⟩⟩ := fetched_spec hs <;>
      exact .inl hg
  | stored i =>
    obtain ⟨task, w, answer, writer, -, -, -, -, rfl⟩ := stored_spec hs
    exact .inl hg
  | giveUp i =>
    obtain ⟨task, missed, -, -, rfl⟩ := giveUp_spec hs
    exact .inl hg
  | settle i =>
    obtain ⟨task, result, inFlight, -, -, -, -, rfl⟩ := settleTask_spec hs
    exact .inl hg

theorem gets_act [DecidableEq T] {a : Action K V T} (hok : s.Healthy a)
    (hs : s.act cfg a = some s') {get' : Get K V} (hg : s'.gets g = some get') :
    s.gets g = some get' ∨ (g = s.clock ∧ (get'.phase = .reading ∨ get'.phase = .entering none)) ∨
      ∃ get phase, s.gets g = some get ∧ get' = { get with phase } ∧ s.GetGoes g get a phase := by
  cases a with
  | fault a => cases hok
  | store a =>
    obtain ⟨store, -, rfl⟩ := storeStep_spec hs
    exact .inl hg
  | read a =>
    obtain ⟨readers, index, store, rfl⟩ := readStep_frame hs
    exact .inl hg
  | write a =>
    obtain ⟨writers, index, store, queue, flushing, outbox, rfl⟩ := writeStep_frame hs
    exact .inl hg
  | invalidate a =>
    obtain ⟨invs, index, store, queue, outbox, rfl⟩ := invalidateStep_frame hs
    exact .inl hg
  | get a => exact gets_getStep hs hg

inductive TaskGoes (cfg : Config) (s : Stack K V T) (i : ℕ) (task : Task K V) :
    Action K V T → Task K V → Prop
  | join (g : ℕ) :
      TaskGoes cfg s i task (.get (.enter g)) { task with references := task.references + 1 }
  | left (g : ℕ) :
      TaskGoes cfg s i task (.get (.leave g)) { task with references := task.references - 1 }
  | recheck {missed : Bool} (hphase : task.phase = .idle missed)
      (hmissed : missed = false ∨ cfg.singleFlightCoordinator = true) :
      TaskGoes cfg s i task (.get (.recheck i)) { task with phase := .rechecking s.clock }
  | found {r : ℕ} {reader : Reader K V} {hit : Hit V} (hphase : task.phase = .rechecking r)
      (hr : s.readers r = some reader) (h : reader.phase = .done (some hit)) :
      TaskGoes cfg s i task (.get (.rechecked i))
        { task with phase := .resolved (some hit.answer) }
  | missed {r : ℕ} {reader : Reader K V} (hphase : task.phase = .rechecking r)
      (hr : s.readers r = some reader) (h : reader.phase = .done none) :
      TaskGoes cfg s i task (.get (.rechecked i)) { task with phase := .idle true }
  | failed {r : ℕ} {reader : Reader K V} (hphase : task.phase = .rechecking r)
      (hr : s.readers r = some reader) (h : reader.phase = .failed) :
      TaskGoes cfg s i task (.get (.rechecked i)) { task with phase := .resolved none }
  | fetch {missed : Bool} (hphase : task.phase = .idle missed)
      (hmissed : missed = true ∨ cfg.singleFlightCoordinator = true) :
      TaskGoes cfg s i task (.get (.fetch i)) { task with phase := .fetching s.clock }
  | fetched {born : ℕ} (outcome : Outcome V T) (result : Option (Answer V))
      (hphase : task.phase = .fetching born)
      (houtdated : ∀ write tags, outcome = .store write tags →
        s.store.epochs.isWriteOutdated task.key task.fence = true) :
      TaskGoes cfg s i task (.get (.fetched i outcome)) { task with phase := .resolved result }
  | store {born : ℕ} (write : WriteValue V) (tags : Option (List T))
      (hphase : task.phase = .fetching born)
      (hcurrent : s.store.epochs.isWriteOutdated task.key task.fence = false) :
      TaskGoes cfg s i task (.get (.fetched i (.store write tags)))
        { task with phase := .storing s.clock ⟨write.answer, some born⟩ }
  | stored {w : ℕ} {answer : Answer V} {writer : Writer K V T}
      (hphase : task.phase = .storing w answer) (hw : s.writers w = some writer)
      (h : writer.phase = .done) :
      TaskGoes cfg s i task (.get (.stored i)) { task with phase := .resolved (some answer) }
  | giveUp {missed : Bool} (hphase : task.phase = .idle missed) :
      TaskGoes cfg s i task (.get (.giveUp i)) { task with phase := .resolved none }
  | settle {result : Option (Answer V)} (hphase : task.phase = .resolved result) :
      TaskGoes cfg s i task (.get (.settle i)) { task with settled := true }

theorem TaskGoes.key {task task' : Task K V} {a : Action K V T}
    (h : s.TaskGoes cfg i task a task') : task'.key = task.key := by
  cases h <;> rfl

/-- The tasks after a step: at most one is new or goes on. -/
inductive TasksGo (cfg : Config) (s : Stack K V T) (a : Action K V T) :
    (ℕ → Option (Task K V)) → Prop
  | same : TasksGo cfg s a s.tasks
  | new (get : Get K V) (g : ℕ) :
      TasksGo cfg s a (Function.update s.tasks s.clock (some (newTask get g)))
  | go (i : ℕ) {task task' : Task K V} (hi : s.tasks i = some task)
      (h : s.TaskGoes cfg i task a task') :
      TasksGo cfg s a (Function.update s.tasks i (some task'))

theorem tasksGo_getStep {a : GetAction K V T} (hs : s.getStep cfg a = some s') :
    s.TasksGo cfg (.get a) s'.tasks := by
  cases a with
  | get key options => cases hs; exact .same
  | conclude g =>
    obtain ⟨get, reader, -, -, -, hconcl⟩ := conclude_spec hs
    cases hconcl with
    | refresh hit =>
      obtain ⟨gets, refreshes, he⟩ := scheduleBackgroundRefresh_frame
        (s.putGet g { get with phase := .done hit.answer }) get.key get.options
      rw [he]
      exact .same
    | failed | miss | absent | fresh | stale | staleIfError | fallback => exact .same
  | slide g =>
    obtain ⟨get, answer, todo, stored, ttl, ahead, -, -, ⟨-, rfl | ⟨-, rfl⟩⟩ |
      ⟨l, rest, -, rfl | rfl⟩⟩ := slide_spec hs
    · exact .same
    · obtain ⟨gets, refreshes, he⟩ := scheduleBackgroundRefresh_frame
        (s.putGet g { get with phase := .done answer }) get.key get.options
      rw [he]
      exact .same
    · exact .same
    · exact .same
  | enter g =>
    obtain ⟨get, fallback, -, -, ⟨i, joined, -, -, hi, rfl⟩ | ⟨inFlight, -, rfl⟩⟩ :=
      enter_spec hs
    · exact .go i hi (.join g)
    · exact .new get g
  | leave g =>
    obtain ⟨get, i, fallback, task, result, phase, inFlight, refreshes, -, -, hi, -, -, -, rfl⟩ :=
      leave_spec hs
    exact .go i hi (.left g)
  | recheck i =>
    obtain ⟨task, missed, hi, hphase, hmissed, rfl⟩ := recheck_spec hs
    exact .go i hi (.recheck hphase hmissed)
  | rechecked i =>
    obtain ⟨task, r, reader, phase, hi, hphase, hr, ⟨hit, h, rfl⟩ | ⟨h, rfl⟩ | ⟨h, rfl⟩, rfl⟩ :=
      rechecked_spec hs
    · exact .go i hi (.found hphase hr h)
    · exact .go i hi (.missed hphase hr h)
    · exact .go i hi (.failed hphase hr h)
  | fetch i =>
    obtain ⟨task, missed, hi, hphase, hmissed, rfl⟩ := fetch_spec hs
    exact .go i hi (.fetch hphase hmissed)
  | fetched i outcome =>
    obtain ⟨task, born, hi, hphase, ⟨result, -, hstore, rfl⟩ | ⟨write, tags, rfl, hout, rfl⟩⟩ :=
      fetched_spec hs
    · exact .go i hi (.fetched outcome result hphase fun write tags he => (hstore write tags he).2)
    · exact .go i hi (.store write tags hphase hout)
  | stored i =>
    obtain ⟨task, w, answer, writer, hi, hphase, hw, h, rfl⟩ := stored_spec hs
    exact .go i hi (.stored hphase hw h)
  | giveUp i =>
    obtain ⟨task, missed, hi, hphase, rfl⟩ := giveUp_spec hs
    exact .go i hi (.giveUp hphase)
  | settle i =>
    obtain ⟨task, result, inFlight, hi, hphase, -, -, rfl⟩ := settleTask_spec hs
    exact .go i hi (.settle hphase)

theorem tasksGo_act [DecidableEq T] {a : Action K V T} (hok : s.Healthy a)
    (hs : s.act cfg a = some s') : s.TasksGo cfg a s'.tasks := by
  cases a with
  | fault a => cases hok
  | store a => obtain ⟨store, -, rfl⟩ := storeStep_spec hs; exact .same
  | read a => obtain ⟨readers, index, store, rfl⟩ := readStep_frame hs; exact .same
  | write a =>
    obtain ⟨writers, index, store, queue, flushing, outbox, rfl⟩ := writeStep_frame hs
    exact .same
  | invalidate a =>
    obtain ⟨invs, index, store, queue, outbox, rfl⟩ := invalidateStep_frame hs
    exact .same
  | get a => exact tasksGo_getStep hs

theorem TasksGo.back {a : Action K V T} {tasks : ℕ → Option (Task K V)} {task' : Task K V}
    (h : s.TasksGo cfg a tasks) (hi : tasks i = some task') :
    s.tasks i = some task' ∨ (i = s.clock ∧ ∃ get g, task' = newTask get g) ∨
      ∃ task, s.tasks i = some task ∧ s.TaskGoes cfg i task a task' := by
  cases h with
  | same => exact .inl hi
  | new get g =>
    rcases update_eq_some hi with ⟨rfl, rfl⟩ | ⟨-, hi⟩
    · exact .inr (.inl ⟨rfl, get, g, rfl⟩)
    · exact .inl hi
  | go j hj h =>
    rcases update_eq_some hi with ⟨rfl, rfl⟩ | ⟨-, hi⟩
    · exact .inr (.inr ⟨_, hj, h⟩)
    · exact .inl hi

theorem TasksGo.kept {a : Action K V T} {tasks : ℕ → Option (Task K V)} {task : Task K V}
    (h : s.TasksGo cfg a tasks) (hlt : i < s.clock) (hi : s.tasks i = some task) :
    ∃ task', tasks i = some task' ∧ (task' = task ∨ s.TaskGoes cfg i task a task') := by
  cases h with
  | same => exact ⟨task, hi, .inl rfl⟩
  | new get g => exact ⟨task, by simp [hlt.ne, hi], .inl rfl⟩
  | go j hj h =>
    by_cases hij : i = j
    · subst hij
      obtain rfl := Option.some.inj (hi.symm.trans hj)
      exact ⟨_, Function.update_self .., .inr h⟩
    · exact ⟨task, by simp [hij, hi], .inl rfl⟩

theorem writers_act [DecidableEq T] {a : Action K V T} (hok : s.Healthy a)
    (hs : s.act cfg a = some s') {w : ℕ} {writer' : Writer K V T}
    (hw : s'.writers w = some writer') (hphase : writer'.phase ≠ .storing) :
    (∃ writer, s.writers w = some writer ∧ writer.phase ≠ .storing) ∨
      s.store.chain.settledAt w = true := by
  have hput : ∀ {w₀ : ℕ} {writer₀ writer₁ : Writer K V T}, s.writers w₀ = some writer₀ →
      (writer₀.phase = .storing → s.store.chain.settledAt w₀ = true) →
      Function.update s.writers w₀ (some writer₁) w = some writer' →
      (∃ writer, s.writers w = some writer ∧ writer.phase ≠ .storing) ∨
        s.store.chain.settledAt w = true := by
    intro w₀ writer₀ writer₁ hw₀ hstoring h
    rcases update_eq_some h with ⟨rfl, rfl⟩ | ⟨-, h⟩
    · by_cases hp : writer₀.phase = .storing
      · exact .inr (hstoring hp)
      · exact .inl ⟨writer₀, hw₀, hp⟩
    · exact .inl ⟨writer', h, hphase⟩
  have hnew : ∀ {writer₁ : Writer K V T}, writer₁.phase = .storing →
      Function.update s.writers s.clock (some writer₁) w = some writer' →
      (∃ writer, s.writers w = some writer ∧ writer.phase ≠ .storing) ∨
        s.store.chain.settledAt w = true := by
    intro writer₁ hstoring h
    rcases update_eq_some h with ⟨rfl, rfl⟩ | ⟨-, h⟩
    · exact absurd hstoring hphase
    · exact .inl ⟨writer', h, hphase⟩
  cases a with
  | fault a => cases hok
  | store a =>
    obtain ⟨store, -, rfl⟩ := storeStep_spec hs
    exact .inl ⟨writer', hw, hphase⟩
  | read a =>
    obtain ⟨readers, index, store, rfl⟩ := readStep_frame hs
    exact .inl ⟨writer', hw, hphase⟩
  | invalidate a =>
    obtain ⟨invs, index, store, queue, outbox, rfl⟩ := invalidateStep_frame hs
    exact .inl ⟨writer', hw, hphase⟩
  | get a =>
    obtain ⟨readers, writers, gets, tasks, inFlight, refreshes, store, hwriters, rfl⟩ :=
      getStep_frame hs
    rcases hwriters with rfl | ⟨i, outcome, rfl⟩
    · exact .inl ⟨writer', hw, hphase⟩
    obtain ⟨task, born, -, -, ⟨result, -, -, he⟩ | ⟨write, tags, -, -, he⟩⟩ := fetched_spec hs
    · rw [he] at hw
      exact .inl ⟨writer', hw, hphase⟩
    · rw [he] at hw
      exact hnew rfl hw
  | write a =>
    cases a with
    | set key write tags =>
      cases hs
      exact hnew rfl hw
    | mset entries =>
      cases hs
      exact hnew rfl hw
    | enqueue w₀ =>
      obtain ⟨writer₀, hw₀, -, hsettled, rfl⟩ := enqueue_spec hs
      exact hput hw₀ (fun _ => hsettled) hw
    | verify w₀ =>
      obtain ⟨writer₀, order, phase, hw₀, -, hp, -, -, rfl⟩ := verify_spec hs
      exact hput hw₀ (by simp [hp]) hw
    | track w₀ =>
      obtain ⟨writer₀, hw₀, ⟨hp, rfl⟩ | ⟨entry, rest, hp, -, rfl⟩ | ⟨entry, rest, hp, -, rfl⟩⟩ :=
        track_spec hs <;> exact hput hw₀ (by simp [hp]) hw
    | announce w₀ =>
      obtain ⟨writer₀, outbox, hw₀, hp, -, rfl⟩ := announce_spec hs
      exact hput hw₀ (by simp [hp]) hw
    | flush =>
      obtain ⟨-, rfl⟩ := flush_spec hs
      exact .inl ⟨writer', hw, hphase⟩
    | flushNext =>
      obtain ⟨batch, running, -, -, ⟨-, rfl⟩ | ⟨d, rest, -, rfl⟩⟩ := flushNext_spec hs <;>
        exact .inl ⟨writer', hw, hphase⟩

/-- A task that is not settled is the one in flight for its key, and a settled one is resolved. -/
structure Guarded (s : Stack K V T) : Prop where
  inFlight : ∀ i task, s.tasks i = some task → task.settled = false →
    s.inFlight task.key = some i
  resolved : ∀ i task, s.tasks i = some task → task.settled = true →
    ∃ result, task.phase = .resolved result

variable {task task' : Task K V} {j : ℕ}

omit [DecidableEq K] in
theorem Guarded.congr (h : s.Guarded) (hi : s'.tasks = s.tasks) (hf : s'.inFlight = s.inFlight) :
    s'.Guarded where
  inFlight := by rw [hi, hf]; exact h.inFlight
  resolved := by rw [hi]; exact h.resolved

omit [DecidableEq K] in
/-- No two tasks of a key are under way. -/
theorem Guarded.unique (h : s.Guarded) (hi : s.tasks i = some task) (hj : s.tasks j = some task')
    (hkey : task.key = task'.key) (hunresolved : ∀ result, task.phase ≠ .resolved result)
    (hunresolved' : ∀ result, task'.phase ≠ .resolved result) : i = j := by
  have hunsettled : ∀ {i : ℕ} {task : Task K V}, s.tasks i = some task →
      (∀ result, task.phase ≠ .resolved result) → s.inFlight task.key = some i := by
    intro i task hi hne
    apply h.inFlight i task hi
    by_contra hsettled
    obtain ⟨result, hresult⟩ := h.resolved i task hi (by simpa using hsettled)
    exact hne result hresult
  have hin := hunsettled hi hunresolved
  rw [hkey, hunsettled hj hunresolved'] at hin
  exact (Option.some.inj hin).symm

omit [DecidableEq K] in
theorem Guarded.putTask (h : s.Guarded) (hi : s.tasks i = some task) (hkey : task'.key = task.key)
    (hunsettled : task'.settled = false → task.settled = false)
    (hresolved : task'.settled = true → ∃ result, task'.phase = .resolved result) :
    (s.putTask i task').Guarded := by
  constructor
  · intro j x hx hsettled
    rcases update_eq_some hx with ⟨rfl, rfl⟩ | ⟨-, hx⟩
    · exact hkey ▸ h.inFlight j task hi (hunsettled hsettled)
    · exact h.inFlight j x hx hsettled
  · intro j x hx hsettled
    rcases update_eq_some hx with ⟨rfl, rfl⟩ | ⟨-, hx⟩
    · exact hresolved hsettled
    · exact h.resolved j x hx hsettled

omit [DecidableEq K] in
theorem Guarded.phase (h : s.Guarded) (hi : s.tasks i = some task)
    (hunresolved : ∀ result, task.phase ≠ .resolved result) (phase : TaskPhase V) :
    (s.putTask i { task with phase }).Guarded := by
  refine h.putTask hi rfl id fun hsettled => ?_
  obtain ⟨result, hresult⟩ := h.resolved i task hi hsettled
  exact absurd hresult (hunresolved result)

theorem Guarded.forget (h : s.Guarded) (hi : s.tasks i = some task) (hsettled : task.settled = true)
    (hin : s.inFlight task.key = some i) :
    ({ s with inFlight := Function.update s.inFlight task.key none } : Stack K V T).Guarded := by
  refine ⟨fun j x hj hx => ?_, h.resolved⟩
  have hflight := h.inFlight j x hj hx
  by_cases hk : x.key = task.key
  · rw [hk, hin] at hflight
    cases hflight
    rw [Option.some.inj (hi.symm.trans hj), hx] at hsettled
    cases hsettled
  · simpa [hk] using hflight

theorem Guarded.getStep (h : s.Guarded) (hcfg : cfg.stampedePrevention = true)
    {a : GetAction K V T} (hs : s.getStep cfg a = some s') : s'.Guarded := by
  cases a with
  | get key options =>
    cases hs
    exact h.congr rfl rfl
  | conclude g =>
    obtain ⟨get, reader, -, -, -, hconcl⟩ := conclude_spec hs
    cases hconcl with
    | refresh hit =>
      obtain ⟨gets, refreshes, he⟩ := scheduleBackgroundRefresh_frame
        (s.putGet g { get with phase := .done hit.answer }) get.key get.options
      rw [he]
      exact h.congr rfl rfl
    | failed | miss | absent | fresh | stale | staleIfError | fallback => exact h.congr rfl rfl
  | slide g =>
    obtain ⟨get, answer, todo, stored, ttl, ahead, -, -, ⟨-, rfl | ⟨-, rfl⟩⟩ |
      ⟨l, rest, -, rfl | rfl⟩⟩ := slide_spec hs
    · exact h.congr rfl rfl
    · obtain ⟨gets, refreshes, he⟩ := scheduleBackgroundRefresh_frame
        (s.putGet g { get with phase := .done answer }) get.key get.options
      rw [he]
      exact h.congr rfl rfl
    · exact h.congr rfl rfl
    · exact h.congr rfl rfl
  | enter g =>
    obtain ⟨get, fallback, hg, -, ⟨i, joined, -, -, hi, rfl⟩ | ⟨inFlight, hin, rfl⟩⟩ :=
      enter_spec hs
    · have hput : (s.putTask i { joined with references := joined.references + 1 }).Guarded :=
        h.putTask hi rfl id (h.resolved i joined hi)
      exact hput.congr rfl rfl
    · obtain ⟨hnone, rfl⟩ : s.inFlight get.key = none ∧
          inFlight = Function.update s.inFlight get.key (some s.clock) := by
        rcases hin with ⟨-, hnone, rfl⟩ | ⟨hfalse, -⟩
        · exact ⟨hnone, rfl⟩
        · simp [hcfg] at hfalse
      constructor
      · intro i x hx hsettled
        rcases update_eq_some hx with ⟨rfl, rfl⟩ | ⟨-, hx⟩
        · exact Function.update_self ..
        · have hflight := h.inFlight i x hx hsettled
          by_cases hk : x.key = get.key
          · rw [hk, hnone] at hflight
            cases hflight
          · simpa [hk] using hflight
      · intro i x hx hsettled
        rcases update_eq_some hx with ⟨rfl, rfl⟩ | ⟨-, hx⟩
        · cases hsettled
        · exact h.resolved i x hx hsettled
  | leave g =>
    obtain ⟨get, i, fallback, task, result, phase, inFlight, refreshes, -, -, hi, hresult, -, hin,
      rfl⟩ := leave_spec hs
    have hput : (s.putTask i { task with references := task.references - 1 }).Guarded :=
      h.putTask hi rfl id (h.resolved i task hi)
    rcases hin with rfl | ⟨-, hsettled, hin, rfl⟩
    · exact hput.congr rfl rfl
    · have hforget := hput.forget (Function.update_self ..) hsettled hin
      exact hforget.congr rfl rfl
  | recheck i =>
    obtain ⟨task, missed, hi, hphase, -, rfl⟩ := recheck_spec hs
    exact (h.phase hi (by simp [hphase]) (.rechecking s.clock)).congr rfl rfl
  | rechecked i =>
    obtain ⟨task, r, reader, phase, hi, hphase, -, -, rfl⟩ := rechecked_spec hs
    exact h.phase hi (by simp [hphase]) phase
  | fetch i =>
    obtain ⟨task, missed, hi, hphase, -, rfl⟩ := fetch_spec hs
    exact h.phase hi (by simp [hphase]) _
  | fetched i outcome =>
    obtain ⟨task, b, hi, hphase, ⟨result, -, -, rfl⟩ | ⟨write, tags, -, -, rfl⟩⟩ := fetched_spec hs
    · exact h.phase hi (by simp [hphase]) _
    · have hput := h.phase hi (by simp [hphase]) (.storing s.clock ⟨write.answer, some b⟩)
      exact hput.congr rfl rfl
  | stored i =>
    obtain ⟨task, w, answer, writer, hi, hphase, -, -, rfl⟩ := stored_spec hs
    exact h.phase hi (by simp [hphase]) _
  | giveUp i =>
    obtain ⟨task, missed, hi, hphase, rfl⟩ := giveUp_spec hs
    exact h.phase hi (by simp [hphase]) _
  | settle i =>
    obtain ⟨task, result, inFlight, hi, hphase, -, hin, rfl⟩ := settleTask_spec hs
    have hput : (s.putTask i { task with settled := true }).Guarded :=
      h.putTask hi rfl (by simp) fun _ => ⟨result, hphase⟩
    rcases hin with rfl | ⟨-, hin, rfl⟩
    · exact hput.congr rfl rfl
    · have hforget := hput.forget (Function.update_self ..) rfl hin
      exact hforget.congr rfl rfl

theorem Guarded.act [DecidableEq T] (h : s.Guarded) (hcfg : cfg.stampedePrevention = true)
    {a : Action K V T} (hok : s.Healthy a) (hs : s.act cfg a = some s') : s'.Guarded := by
  cases a with
  | fault a => cases hok
  | store a =>
    obtain ⟨store, -, rfl⟩ := storeStep_spec hs
    exact h.congr rfl rfl
  | read a =>
    obtain ⟨readers, index, store, rfl⟩ := readStep_frame hs
    exact h.congr rfl rfl
  | write a =>
    obtain ⟨writers, index, store, queue, flushing, outbox, rfl⟩ := writeStep_frame hs
    exact h.congr rfl rfl
  | invalidate a =>
    obtain ⟨invs, index, store, queue, outbox, rfl⟩ := invalidateStep_frame hs
    exact h.congr rfl rfl
  | get a => exact h.getStep hcfg hs

omit [DecidableEq K] in
theorem guarded_initial (now : Millis) (contents : ℕ → K → Option (Stored V × Option Millis)) :
    (initial now contents : Stack K V T).Guarded := by
  constructor <;> simp [initial]

end Stack

end LayerCache
