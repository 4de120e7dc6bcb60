import LayerCache.Stack.Healthy

/-! # How the records refer to each other

A reading get has the reader of its own number, a waiting get a task, and a task at its
second look a reader; each is about the same key. Records are numbered by the step that
made them, so that a new one never takes the place of another.
-/

namespace LayerCache

variable {K V T : Type} [DecidableEq K] {cfg : Config} {s s' : Stack K V T} {n r g i : ℕ}
  {reader reader' : Reader K V} {get : Get K V} {task task' : Task K V}

namespace Reader

def found (reader : Reader K V) : Option (Item V) :=
  match reader.phase with
  | .loaded found => found
  | .touched hit | .backfilling hit _ | .done (some hit) => some hit.item
  | _ => none

/-- How a reader goes on: within the layers, for the same key and in the same mode. -/
structure Follows (layers : ℕ) (reader reader' : Reader K V) : Prop where
  key : reader'.key = reader.key
  mode : reader'.mode = reader.mode
  index : reader.index < layers → reader'.index < layers

omit [DecidableEq K] in
theorem next_follows (reader : Reader K V) (layers : ℕ) :
    reader.Follows layers (reader.next layers) ∧ (reader.next layers).found = none := by
  rcases reader.next_cases layers with ⟨hl, h⟩ | ⟨-, -, h⟩ | ⟨-, -, h⟩ <;> rw [h]
  · exact ⟨⟨rfl, rfl, fun _ => hl⟩, rfl⟩
  · exact ⟨⟨rfl, rfl, id⟩, rfl⟩
  · exact ⟨⟨rfl, rfl, id⟩, rfl⟩

omit [DecidableEq K] in
theorem Resumes.follows {layers : ℕ} {now : Millis} (h : reader.Resumes layers now reader') :
    reader.Follows layers reader' ∧ ∀ item ∈ reader'.found, item ∈ reader.found := by
  cases h with
  | empty hl =>
    obtain ⟨hf, hn⟩ := reader.next_follows layers
    exact ⟨hf, by simp [hn]⟩
  | unfresh item hl =>
    obtain ⟨hf, hn⟩ := { reader with sawRetainableValue := true }.next_follows layers
    exact ⟨⟨hf.key, hf.mode, hf.index⟩, by simp [hn]⟩
  | expired item hl => exact ⟨⟨rfl, rfl, id⟩, by simp [found]⟩
  | hit item hl => exact ⟨⟨rfl, rfl, id⟩, by simp [found, hl]⟩

end Reader

namespace Stack

omit [DecidableEq K] in
theorem visible_spec {c : Store K V} {l : ℕ} {k : K} {item : Item V}
    (h : c.visible l k = some item) : ∃ cell, c.cells l k = some cell ∧ cell.item = item := by
  simp only [Store.visible, Option.bind_eq_some_iff, Option.ite_none_right_eq_some,
    Option.some.injEq] at h
  obtain ⟨cell, hcell, -, hitem⟩ := h
  exact ⟨cell, hcell, hitem⟩

theorem readers_readStep [DecidableEq T] {a : ReadAction K} (hs : s.readStep cfg a = some s') :
    (∃ key, a = .read key ∧ s' = s.openReader key .allowStale) ∨
    ∃ r reader reader' index store, s.readers r = some reader ∧
      reader.Follows cfg.layers reader' ∧
      (∀ item ∈ reader'.found, item ∈ reader.found ∨
        (a = .load r ∧ s.store.visible reader.index reader.key = some item)) ∧
      s' = { s.putReader r reader' with index, store } := by
  cases a with
  | read key => cases hs; exact .inl ⟨key, rfl, rfl⟩
  | load r =>
    obtain ⟨reader, hr, hphase, rfl⟩ := load_spec hs
    refine .inr ⟨r, reader, { reader with phase := .loaded (if s.degraded reader.index then none
      else s.store.visible reader.index reader.key) }, s.index, s.store, hr, ⟨rfl, rfl, id⟩,
      fun item hi => .inr ⟨rfl, ?_⟩, rfl⟩
    simp only [Reader.found, Option.mem_def] at hi
    split at hi
    · cases hi
    · exact hi
  | resume r =>
    obtain ⟨reader, reader', index, hr, hres, -, rfl⟩ := resume_spec hs
    obtain ⟨hf, hfound⟩ := hres.follows
    exact .inr ⟨r, reader, reader', index, s.store, hr, hf, fun item hi => .inl (hfound item hi),
      rfl⟩
  | purge r =>
    obtain ⟨reader, hr, hphase, rfl⟩ := purge_spec hs
    obtain ⟨hf, hn⟩ := reader.next_follows cfg.layers
    exact .inr ⟨r, reader, _, s.index, _, hr, hf, by simp [hn], rfl⟩
  | backfill r ttls =>
    obtain ⟨reader, hit, hr, hphase, ⟨-, rfl⟩ | ⟨-, rfl⟩⟩ := backfill_spec hs
    · exact .inr ⟨r, reader, { reader with phase := .done (some hit) }, s.index, s.store, hr,
        ⟨rfl, rfl, id⟩, by simp [Reader.found, hphase], rfl⟩
    · exact .inr ⟨r, reader, { reader with phase := .backfilling hit s.clock }, s.index, _, hr,
        ⟨rfl, rfl, id⟩, by simp [Reader.found, hphase], rfl⟩
  | refuse r =>
    obtain ⟨reader, hit, hr, hphase, rfl⟩ := refuse_spec hs
    exact .inr ⟨r, reader, { reader with phase := .failed }, s.index, s.store, hr,
      ⟨rfl, rfl, id⟩, by simp [Reader.found], rfl⟩
  | backfilled r =>
    obtain ⟨reader, hit, order, hr, hphase, -, rfl⟩ := backfilled_spec hs
    exact .inr ⟨r, reader, { reader with phase := .done (some hit) }, s.index, s.store, hr,
      ⟨rfl, rfl, id⟩, by simp [Reader.found, hphase], rfl⟩
  | unindex r =>
    obtain ⟨reader, hr, hphase, rfl⟩ := unindex_spec hs
    exact .inr ⟨r, reader, { reader with phase := .done none }, _, s.store, hr,
      ⟨rfl, rfl, id⟩, by simp [Reader.found], rfl⟩

/-- The references between the records, all numbered below `n`. -/
structure Linked (cfg : Config) (n : ℕ) (s : Stack K V T) : Prop where
  reader_lt : ∀ r reader, s.readers r = some reader → r < n
  get_lt : ∀ g get, s.gets g = some get → g < n
  task_lt : ∀ i task, s.tasks i = some task → i < n
  index : 0 < cfg.layers → ∀ r reader, s.readers r = some reader → reader.index < cfg.layers
  reading : ∀ g get, s.gets g = some get → get.phase = .reading →
    ∃ reader, s.readers g = some reader ∧ reader.key = get.key
  waiting : ∀ g get i fallback, s.gets g = some get → get.phase = .waiting i fallback →
    ∃ task, s.tasks i = some task ∧ task.key = get.key
  rechecking : ∀ i task r, s.tasks i = some task → task.phase = .rechecking r →
    ∃ reader, s.readers r = some reader ∧ reader.key = task.key ∧ reader.mode = .freshOnly
  inFlight : ∀ k i, s.inFlight k = some i → ∃ task, s.tasks i = some task ∧ task.key = k

omit [DecidableEq K]

theorem Linked.congr (h : s.Linked cfg n) (hr : s'.readers = s.readers) (hg : s'.gets = s.gets)
    (hi : s'.tasks = s.tasks) (hf : ∀ k i, s'.inFlight k = some i → s.inFlight k = some i) :
    s'.Linked cfg n where
  reader_lt := hr ▸ h.reader_lt
  get_lt := hg ▸ h.get_lt
  task_lt := hi ▸ h.task_lt
  index := hr ▸ h.index
  reading := by rw [hr, hg]; exact h.reading
  waiting := by rw [hi, hg]; exact h.waiting
  rechecking := by rw [hr, hi]; exact h.rechecking
  inFlight k i hk := hi ▸ h.inFlight k i (hf k i hk)

theorem Linked.mono (h : s.Linked cfg n) : s.Linked cfg (n + 1) where
  __ := h
  reader_lt r reader hr := (h.reader_lt r reader hr).trans (Nat.lt_succ_self n)
  get_lt g get hg := (h.get_lt g get hg).trans (Nat.lt_succ_self n)
  task_lt i task hi := (h.task_lt i task hi).trans (Nat.lt_succ_self n)

/-- A reader that is put follows the one it replaces. -/
theorem Linked.putReader (h : s.Linked cfg n) (hr : r < n)
    (hindex : 0 < cfg.layers → reader'.index < cfg.layers)
    (hrep : ∀ reader, s.readers r = some reader →
      reader'.key = reader.key ∧ reader'.mode = reader.mode) :
    (s.putReader r reader').Linked cfg n := by
  have hreaders : ∀ r' reader, s.readers r' = some reader →
      ∃ reader₁, (s.putReader r reader').readers r' = some reader₁ ∧
        reader₁.key = reader.key ∧ reader₁.mode = reader.mode := by
    intro r' reader hr'
    by_cases he : r' = r
    · subst he
      exact ⟨reader', by simp [Stack.putReader], hrep reader hr'⟩
    · exact ⟨reader, by simp [Stack.putReader, he, hr'], rfl, rfl⟩
  refine { h with reader_lt := ?_, index := ?_, reading := ?_, rechecking := ?_ }
  · intro r' x hx
    rcases update_eq_some hx with ⟨rfl, -⟩ | ⟨-, hx⟩
    · exact hr
    · exact h.reader_lt r' x hx
  · intro hl r' x hx
    rcases update_eq_some hx with ⟨-, rfl⟩ | ⟨-, hx⟩
    · exact hindex hl
    · exact h.index hl r' x hx
  · intro g get hg hphase
    obtain ⟨reader, hr', hk⟩ := h.reading g get hg hphase
    obtain ⟨reader₁, h₁, hk₁, -⟩ := hreaders g reader hr'
    exact ⟨reader₁, h₁, hk₁.trans hk⟩
  · intro i task r' hi hphase
    obtain ⟨reader, hr', hk, hm⟩ := h.rechecking i task r' hi hphase
    obtain ⟨reader₁, h₁, hk₁, hm₁⟩ := hreaders r' reader hr'
    exact ⟨reader₁, h₁, hk₁.trans hk, hm₁.trans hm⟩

theorem Linked.follow (h : s.Linked cfg n) (hr : s.readers r = some reader)
    (hf : reader.Follows cfg.layers reader') : (s.putReader r reader').Linked cfg n := by
  refine h.putReader (h.reader_lt r reader hr) (fun hl => hf.index (h.index hl r reader hr)) ?_
  intro x hx
  obtain rfl := Option.some.inj (hr.symm.trans hx)
  exact ⟨hf.key, hf.mode⟩

theorem Linked.putGet (h : s.Linked cfg n) (hg : g < n)
    (hreading : get.phase = .reading → ∃ reader, s.readers g = some reader ∧ reader.key = get.key)
    (hwaiting : ∀ i fallback, get.phase = .waiting i fallback →
      ∃ task, s.tasks i = some task ∧ task.key = get.key) : (s.putGet g get).Linked cfg n := by
  refine { h with get_lt := ?_, reading := ?_, waiting := ?_ }
  · intro g' x hx
    rcases update_eq_some hx with ⟨rfl, -⟩ | ⟨-, hx⟩
    · exact hg
    · exact h.get_lt g' x hx
  · intro g' x hx hphase
    rcases update_eq_some hx with ⟨rfl, rfl⟩ | ⟨-, hx⟩
    · exact hreading hphase
    · exact h.reading g' x hx hphase
  · intro g' x i fallback hx hphase
    rcases update_eq_some hx with ⟨rfl, rfl⟩ | ⟨-, hx⟩
    · exact hwaiting i fallback hphase
    · exact h.waiting g' x i fallback hx hphase

theorem Linked.putTask (h : s.Linked cfg n) (hi : i < n)
    (hkey : ∀ task, s.tasks i = some task → task'.key = task.key)
    (hrechecking : ∀ r, task'.phase = .rechecking r → ∃ reader, s.readers r = some reader ∧
      reader.key = task'.key ∧ reader.mode = .freshOnly) : (s.putTask i task').Linked cfg n := by
  have htasks : ∀ i' task, s.tasks i' = some task →
      ∃ task₁, (s.putTask i task').tasks i' = some task₁ ∧ task₁.key = task.key := by
    intro i' task hi'
    by_cases he : i' = i
    · subst he
      exact ⟨task', by simp [Stack.putTask], hkey task hi'⟩
    · exact ⟨task, by simp [Stack.putTask, he, hi'], rfl⟩
  refine { h with task_lt := ?_, waiting := ?_, rechecking := ?_, inFlight := ?_ }
  · intro i' x hx
    rcases update_eq_some hx with ⟨rfl, -⟩ | ⟨-, hx⟩
    · exact hi
    · exact h.task_lt i' x hx
  · intro g get i' fallback hg hphase
    obtain ⟨task, hi', hk⟩ := h.waiting g get i' fallback hg hphase
    obtain ⟨task₁, h₁, hk₁⟩ := htasks i' task hi'
    exact ⟨task₁, h₁, hk₁.trans hk⟩
  · intro i' x r hx hphase
    rcases update_eq_some hx with ⟨rfl, rfl⟩ | ⟨-, hx⟩
    · exact hrechecking r hphase
    · exact h.rechecking i' x r hx hphase
  · intro k i' hk
    obtain ⟨task, hi', hk'⟩ := h.inFlight k i' hk
    obtain ⟨task₁, h₁, hk₁⟩ := htasks i' task hi'
    exact ⟨task₁, h₁, hk₁.trans hk'⟩

theorem Linked.getPhase (h : s.Linked cfg n) (hg : s.gets g = some get) {phase : GetPhase V}
    (hreading : phase ≠ .reading := by simp)
    (hwaiting : ∀ i fallback, phase ≠ .waiting i fallback := by simp) :
    (s.putGet g { get with phase }).Linked cfg n :=
  h.putGet (h.get_lt g get hg) (fun he => absurd he hreading)
    fun i fallback he => absurd he (hwaiting i fallback)

theorem Linked.keepTask (h : s.Linked cfg n) (hi : s.tasks i = some task)
    (hkey : task'.key = task.key)
    (hphase : (∀ r, task'.phase ≠ .rechecking r) ∨ task'.phase = task.phase) :
    (s.putTask i task').Linked cfg n := by
  refine h.putTask (h.task_lt i task hi) ?_ ?_
  · intro x hx
    rw [hi] at hx
    cases hx
    exact hkey
  · intro r hr
    rcases hphase with hne | he
    · exact absurd hr (hne r)
    · rw [he] at hr
      exact hkey ▸ h.rechecking i task r hi hr

variable [DecidableEq K]

theorem Linked.openReader (h : s.Linked cfg s.clock) (key : K) (mode : ReadMode) :
    (s.openReader key mode).Linked cfg (s.clock + 1) := by
  refine h.mono.putReader (Nat.lt_succ_self _) id fun reader hr => ?_
  exact absurd (h.reader_lt s.clock reader hr) (lt_irrefl _)

theorem Linked.schedule (h : s.Linked cfg n) (hn : s.clock < n) (key : K) (options : GetOptions) :
    (s.scheduleBackgroundRefresh key options).Linked cfg n := by
  rcases scheduleBackgroundRefresh_cases s key options with he | ⟨-, he⟩ <;> rw [he]
  · exact h
  · have hput : (s.putGet s.clock ⟨key, options, true, s.store.epochs.fence key,
        .entering none⟩).Linked cfg n := h.putGet hn (by simp) (by simp)
    exact hput.congr rfl rfl rfl fun _ _ => id

theorem update_none_eq_some {table : K → Option ℕ} {key k : K}
    (h : Function.update table key none k = some i) : table k = some i := by
  by_cases hk : k = key
  · simp [hk] at h
  · simpa [hk] using h

theorem Linked.getStep (h : s.Linked cfg s.clock) {a : GetAction K V T}
    (hs : s.getStep cfg a = some s') : s'.Linked cfg (s.clock + 1) := by
  cases a with
  | get key options =>
    cases hs
    exact (h.openReader key .allowStale).putGet (Nat.lt_succ_self _)
      (fun _ => ⟨_, Function.update_self _ _ _, rfl⟩) (by simp)
  | conclude g =>
    obtain ⟨get, reader, hg, -, -, hconcl⟩ := conclude_spec hs
    cases hconcl with
    | refresh hit hr hstate hf =>
      exact (h.mono.getPhase hg).schedule (Nat.lt_succ_self _) get.key get.options
    | failed | miss | absent | fresh | stale | staleIfError | fallback => exact h.mono.getPhase hg
  | slide g =>
    obtain ⟨get, answer, todo, stored, ttl, ahead, hg, -, ⟨-, rfl | ⟨-, rfl⟩⟩ |
      ⟨l, rest, -, rfl | rfl⟩⟩ := slide_spec hs
    · exact h.mono.getPhase hg
    · exact (h.mono.getPhase hg).schedule (Nat.lt_succ_self _) get.key get.options
    · exact h.mono.getPhase hg
    · exact (h.mono.getPhase hg).congr
        rfl rfl rfl fun _ _ => id
  | enter g =>
    obtain ⟨get, fallback, hg, hphase, ⟨i, joined, -, hi, hjoined, rfl⟩ | ⟨inFlight, hin, rfl⟩⟩ :=
      enter_spec hs
    · have hput : (s.putTask i { joined with references := joined.references + 1 }).Linked cfg
          (s.clock + 1) := h.mono.keepTask hjoined rfl (.inr rfl)
      obtain ⟨task, htask, hk⟩ := hput.inFlight get.key i hi
      refine hput.putGet (h.mono.get_lt g get hg) (by simp) ?_
      rintro i' fb ⟨⟩
      exact ⟨task, htask, hk⟩
    · have hput : (s.putTask s.clock (newTask get g)).Linked cfg (s.clock + 1) := by
        refine h.mono.putTask (Nat.lt_succ_self _) (fun task ht => ?_) (by simp [newTask])
        exact absurd (h.task_lt s.clock task ht) (lt_irrefl _)
      have hput : ((s.putTask s.clock (newTask get g)).putGet g
          { get with phase := .waiting s.clock fallback }).Linked cfg (s.clock + 1) := by
        refine hput.putGet (h.mono.get_lt g get hg) (by simp) ?_
        rintro i' fb ⟨⟩
        exact ⟨newTask get g, Function.update_self _ _ _, rfl⟩
      refine { hput with inFlight := fun k i hk => ?_ }
      rcases hin with ⟨-, -, rfl⟩ | ⟨-, rfl⟩
      · by_cases hkey : k = get.key
        · subst hkey
          simp only [Function.update_self, Option.some.injEq] at hk
          subst hk
          exact ⟨newTask get g, Function.update_self _ _ _, rfl⟩
        · have hk' : s.inFlight k = some i := by simpa [hkey] using hk
          exact hput.inFlight k i hk'
      · exact hput.inFlight k i hk
  | leave g =>
    obtain ⟨get, i, fallback, task, result, phase, inFlight, refreshes, hg, -, hi, -, hphase,
      hin, rfl⟩ := leave_spec hs
    have hput : ((s.putTask i { task with references := task.references - 1 }).putGet g
        { get with phase }).Linked cfg (s.clock + 1) := by
      have hput : (s.putTask i { task with references := task.references - 1 }).Linked cfg
        (s.clock + 1) := h.mono.keepTask hi rfl (.inr rfl)
      rcases hphase with ⟨answer, -, rfl⟩ | ⟨-, rfl⟩ <;> exact hput.getPhase hg
    refine hput.congr rfl rfl rfl fun k j hk => ?_
    rcases hin with rfl | ⟨-, -, -, rfl⟩
    · exact hk
    · exact update_none_eq_some hk
  | recheck i =>
    obtain ⟨task, missed, hi, hphase, -, rfl⟩ := recheck_spec hs
    have hopen := h.openReader task.key .freshOnly
    refine hopen.putTask (hopen.task_lt i task hi) (fun x hx => ?_) ?_
    · obtain rfl := Option.some.inj (hi.symm.trans hx)
      rfl
    · rintro r ⟨⟩
      exact ⟨_, Function.update_self _ _ _, rfl, rfl⟩
  | rechecked i =>
    obtain ⟨task, r, reader, phase, hi, -, -, hphase, rfl⟩ := rechecked_spec hs
    refine h.mono.keepTask hi rfl (.inl ?_)
    rcases hphase with ⟨hit, -, rfl⟩ | ⟨-, rfl⟩ | ⟨-, rfl⟩ <;> simp
  | fetch i =>
    obtain ⟨task, missed, hi, -, -, rfl⟩ := fetch_spec hs
    exact h.mono.keepTask hi rfl (.inl (by simp))
  | fetched i outcome =>
    obtain ⟨task, born, hi, -, ⟨result, -, -, rfl⟩ | ⟨write, tags, -, -, rfl⟩⟩ :=
      fetched_spec hs
    · exact h.mono.keepTask hi rfl (.inl (by simp))
    · have hput : (s.putTask i
          { task with phase := .storing s.clock ⟨write.answer, some born⟩ }).Linked cfg
          (s.clock + 1) := h.mono.keepTask hi rfl (.inl (by simp))
      exact hput.congr rfl rfl rfl fun _ _ => id
  | stored i =>
    obtain ⟨task, w, answer, writer, hi, -, -, -, rfl⟩ := stored_spec hs
    exact h.mono.keepTask hi rfl (.inl (by simp))
  | giveUp i =>
    obtain ⟨task, missed, hi, -, rfl⟩ := giveUp_spec hs
    exact h.mono.keepTask hi rfl (.inl (by simp))
  | settle i =>
    obtain ⟨task, result, inFlight, hi, -, -, hin, rfl⟩ := settleTask_spec hs
    have hput : (s.putTask i { task with settled := true }).Linked cfg (s.clock + 1) :=
      h.mono.keepTask hi rfl (.inr rfl)
    refine hput.congr rfl rfl rfl fun k j hk => ?_
    rcases hin with rfl | ⟨-, -, rfl⟩
    · exact hk
    · exact update_none_eq_some hk

theorem Linked.act [DecidableEq T] (h : s.Linked cfg s.clock) {a : Action K V T}
    (hok : s.Healthy a) (hs : s.act cfg a = some s') : s'.Linked cfg (s.clock + 1) := by
  cases a with
  | fault a => cases hok
  | store a =>
    obtain ⟨store, -, rfl⟩ := storeStep_spec hs
    exact h.mono.congr rfl rfl rfl fun _ _ => id
  | read a =>
    rcases readers_readStep hs with ⟨key, -, rfl⟩ |
      ⟨r, reader, reader', index, store, hr, hf, -, rfl⟩
    · exact h.openReader key .allowStale
    · exact (h.mono.follow hr hf).congr rfl rfl rfl fun _ _ => id
  | write a =>
    obtain ⟨writers, index, store, queue, flushing, outbox, rfl⟩ := writeStep_frame hs
    exact h.mono.congr rfl rfl rfl fun _ _ => id
  | invalidate a =>
    obtain ⟨invs, index, store, queue, outbox, rfl⟩ := invalidateStep_frame hs
    exact h.mono.congr rfl rfl rfl fun _ _ => id
  | get a => exact h.getStep hs

theorem Linked.step [DecidableEq T] (h : s.Linked cfg s.clock) {a : Action K V T}
    (hok : s.Healthy a) (hs : s.step cfg a = some s') : s'.Linked cfg s'.clock := by
  obtain ⟨s₁, hact, rfl⟩ := step_spec hs
  exact (h.act hok hact).congr rfl rfl rfl fun _ _ => id

omit [DecidableEq K] in
theorem linked_initial (now : Millis) (contents : ℕ → K → Option (Stored V × Option Millis)) :
    (initial now contents : Stack K V T).Linked cfg
      (initial now contents : Stack K V T).clock := by
  constructor <;> simp [initial]

end Stack

end LayerCache
