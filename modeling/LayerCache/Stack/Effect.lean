import LayerCache.Stack.Step

/-! # What an action does to the store

Most actions leave the store alone. The others are listed here with what they find and
what they make of the store, so that facts about cells, orders and fences are proved by
going through this list and not through all actions.
-/

namespace LayerCache

variable {K V T : Type} [DecidableEq K] {cfg : Config} {s s' : Stack K V T}

namespace Stack

inductive Admits (cfg : Config) (s : Stack K V T) : Action K V T → Order K V → Prop
  | backfill (r : ℕ) (ttls : ℕ → Option Millis) {reader : Reader K V} {hit : Hit V}
      (hr : s.readers r = some reader) (hphase : reader.phase = .touched hit)
      (hl : hit.layerIndex ≠ 0) :
      Admits cfg s (.read (.backfill r ttls)) (s.backfillOrder reader hit ttls)
  | set (key : K) (write : WriteValue V) (tags : Option (List T)) :
      Admits cfg s (.write (.set key write tags))
        (s.setOrder cfg key write (s.store.epochs.fence key) s.clock s.clock)
  | mset (entries : List (Entry K T × WriteValue V)) :
      Admits cfg s (.write (.mset entries)) (s.msetOrder cfg entries)
  | flush {d : Deferred K V} {rest : List (Deferred K V)} {running : Option ℕ}
      (hf : s.flushing = some (d :: rest, running)) :
      Admits cfg s (.write .flushNext) ⟨d.kind, d.keys, d.fence, d.captured, [d.strand]⟩
  | fetched (i : ℕ) {task : Task K V} {born : ℕ} (write : WriteValue V) (tags : Option (List T))
      (hi : s.tasks i = some task) (hphase : task.phase = .fetching born) :
      Admits cfg s (.get (.fetched i (.store write tags)))
        (s.setOrder cfg task.key write task.fence task.captured born)

inductive Effect (cfg : Config) (s : Stack K V T) : Action K V T → Store K V → Prop
  | same (a : Action K V T) : Effect cfg s a s.store
  | store (a : StoreAction) {c : Store K V} (h : s.storeChange a = some c) :
      Effect cfg s (.store a) c
  | landFail (t m i : ℕ) {c : Store K V} (h : s.store.landFail t m i = some c) :
      Effect cfg s (.fault (.landFail t m i)) c
  | wipeFail (t m i : ℕ) {c : Store K V} (h : s.store.wipeFail t m i = some c) :
      Effect cfg s (.fault (.wipeFail t m i)) c
  | eraseFail (b i : ℕ) {c : Store K V} (h : s.store.eraseFail b i = some c) :
      Effect cfg s (.fault (.eraseFail b i)) c
  | purge (r : ℕ) {reader : Reader K V} (hr : s.readers r = some reader)
      (hphase : reader.phase = .purging) :
      Effect cfg s (.read (.purge r)) (s.store.layerDelete reader.index reader.key)
  | enlist {a : Action K V T} {o : Order K V} (h : s.Admits cfg a o) :
      Effect cfg s a (s.store.enlist s.clock o)
  | bump (d : ℕ) {inv : Invalidation K} (hd : s.invalidations d = some inv)
      (hphase : inv.phase = .called) :
      Effect cfg s (.invalidate (.bump d))
        (s.store.bump s.clock inv.target (s.invalidatedLayers cfg inv))
  | slide (g : ℕ) {get : Get K V} {answer : Answer V} {l : ℕ} {rest : List ℕ} {stored : Item V}
      {ttl : Option Millis} {ahead : Bool} (hg : s.gets g = some get)
      (hphase : get.phase = .sliding answer (l :: rest) stored ttl ahead) :
      Effect cfg s (.get (.slide g)) (s.store.layerSet ⟨l, get.key, stored, ttl⟩ none)

variable [DecidableEq T]

theorem effect_readStep {a : ReadAction K} (h : s.readStep cfg a = some s') :
    s.Effect cfg (.read a) s'.store := by
  cases a with
  | read key => cases h; exact .same _
  | load r => obtain ⟨reader, -, -, rfl⟩ := load_spec h; exact .same _
  | resume r => obtain ⟨reader, reader', index, -, -, -, rfl⟩ := resume_spec h; exact .same _
  | purge r => obtain ⟨reader, hr, hphase, rfl⟩ := purge_spec h; exact .purge r hr hphase
  | backfill r ttls =>
    obtain ⟨reader, hit, hr, hphase, ⟨-, rfl⟩ | ⟨hl, rfl⟩⟩ := backfill_spec h
    · exact .same _
    · exact .enlist (.backfill r ttls hr hphase hl)
  | refuse r => obtain ⟨reader, hit, -, -, rfl⟩ := refuse_spec h; exact .same _
  | backfilled r => obtain ⟨reader, hit, order, -, -, -, rfl⟩ := backfilled_spec h; exact .same _
  | unindex r => obtain ⟨reader, -, -, rfl⟩ := unindex_spec h; exact .same _

theorem effect_writeStep {a : WriteAction K V T} (h : s.writeStep cfg a = some s') :
    s.Effect cfg (.write a) s'.store := by
  cases a with
  | set key write tags => cases h; exact .enlist (.set key write tags)
  | mset entries => cases h; exact .enlist (.mset entries)
  | enqueue w => obtain ⟨writer, -, -, -, rfl⟩ := enqueue_spec h; exact .same _
  | verify w => obtain ⟨writer, order, phase, -, -, -, -, -, rfl⟩ := verify_spec h; exact .same _
  | track w =>
    obtain ⟨writer, -, ⟨-, rfl⟩ | ⟨entry, rest, -, -, rfl⟩ | ⟨entry, rest, -, -, rfl⟩⟩ :=
      track_spec h <;> exact .same _
  | announce w => obtain ⟨writer, outbox, -, -, -, rfl⟩ := announce_spec h; exact .same _
  | flush => obtain ⟨-, rfl⟩ := flush_spec h; exact .same _
  | flushNext =>
    obtain ⟨batch, running, hf, -, ⟨-, rfl⟩ | ⟨d, rest, rfl, rfl⟩⟩ := flushNext_spec h
    · exact .same _
    · exact .enlist (.flush hf)

omit [DecidableEq T] in
theorem effect_getStep {a : GetAction K V T} (h : s.getStep cfg a = some s') :
    s.Effect cfg (.get a) s'.store := by
  cases a with
  | get key options => cases h; exact .same _
  | conclude g =>
    obtain ⟨get, reader, -, -, -, hconcl⟩ := conclude_spec h
    cases hconcl with
    | refresh hit hr hstate =>
      rw [scheduleBackgroundRefresh_store]
      exact .same _
    | failed | miss | absent | fresh | stale | staleIfError | fallback => exact .same _
  | slide g =>
    obtain ⟨get, answer, todo, stored, ttl, ahead, hg, hphase, ⟨-, rfl | ⟨-, rfl⟩⟩ |
      ⟨l, rest, rfl, rfl | rfl⟩⟩ := slide_spec h
    · exact .same _
    · rw [scheduleBackgroundRefresh_store]
      exact .same _
    · exact .same _
    · exact .slide g hg hphase
  | enter g =>
    obtain ⟨get, fallback, -, -, ⟨i, joined, -, -, -, rfl⟩ | ⟨inFlight, -, rfl⟩⟩ :=
      enter_spec h <;> exact .same _
  | leave g =>
    obtain ⟨get, i, fallback, task, result, phase, inFlight, refreshes, -, -, -, -, -, -, rfl⟩ :=
      leave_spec h
    exact .same _
  | recheck i => obtain ⟨task, missed, -, -, -, rfl⟩ := recheck_spec h; exact .same _
  | rechecked i =>
    obtain ⟨task, r, reader, phase, -, -, -, -, rfl⟩ := rechecked_spec h
    exact .same _
  | fetch i => obtain ⟨task, missed, -, -, -, rfl⟩ := fetch_spec h; exact .same _
  | fetched i outcome =>
    obtain ⟨task, born, hi, hphase, ⟨result, -, -, rfl⟩ | ⟨write, tags, rfl, -, rfl⟩⟩ :=
      fetched_spec h
    · exact .same _
    · exact .enlist (.fetched i write tags hi hphase)
  | stored i => obtain ⟨task, w, answer, writer, -, -, -, -, rfl⟩ := stored_spec h; exact .same _
  | giveUp i => obtain ⟨task, missed, -, -, rfl⟩ := giveUp_spec h; exact .same _
  | settle i =>
    obtain ⟨task, result, inFlight, -, -, -, -, rfl⟩ := settleTask_spec h
    exact .same _

theorem effect_act {a : Action K V T} (h : s.act cfg a = some s') : s.Effect cfg a s'.store := by
  cases a with
  | store a => obtain ⟨store, ha, rfl⟩ := storeStep_spec h; exact .store a ha
  | fault a =>
    cases a with
    | degrade l | recover l => cases h; exact .same _
    | landFail t m i =>
      obtain ⟨store, ha, rfl⟩ := Option.map_eq_some_iff.mp h
      exact .landFail t m i ha
    | wipeFail t m i =>
      obtain ⟨store, ha, rfl⟩ := Option.map_eq_some_iff.mp h
      exact .wipeFail t m i ha
    | eraseFail b i =>
      obtain ⟨store, ha, rfl⟩ := Option.map_eq_some_iff.mp h
      exact .eraseFail b i ha
    | loadFail r => obtain ⟨reader, -, -, rfl⟩ := loadFail_spec h; exact .same _
    | failRead r => obtain ⟨reader, -, -, rfl⟩ := failRead_spec h; exact .same _
    | slideFail g =>
      obtain ⟨get, answer, l, rest, stored, ttl, ahead, -, -, rfl⟩ := slideFail_spec h
      exact .same _
  | read a => exact effect_readStep h
  | write a => exact effect_writeStep h
  | invalidate a =>
    cases a with
    | delete keys operation | clear | handle message => cases h; exact .same _
    | bump d => obtain ⟨inv, queue, hd, hphase, -, rfl⟩ := bump_spec h; exact .bump d hd hphase
    | removed d => obtain ⟨inv, b, r, -, -, -, -, rfl⟩ := removed_spec h; exact .same _
    | forget d =>
      obtain ⟨inv, -, ⟨-, rfl⟩ | ⟨key, rest, -, rfl⟩ | ⟨-, rfl⟩⟩ := forget_spec h <;> exact .same _
    | publish d => obtain ⟨inv, outbox, -, -, -, rfl⟩ := publish_spec h; exact .same _
  | get a => exact effect_getStep h

end Stack

end LayerCache
