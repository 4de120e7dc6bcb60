import LayerCache.Stack.Links
import LayerCache.Stack.Origins

/-! # Runs without invalidations

While nothing is deleted, cleared or expired and every layer is written through, the epochs stay
where they are: every fence is current, every order writes all it has planned, and no order
cleans up.
-/

namespace LayerCache

open Store Transition

variable {K V T : Type} [DecidableEq K] {cfg : Config} {s s' : Stack K V T} {t l : ℕ} {k : K}

namespace Stack

def Keeping (_ : Stack K V T) : Action K V T → Prop
  | .fault _ | .invalidate _ => False
  | _ => True

omit [DecidableEq K] in
theorem Keeping.healthy {a : Action K V T} (h : s.Keeping a) : s.Healthy a := by
  cases a with
  | fault a => cases h
  | store a | read a | write a | invalidate a | get a => trivial

/-- What holds of a stack that has been written through and never invalidated. -/
structure Calm (s : Stack K V T) : Prop where
  epochs : s.store.epochs = .initial
  removals : ∀ b, s.store.removals b = none
  caught : ∀ k f captured, s.Caught k f captured → f = Epochs.initial.fence k
  fences : ∀ t o, s.store.orders t = some o → ∀ k ∈ o.keys, o.fence k = Epochs.initial.fence k
  unwiped : ∀ t o, s.store.orders t = some o → ∀ st ∈ o.strands, ∀ todo, st.phase ≠ .wiping todo
  immediate : ∀ d, ¬ s.Carries d

theorem Epochs.not_outdated_initial (k : K) :
    Epochs.initial.isWriteOutdated k (Epochs.initial.fence k) = false := by
  by_contra hout
  exact Epochs.isWriteOutdated_iff.mp (by simpa using hout) rfl

theorem Calm.not_outdated (h : s.Calm) {o : Order K V} (ho : s.store.orders t = some o)
    (hk : k ∈ o.keys) : s.store.epochs.isWriteOutdated k (o.fence k) = false := by
  rw [h.epochs, h.fences t o ho k hk, Epochs.not_outdated_initial]

theorem Calm.current (h : s.Calm) {i : ℕ} {task : Task K V} (hi : s.tasks i = some task) :
    s.store.epochs.isWriteOutdated task.key task.fence = false := by
  rw [h.epochs, h.caught task.key task.fence task.captured (.task hi),
    Epochs.not_outdated_initial]

variable [DecidableEq T] {a : Action K V T}

theorem Calm.epochs_act (h : s.Calm) (hok : s.Keeping a) (hs : s.act cfg a = some s') :
    s'.store.epochs = s.store.epochs ∧ s'.store.removals = s.store.removals := by
  have heffect := effect_act hs
  generalize s'.store = c at heffect
  cases heffect with
  | same => exact ⟨rfl, rfl⟩
  | landFail | wipeFail | eraseFail | bump => cases hok
  | purge => exact ⟨rfl, rfl⟩
  | enlist => exact ⟨rfl, rfl⟩
  | slide => exact ⟨rfl, rfl⟩
  | store a ha =>
    cases a with
    | tick d =>
      simp only [storeChange, Option.ite_none_right_eq_some, Option.some.injEq] at ha
      obtain ⟨-, rfl⟩ := ha
      exact ⟨rfl, rfl⟩
    | start t =>
      obtain ⟨chain, o, -, -, rfl⟩ := start_spec ha
      exact ⟨rfl, rfl⟩
    | land t m i =>
      obtain ⟨o, st, p, st', -, -, -, rfl⟩ := land_spec ha
      exact ⟨rfl, rfl⟩
    | check t m =>
      obtain ⟨o, st, st', -, -, -, rfl⟩ := check_spec ha
      exact ⟨rfl, rfl⟩
    | wipe t m i =>
      obtain ⟨o, st, l₀, k₀, st', -, -, -, rfl⟩ := wipe_spec ha
      exact ⟨rfl, rfl⟩
    | settle t =>
      obtain ⟨o, chain, -, -, -, rfl⟩ := settle_spec ha
      exact ⟨rfl, rfl⟩
    | erase b i =>
      obtain ⟨r, l₀, hr, -⟩ := erase_spec ha
      rw [h.removals b] at hr
      cases hr

/-- How the orders go on: none changes but one that starts, lands a write or is through. -/
inductive OrderGoes (s : Stack K V T) (t : ℕ) (o : Order K V) : Action K V T → Order K V → Prop
  | same (a : Action K V T) : OrderGoes s t o a o
  | start : OrderGoes s t o (.store (.start t)) { o with
      strands := o.strands.map fun st =>
        st.start o.keys (if o.kind = .set then s.degraded else fun _ => false) }
  | land {m i : ℕ} {st st' : Strand K V} {p : Put K V} (hst : o.strands[m]? = some st)
      (hland : st.land i = some (p, st')) :
      OrderGoes s t o (.store (.land t m i)) (o.setStrand m st')
  | check {m : ℕ} {st : Strand K V} {active : List K} (hst : o.strands[m]? = some st)
      (hphase : st.phase = .writing active []) :
      OrderGoes s t o (.store (.check t m)) (o.setStrand m { st with phase := .finished true })

omit [DecidableEq T] in
/-- Nothing is outdated, so that the second look finds nothing to clean up. -/
theorem Calm.check (h : s.Calm) (hwf : s.store.Wf s.clock) {o : Order K V} {st st' : Strand K V}
    (ho : s.store.orders t = some o) (hst : st ∈ o.strands)
    (hcheck : st.check (fun k => s.store.epochs.isWriteOutdated k (o.fence k)) = some st') :
    ∃ active, st.phase = .writing active [] ∧ st' = { st with phase := .finished true } := by
  unfold Strand.check at hcheck
  split at hcheck
  · rename_i active hphase
    refine ⟨active, hphase, ?_⟩
    have hnone : active.filter (fun k => s.store.epochs.isWriteOutdated k (o.fence k)) = [] := by
      rw [List.filter_eq_nil_iff]
      intro k hk
      have hkey := (hwf.strand t o ho st hst).active_key active [] hphase k hk
      simp [h.not_outdated ho hkey]
    simp only [hnone, List.isEmpty_nil, if_true, Option.some.injEq] at hcheck
    exact hcheck.symm
  · cases hcheck

theorem Calm.order_act (h : s.Calm) (hwf : s.store.Wf s.clock) (hok : s.Keeping a)
    (hs : s.act cfg a = some s') {o : Order K V} (ho : s.store.orders t = some o) :
    ∃ o', s'.store.orders t = some o' ∧ s.OrderGoes t o a o' := by
  have hother : ∀ {u : ℕ} {o₁ : Order K V}, u ≠ t →
      Function.update s.store.orders u (some o₁) t = some o := by
    intro u o₁ hu
    rw [Function.update_of_ne hu.symm, ho]
  have heffect := effect_act hs
  generalize s'.store = c at heffect
  cases heffect with
  | same => exact ⟨o, ho, .same _⟩
  | landFail | wipeFail | eraseFail | bump => cases hok
  | purge => exact ⟨o, ho, .same _⟩
  | enlist => exact ⟨o, hother (hwf.lt_of_order ho).ne', .same _⟩
  | slide => exact ⟨o, ho, .same _⟩
  | store a ha =>
    cases a with
    | tick d =>
      simp only [storeChange, Option.ite_none_right_eq_some, Option.some.injEq] at ha
      obtain ⟨-, rfl⟩ := ha
      exact ⟨o, ho, .same _⟩
    | start u =>
      obtain ⟨chain, o₀, -, ho₀, rfl⟩ := start_spec ha
      by_cases hu : u = t
      · subst hu
        obtain rfl := Option.some.inj (ho.symm.trans ho₀)
        have hactive : o.keys.filter (fun k => !s.store.epochs.isWriteOutdated k (o.fence k)) =
            o.keys := by
          rw [List.filter_eq_self]
          intro k hk
          simp [h.not_outdated ho hk]
        refine ⟨_, Function.update_self .., ?_⟩
        rw [hactive]
        exact .start
      · exact ⟨o, hother hu, .same _⟩
    | land u m i =>
      obtain ⟨o₀, st, p, st', ho₀, hst, hland, rfl⟩ := land_spec ha
      by_cases hu : u = t
      · subst hu
        obtain rfl := Option.some.inj (ho.symm.trans ho₀)
        exact ⟨_, Function.update_self .., .land hst hland⟩
      · exact ⟨o, hother hu, .same _⟩
    | check u m =>
      obtain ⟨o₀, st, st', ho₀, hst, hcheck, rfl⟩ := check_spec ha
      by_cases hu : u = t
      · subst hu
        obtain rfl := Option.some.inj (ho.symm.trans ho₀)
        obtain ⟨active, hphase, rfl⟩ := h.check hwf ho (List.mem_of_getElem? hst) hcheck
        exact ⟨_, Function.update_self .., .check hst hphase⟩
      · exact ⟨o, hother hu, .same _⟩
    | wipe u m i =>
      obtain ⟨o₀, st, l₀, k₀, st', ho₀, hst, hwipe, rfl⟩ := wipe_spec ha
      obtain ⟨todo, hphase, -, -⟩ := Strand.wipe_spec hwipe
      exact absurd hphase (h.unwiped u o₀ ho₀ st (List.mem_of_getElem? hst) todo)
    | settle u =>
      obtain ⟨o₀, chain, -, -, -, rfl⟩ := settle_spec ha
      exact ⟨o, ho, .same _⟩
    | erase b i =>
      obtain ⟨r, l₀, hr, -⟩ := erase_spec ha
      rw [h.removals b] at hr
      cases hr

/-- An entry on its way into a layer: a write of an order or of a renewed sliding TTL. -/
inductive Brings (s : Stack K V T) (p : Put K V) : Prop
  | order {t : ℕ} {o : Order K V} (ho : s.store.orders t = some o) (hp : o.Writes p)
  | renewal {g : ℕ} {get : Get K V} {answer : Answer V} {rest : List ℕ} {ahead : Bool}
      (hg : s.gets g = some get) (hkey : get.key = p.key)
      (hphase : get.phase = .sliding answer (p.layer :: rest) p.item p.ttl ahead)

/-- What becomes of a cell: it stays, an entry is placed there, or a read purges it. -/
inductive CellGoes (s s' : Stack K V T) (l : ℕ) (k : K) : Prop
  | same (h : s'.store.cells l k = s.store.cells l k)
  | placed (p : Put K V) (writer : Option ℕ) (hp : s.Brings p) (hl : p.layer = l) (hk : p.key = k)
      (h : s'.store.cells l k = some ⟨p.item,
        (p.ttl.filter fun ttl => 0 < ttl).map fun ttl => s.store.now + ttl, writer⟩)
  | purged {r : ℕ} {reader : Reader K V} (hr : s.readers r = some reader)
      (hphase : reader.phase = .purging) (hl : reader.index = l) (hk : reader.key = k)
      (h : s'.store.cells l k = none)

theorem Calm.cell_act (h : s.Calm) (hwf : s.store.Wf s.clock) (hok : s.Keeping a)
    (hs : s.act cfg a = some s') (l : ℕ) (k : K) : s.CellGoes s' l k := by
  have hset : ∀ {c : Store K V} {p : Put K V} {writer : Option ℕ}, c.cells = s.store.cells →
      c.now = s.store.now → s.Brings p → s'.store = c.layerSet p writer → s.CellGoes s' l k := by
    intro c p writer hcells hnow hp he
    by_cases hlk : l = p.layer ∧ k = p.key
    · obtain ⟨rfl, rfl⟩ := hlk
      refine .placed p writer hp rfl rfl ?_
      rw [he, layerSet, cells_setCell, if_pos ⟨rfl, rfl⟩, hnow]
    · refine .same ?_
      rw [he, layerSet, cells_setCell, if_neg hlk, hcells]
  have heffect := effect_act hs
  generalize hc : s'.store = c at heffect
  cases heffect with
  | same => exact .same (by rw [hc])
  | landFail | wipeFail | eraseFail | bump => cases hok
  | purge r hr hphase =>
    rename_i reader
    by_cases hlk : l = reader.index ∧ k = reader.key
    · obtain ⟨rfl, rfl⟩ := hlk
      refine .purged hr hphase rfl rfl ?_
      rw [hc, layerDelete, cells_setCell, if_pos ⟨rfl, rfl⟩]
    · refine .same ?_
      rw [hc, layerDelete, cells_setCell, if_neg hlk]
  | enlist => exact .same (by rw [hc]; rfl)
  | slide g hg hphase => exact hset rfl rfl (.renewal hg rfl hphase) hc
  | store a ha =>
    cases a with
    | tick d =>
      simp only [storeChange, Option.ite_none_right_eq_some, Option.some.injEq] at ha
      obtain ⟨-, rfl⟩ := ha
      exact .same (by rw [hc]; rfl)
    | start t =>
      obtain ⟨chain, o, -, -, rfl⟩ := start_spec ha
      exact .same (by rw [hc])
    | land t m i =>
      obtain ⟨o, st, p, st', ho, hst, hland, rfl⟩ := land_spec ha
      have hmem := List.mem_of_getElem? hst
      obtain ⟨-, hp⟩ := (hwf.strand t o ho st hmem).land hland
      refine hset ?_ ?_ (.order ho ⟨st, hmem, hp⟩) hc <;> rfl
    | check t m =>
      obtain ⟨o, st, st', -, -, -, rfl⟩ := check_spec ha
      exact .same (by rw [hc]; rfl)
    | wipe t m i =>
      obtain ⟨o, st, l₀, k₀, st', ho, hst, hwipe, rfl⟩ := wipe_spec ha
      obtain ⟨todo, hphase, -, -⟩ := Strand.wipe_spec hwipe
      exact absurd hphase (h.unwiped t o ho st (List.mem_of_getElem? hst) todo)
    | settle t =>
      obtain ⟨o, chain, -, -, -, rfl⟩ := settle_spec ha
      exact .same (by rw [hc])
    | erase b i =>
      obtain ⟨r, l₀, hr, -⟩ := erase_spec ha
      rw [h.removals b] at hr
      cases hr

theorem Calm.now_act (h : s.Calm) (hok : s.Keeping a) (hs : s.act cfg a = some s') :
    s'.store.now = s.store.now ∨
      ∃ d, a = .store (.tick d) ∧ 0 ≤ d ∧ s'.store.now = s.store.now + d := by
  have heffect := effect_act hs
  generalize s'.store = c at heffect
  cases heffect with
  | same => exact .inl rfl
  | landFail | wipeFail | eraseFail | bump => cases hok
  | purge => exact .inl rfl
  | enlist => exact .inl rfl
  | slide => exact .inl rfl
  | store a ha =>
    cases a with
    | tick d =>
      simp only [storeChange, Option.ite_none_right_eq_some, Option.some.injEq] at ha
      obtain ⟨hd, rfl⟩ := ha
      exact .inr ⟨d, rfl, hd, rfl⟩
    | start t =>
      obtain ⟨chain, o, -, -, rfl⟩ := start_spec ha
      exact .inl rfl
    | land t m i =>
      obtain ⟨o, st, p, st', -, -, -, rfl⟩ := land_spec ha
      exact .inl rfl
    | check t m =>
      obtain ⟨o, st, st', -, -, -, rfl⟩ := check_spec ha
      exact .inl rfl
    | wipe t m i =>
      obtain ⟨o, st, l₀, k₀, st', -, -, -, rfl⟩ := wipe_spec ha
      exact .inl rfl
    | settle t =>
      obtain ⟨o, chain, -, -, -, rfl⟩ := settle_spec ha
      exact .inl rfl
    | erase b i =>
      obtain ⟨r, l₀, hr, -⟩ := erase_spec ha
      rw [h.removals b] at hr
      cases hr

omit [DecidableEq K] [DecidableEq T] in
theorem carries_putWriter (h : ∀ d, ¬ s.Carries d) {w : ℕ} {writer : Writer K V T}
    (hwriter : writer.deferred = []) : ∀ d, ¬ (s.putWriter w writer).Carries d := by
  rintro d (⟨hw, hd⟩ | hd | ⟨hf, hd⟩)
  · rcases update_eq_some hw with ⟨-, rfl⟩ | ⟨-, hw⟩
    · rw [hwriter] at hd
      cases hd
    · exact h d (.writer hw hd)
  · exact h d (.queue hd)
  · exact h d (Carries.flushing (s := s) hf hd)

omit [DecidableEq T] in
theorem Calm.deferred_nil (h : s.Calm) {w : ℕ} {writer : Writer K V T}
    (hw : s.writers w = some writer) : writer.deferred = [] := by
  rw [List.eq_nil_iff_forall_not_mem]
  exact fun d hd => h.immediate d (.writer hw hd)

omit [DecidableEq T] in
theorem filter_writeBehind (hthrough : ∀ l, cfg.writeBehind l = false) (p : ℕ → Bool) :
    (List.range cfg.layers).filter (fun l => p l && cfg.writeBehind l) = [] := by
  rw [List.filter_eq_nil_iff]
  intro l _
  simp [hthrough]

theorem Calm.immediate_writeStep (h : s.Calm) (hthrough : ∀ l, cfg.writeBehind l = false)
    {a : WriteAction K V T} (hs : s.writeStep cfg a = some s') : ∀ d, ¬ s'.Carries d := by
  have hcongr : ∀ {s₁ s₂ : Stack K V T}, (∀ d, ¬ s₁.Carries d) → s₂.writers = s₁.writers →
      (∀ d ∈ s₂.writeBehindQueue, d ∈ s₁.writeBehindQueue) → s₂.flushing = s₁.flushing →
      ∀ d, ¬ s₂.Carries d :=
    fun h₁ hw hq hf d hd => h₁ d (hd.congr hw hq hf)
  have hput : ∀ {w : ℕ} {writer : Writer K V T}, s.writers w = some writer →
      ∀ phase, ∀ d, ¬ (s.putWriter w { writer with phase }).Carries d := by
    intro w writer hw phase
    have hnil : writer.deferred = [] := h.deferred_nil hw
    exact carries_putWriter h.immediate hnil
  have hnone : (List.range cfg.layers).filter cfg.writeBehind = [] := by
    simpa using filter_writeBehind hthrough fun _ => true
  cases a with
  | set key write tags =>
    cases hs
    refine hcongr (carries_putWriter h.immediate ?_) rfl (fun _ => id) rfl
    simp [hnone]
  | mset entries =>
    cases hs
    refine hcongr (carries_putWriter h.immediate ?_) rfl (fun _ => id) rfl
    simp [filter_writeBehind hthrough]
  | enqueue w =>
    obtain ⟨writer, hw, -, -, rfl⟩ := enqueue_spec hs
    refine hcongr (hput hw .enqueued) rfl ?_ rfl
    simp [h.deferred_nil hw, putWriter]
  | verify w =>
    obtain ⟨writer, order, phase, hw, -, -, -, -, rfl⟩ := verify_spec hs
    exact hput hw phase
  | track w =>
    obtain ⟨writer, hw, ⟨-, rfl⟩ | ⟨entry, rest, -, -, rfl⟩ | ⟨entry, rest, -, -, rfl⟩⟩ :=
      track_spec hs
    · exact hput hw _
    · exact hput hw _
    · exact hcongr (hput hw (.tracking rest)) rfl (fun _ => id) rfl
  | announce w =>
    obtain ⟨writer, outbox, hw, -, -, rfl⟩ := announce_spec hs
    exact hcongr (hput hw .done) rfl (fun _ => id) rfl
  | flush =>
    obtain ⟨-, rfl⟩ := flush_spec hs
    rintro d (⟨hw, hd⟩ | hd | ⟨hf, hd⟩)
    · exact h.immediate d (Carries.writer (s := s) hw hd)
    · exact h.immediate d (.queue (List.mem_of_mem_drop hd))
    · cases hf
      exact h.immediate d (.queue (List.mem_of_mem_take hd))
  | flushNext =>
    obtain ⟨batch, running, hf, -, ⟨-, rfl⟩ | ⟨d₀, rest, rfl, rfl⟩⟩ := flushNext_spec hs
    · rintro d (⟨hw, hd⟩ | hd | ⟨hf', hd⟩)
      · exact h.immediate d (Carries.writer (s := s) hw hd)
      · exact h.immediate d (.queue hd)
      · cases hf'
    · exact absurd (Carries.flushing hf List.mem_cons_self) (h.immediate d₀)

theorem Calm.immediate_act (h : s.Calm) (hthrough : ∀ l, cfg.writeBehind l = false)
    (hok : s.Keeping a) (hs : s.act cfg a = some s') : ∀ d, ¬ s'.Carries d := by
  cases a with
  | fault a | invalidate a => cases hok
  | store a =>
    obtain ⟨store, -, rfl⟩ := storeStep_spec hs
    exact fun d hd => h.immediate d (hd.congr rfl (fun _ => id) rfl)
  | read a =>
    obtain ⟨readers, index, store, rfl⟩ := readStep_frame hs
    exact fun d hd => h.immediate d (hd.congr rfl (fun _ => id) rfl)
  | write a => exact h.immediate_writeStep hthrough hs
  | get a =>
    obtain ⟨readers, writers, gets, tasks, inFlight, refreshes, store, hwriters, rfl⟩ :=
      getStep_frame hs
    rcases hwriters with rfl | ⟨i, outcome, rfl⟩
    · exact fun d hd => h.immediate d (hd.congr rfl (fun _ => id) rfl)
    · have hnone : (List.range cfg.layers).filter cfg.writeBehind = [] := by
        simpa using filter_writeBehind hthrough fun _ => true
      obtain ⟨task, born, hi, -, ⟨result, -, -, he⟩ | ⟨write, tags, -, -, he⟩⟩ := fetched_spec hs
      · rw [he]
        exact fun d hd => h.immediate d (hd.congr rfl (fun _ => id) rfl)
      · rw [he]
        let writer : Writer K V T :=
          ⟨.set, [⟨task.key, tags⟩], s.store.epochs.fence, [], .storing⟩
        have hput : ∀ d, ¬ (s.putWriter s.clock writer).Carries d :=
          carries_putWriter h.immediate rfl
        intro d hd
        refine hput d (hd.congr ?_ (fun _ => id) rfl)
        simp [putTask, storeEntry, putWriter, hnone, writer]

omit [DecidableEq T] in
/-- An order that is admitted has a current fence and has not begun. -/
theorem Calm.admits (h : s.Calm) {o : Order K V} (hadmits : s.Admits cfg a o) :
    (∀ k ∈ o.keys, o.fence k = Epochs.initial.fence k) ∧ ∀ st ∈ o.strands, st.phase = .planned := by
  cases hadmits with
  | backfill r ttls hr =>
    constructor
    · intro k hk
      obtain rfl := List.mem_singleton.mp hk
      exact h.caught _ _ _ (.reader hr)
    · intro st hst
      obtain rfl := List.mem_singleton.mp hst
      rfl
  | set key write tags =>
    constructor
    · intro k hk
      obtain rfl := List.mem_singleton.mp hk
      exact congrArg (fun e => Epochs.fence e k) h.epochs
    · intro st hst
      obtain rfl := List.mem_singleton.mp hst
      rfl
  | mset entries =>
    constructor
    · intro k _
      exact congrArg (fun e => Epochs.fence e k) h.epochs
    · intro st hst
      obtain ⟨l, -, rfl⟩ := List.mem_map.mp hst
      rfl
  | flush hf => exact absurd (Carries.flushing hf List.mem_cons_self) (h.immediate _)
  | fetched i write tags hi =>
    constructor
    · intro k hk
      obtain rfl := List.mem_singleton.mp hk
      exact h.caught _ _ _ (.task hi)
    · intro st hst
      obtain rfl := List.mem_singleton.mp hst
      rfl

omit [DecidableEq T] in
/-- Going on, an order keeps its keys and its fence, and cleans up nothing. -/
theorem OrderGoes.keeps {o o' : Order K V} (h : s.OrderGoes t o a o') :
    o'.keys = o.keys ∧ o'.fence = o.fence ∧
      ((∀ st ∈ o.strands, ∀ todo, st.phase ≠ .wiping todo) →
        ∀ st ∈ o'.strands, ∀ todo, st.phase ≠ .wiping todo) := by
  cases h with
  | same => exact ⟨rfl, rfl, id⟩
  | start =>
    refine ⟨rfl, rfl, fun _ st hst todo => ?_⟩
    obtain ⟨st₀, -, rfl⟩ := List.mem_map.mp hst
    rcases start_phase st₀ o.keys (if o.kind = .set then s.degraded else fun _ => false) with
      he | he <;> simp [he]
  | land hst hland =>
    refine ⟨rfl, rfl, fun hold st hmem todo => ?_⟩
    obtain ⟨active, todo', -, -, rfl⟩ := Strand.land_spec hland
    rcases mem_setStrand hmem with hmem | rfl
    · exact hold st hmem todo
    · simp
  | check hst hphase =>
    refine ⟨rfl, rfl, fun hold st hmem todo => ?_⟩
    rcases mem_setStrand hmem with hmem | rfl
    · exact hold st hmem todo
    · simp

theorem Calm.act (h : s.Calm) (hwf : s.store.Wf s.clock)
    (hthrough : ∀ l, cfg.writeBehind l = false) (hok : s.Keeping a)
    (hs : s.act cfg a = some s') : s'.Calm := by
  obtain ⟨hepochs, hremovals⟩ := h.epochs_act hok hs
  have horder : ∀ t o', s'.store.orders t = some o' →
      (∃ o, s.store.orders t = some o ∧ s.OrderGoes t o a o') ∨ s.Admits cfg a o' := by
    intro t o' ho'
    rcases orders_act hs ho' with ⟨o, ho, -⟩ | ⟨-, hadmits⟩
    · obtain ⟨o'', ho'', hgoes⟩ := h.order_act hwf hok hs ho
      obtain rfl := Option.some.inj (ho'.symm.trans ho'')
      exact .inl ⟨o, ho, hgoes⟩
    · exact .inr hadmits
  constructor
  · exact hepochs.trans h.epochs
  · exact fun b => hremovals ▸ h.removals b
  · intro k f captured hc
    rcases (inherits_act hs).caught hc with hc | ⟨rfl, -⟩
    · exact h.caught k f captured hc
    · exact congrArg (fun e => Epochs.fence e k) h.epochs
  · intro t o' ho' k hk
    rcases horder t o' ho' with ⟨o, ho, hgoes⟩ | hadmits
    · obtain ⟨hkeys, hfence, -⟩ := hgoes.keeps
      rw [hfence]
      exact h.fences t o ho k (hkeys ▸ hk)
    · exact (h.admits hadmits).1 k hk
  · intro t o' ho'
    rcases horder t o' ho' with ⟨o, ho, hgoes⟩ | hadmits
    · exact hgoes.keeps.2.2 (h.unwiped t o ho)
    · intro st hst todo
      simp [(h.admits hadmits).2 st hst]
  · exact h.immediate_act hthrough hok hs

theorem Calm.step (h : s.Calm) (hwf : s.store.Wf s.clock)
    (hthrough : ∀ l, cfg.writeBehind l = false) (hok : s.Keeping a)
    (hs : s.step cfg a = some s') : s'.Calm := by
  obtain ⟨s₁, hact, rfl⟩ := step_spec hs
  have h₁ := h.act hwf hthrough hok hact
  refine ⟨h₁.epochs, h₁.removals, ?_, h₁.fences, h₁.unwiped, ?_⟩
  · intro k f captured hc
    apply h₁.caught k f captured
    cases hc with
    | reader hr => exact Caught.reader (s := s₁) hr
    | get hg => exact Caught.get (s := s₁) hg
    | task hi => exact Caught.task (s := s₁) hi
    | writer hw => exact Caught.writer (s := s₁) hw _
    | deferred hd hk =>
      exact Caught.deferred (s := s₁) (hd.congr (s := s₁) rfl (fun _ => id) rfl) hk
  · exact fun d hd => h₁.immediate d (hd.congr rfl (fun _ => id) rfl)

omit [DecidableEq T] in
theorem calm_initial (now : Millis) (contents : ℕ → K → Option (Stored V × Option Millis)) :
    (initial now contents : Stack K V T).Calm := by
  have hcarries : ∀ d, ¬ (initial now contents : Stack K V T).Carries d := by
    rintro d (⟨h, hd⟩ | hd | ⟨h, hd⟩)
    · cases h
    · cases hd
    · cases h
  refine ⟨rfl, fun _ => rfl, ?_, ?_, ?_, hcarries⟩
  · rintro k f captured (h | h | h | h | ⟨hd, -⟩)
    · cases h
    · cases h
    · cases h
    · cases h
    · exact absurd hd (hcarries _)
  · intro t o h
    cases h
  · intro t o h
    cases h

end Stack

end LayerCache
