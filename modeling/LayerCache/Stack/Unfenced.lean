import LayerCache.Stack.PlainGets

/-! # Runs without invalidations

When nothing is ever invalidated, the epochs stand still: every fence is current, no
write is held back or wiped, and with write-through layers a write covers all layers.
-/

namespace LayerCache

open Store Transition

variable {K V T : Type} [DecidableEq K] {cfg : Config} {s s' : Stack K V T} {n t m i l : ℕ}
  {k : K}

/-- The strand has not begun, writes all the keys it is for, or is through. -/
def Strand.Unhindered (keys : List K) (st : Strand K V) : Prop :=
  match st.phase with
  | .planned => True
  | .writing active _ => ∀ k ∈ keys, k ∈ active
  | .wiping _ => False
  | .finished _ => True

omit [DecidableEq K] in
theorem Strand.Unhindered.land {st st' : Strand K V} {p : Put K V} {keys : List K}
    (h : st.Unhindered keys) (hland : st.land i = some (p, st')) : st'.Unhindered keys := by
  obtain ⟨active, todo, hphase, -, rfl⟩ := Strand.land_spec hland
  simpa [Strand.Unhindered, hphase] using h

namespace Store

/-- The fences of all orders are current, and no order is hindered. -/
structure Unfenced (c : Store K V) : Prop where
  removals : ∀ b, c.removals b = none
  fence : ∀ t o, c.orders t = some o → ∀ k ∈ o.keys, o.fence k = c.epochs.fence k
  strand : ∀ t o, c.orders t = some o → ∀ st ∈ o.strands, st.Unhindered o.keys

variable {c c' : Store K V}

theorem Unfenced.not_outdated (h : c.Unfenced) {o : Order K V} (ho : c.orders t = some o)
    (hk : k ∈ o.keys) : c.epochs.isWriteOutdated k (o.fence k) = false := by
  rw [← Bool.not_eq_true, Epochs.isWriteOutdated_iff, not_not]
  exact h.fence t o ho k hk

theorem Unfenced.setStrand (h : c.Unfenced) {o : Order K V} {st' : Strand K V}
    (ho : c.orders t = some o) (hst : st'.Unhindered o.keys) :
    (c.putOrder t (o.setStrand m st')).Unfenced where
  removals := h.removals
  fence t' o' ho' := by
    rcases update_eq_some ho' with ⟨rfl, rfl⟩ | ⟨-, ho'⟩
    · exact h.fence t' o ho
    · exact h.fence t' o' ho'
  strand t' o' ho' st hmem := by
    rcases update_eq_some ho' with ⟨rfl, rfl⟩ | ⟨-, ho'⟩
    · rcases mem_setStrand hmem with hmem | rfl
      · exact h.strand t' o ho st hmem
      · exact hst
    · exact h.strand t' o' ho' st hmem

theorem Unfenced.enlist (h : c.Unfenced) {n : ℕ} {o : Order K V}
    (hplanned : ∀ st ∈ o.strands, st.phase = .planned)
    (hfence : ∀ k ∈ o.keys, o.fence k = c.epochs.fence k) : (c.enlist n o).Unfenced where
  removals := h.removals
  fence t' o' ho' := by
    rcases update_eq_some ho' with ⟨rfl, rfl⟩ | ⟨-, ho'⟩
    · exact hfence
    · exact h.fence t' o' ho'
  strand t' o' ho' st hmem := by
    rcases update_eq_some ho' with ⟨rfl, rfl⟩ | ⟨-, ho'⟩
    · simp [Strand.Unhindered, hplanned st hmem]
    · exact h.strand t' o' ho' st hmem

theorem Unfenced.start (h : c.Unfenced) {skipped : ℕ → Bool} (hs : c.start skipped t = some c') :
    c'.Unfenced := by
  obtain ⟨chain, o, -, ho, rfl⟩ := start_spec hs
  refine ⟨h.removals, fun t' o' ho' => ?_, fun t' o' ho' st hmem => ?_⟩
  · rcases update_eq_some ho' with ⟨rfl, rfl⟩ | ⟨-, ho'⟩
    · exact h.fence t' o ho
    · exact h.fence t' o' ho'
  · rcases update_eq_some ho' with ⟨rfl, rfl⟩ | ⟨-, ho'⟩
    · obtain ⟨st, -, rfl⟩ := List.mem_map.mp hmem
      rcases start_phase st (o.keys.filter fun k => !c.epochs.isWriteOutdated k (o.fence k))
        (if o.kind = .set then skipped else fun _ => false) with hp | hp
      · simp [Strand.Unhindered, hp]
      · simp only [Strand.Unhindered, hp, List.mem_filter]
        exact fun k hk => ⟨hk, by simp [h.not_outdated ho hk]⟩
    · exact h.strand t' o' ho' st hmem

theorem Unfenced.check (h : c.Unfenced) (hwf : c.Wf n) (hs : c.check t m = some c') :
    c'.Unfenced := by
  obtain ⟨o, st, st', ho, hst, hcheck, rfl⟩ := check_spec hs
  have hmem := List.mem_of_getElem? hst
  refine h.setStrand ho ?_
  obtain ⟨active, hphase, -, -, ⟨ok, hok, -⟩ | ⟨⟨k, hk, hout⟩, -⟩⟩ := Strand.check_spec hcheck
  · simp [Strand.Unhindered, hok]
  · have hkey := (hwf.strand t o ho st hmem).active_key active [] hphase k hk
    simp [h.not_outdated ho hkey] at hout

theorem Unfenced.not_wipe (h : c.Unfenced) : c.wipe t m i ≠ some c' := by
  intro hs
  obtain ⟨o, st, l, k, st', ho, hst, hwipe, -⟩ := wipe_spec hs
  obtain ⟨todo, hphase, -, -⟩ := Strand.wipe_spec hwipe
  simpa [Strand.Unhindered, hphase] using h.strand t o ho st (List.mem_of_getElem? hst)

theorem Unfenced.not_erase {b : ℕ} (h : c.Unfenced) : c.erase b i ≠ some c' := by
  intro hs
  obtain ⟨r, l, hr, -⟩ := erase_spec hs
  simp [h.removals] at hr

end Store

namespace Stack

/-- Reads without fetcher and without sliding TTL, and writes. -/
def ReadsAndWrites (_ : Stack K V T) (a : Action K V T) : Prop :=
  CallsPlain a ∧
    match a with
    | .store _ | .read _ | .write _ | .get _ => True
    | .invalidate _ | .fault _ => False

instance (s : Stack K V T) : DecidablePred s.ReadsAndWrites := fun a => by
  unfold ReadsAndWrites
  refine @instDecidableAnd _ _ _ ?_
  induction a using Action.casesOn <;> infer_instance

omit [DecidableEq K] in
theorem ReadsAndWrites.healthy {a : Action K V T} (h : s.ReadsAndWrites a) : s.Healthy a := by
  cases a with
  | fault a => cases h.2
  | store a | read a | write a | invalidate a | get a => trivial

/-- What holds of a write-through stack that has only seen reads and writes. -/
structure Unfenced (cfg : Config) (s : Stack K V T) : Prop where
  store : s.store.Unfenced
  caught : ∀ k f captured, s.Caught k f captured → f = s.store.epochs.fence k
  carries : ∀ d, ¬ s.Carries d
  invalidations : ∀ d, s.invalidations d = none
  plain : s.PlainGets
  covering : ∀ t o, s.store.orders t = some o → o.kind ≠ .backfill → ∀ k ∈ o.keys,
    ∀ l < cfg.layers, ∃ p, o.Writes p ∧ p.layer = l ∧ p.key = k

/-- What is admitted in such a run: no write that was put off, and nothing fetched. -/
theorem Unfenced.admits (h : s.Unfenced cfg) {a : Action K V T} {o : Order K V}
    (ho : s.Admits cfg a o) : (∀ st ∈ o.strands, st.phase = .planned) ∧
      ∀ k ∈ o.keys, o.fence k = s.store.epochs.fence k := by
  cases ho with
  | @backfill r ttls reader hit hr hphase hl =>
    have hc : s.Caught reader.key reader.fence reader.captured := .reader hr
    exact ⟨by simp [backfillOrder, Strand.plan], by simpa [backfillOrder] using h.caught _ _ _ hc⟩
  | set key write tags => exact ⟨by simp [setOrder, Strand.plan], by simp [setOrder]⟩
  | mset entries =>
    refine ⟨fun st hst => ?_, fun _ _ => rfl⟩
    obtain ⟨l, -, rfl⟩ := List.mem_map.mp hst
    rfl
  | flush hf => exact (h.carries _ (.flushing hf List.mem_cons_self)).elim
  | fetched i write tags hi => simp [h.plain.tasks] at hi

theorem Unfenced.store_act [DecidableEq T] (h : s.Unfenced cfg) (hintact : s.Intact cfg)
    {a : Action K V T} (hok : s.ReadsAndWrites a) (hs : s.act cfg a = some s') :
    s'.store.Unfenced ∧ s'.store.epochs = s.store.epochs := by
  have hwf := hintact.sound.wf
  have heffect := effect_act hs
  generalize s'.store = c at heffect
  cases heffect with
  | same => exact ⟨h.store, rfl⟩
  | store a ha =>
    cases a with
    | tick d =>
      simp only [storeChange, Option.ite_none_right_eq_some, Option.some.injEq] at ha
      obtain ⟨-, rfl⟩ := ha
      exact ⟨⟨h.store.removals, h.store.fence, h.store.strand⟩, rfl⟩
    | start t =>
      refine ⟨h.store.start ha, ?_⟩
      obtain ⟨chain, o, -, -, rfl⟩ := start_spec ha
      rfl
    | land t m i =>
      obtain ⟨o, st, p, st', ho, hst, hland, rfl⟩ := land_spec ha
      have hstrand := h.store.strand t o ho st (List.mem_of_getElem? hst)
      have hput := h.store.setStrand (m := m) ho (Strand.Unhindered.land hstrand hland)
      exact ⟨⟨hput.removals, hput.fence, hput.strand⟩, rfl⟩
    | check t m =>
      refine ⟨h.store.check hwf ha, ?_⟩
      obtain ⟨o, st, st', -, -, -, rfl⟩ := check_spec ha
      rfl
    | wipe t m i => exact (h.store.not_wipe ha).elim
    | settle t =>
      obtain ⟨o, chain, -, -, -, rfl⟩ := settle_spec ha
      exact ⟨⟨h.store.removals, h.store.fence, h.store.strand⟩, rfl⟩
    | erase b i => exact (h.store.not_erase ha).elim
  | landFail | wipeFail | eraseFail => cases hok.2
  | purge r hr hphase => exact ⟨⟨h.store.removals, h.store.fence, h.store.strand⟩, rfl⟩
  | enlist ho => exact ⟨h.store.enlist (h.admits ho).1 (h.admits ho).2, rfl⟩
  | bump d hd => simp [h.invalidations] at hd
  | slide g hg hphase => simpa using ((h.plain.gets g _ hg).sliding _ _ _ _ _ hphase).1

theorem covering_admits (hcfg : ∀ l, cfg.writeBehind l = false) (hwork : ∀ l, s.degraded l = false)
    (h : s.Unfenced cfg) {a : Action K V T} {o : Order K V} (ho : s.Admits cfg a o)
    (hkind : o.kind ≠ .backfill) (hk : k ∈ o.keys) (hl : l < cfg.layers) :
    ∃ p, o.Writes p ∧ p.layer = l ∧ p.key = k := by
  cases ho with
  | backfill => exact (hkind rfl).elim
  | set key write tags =>
    obtain rfl := List.mem_singleton.mp hk
    exact ⟨buildLayerSetEntry k write s.clock s.store.now l, ⟨_, List.mem_singleton_self _,
      List.mem_map.mpr ⟨l, by simp [hl, hcfg], rfl⟩⟩, rfl, rfl⟩
  | mset entries =>
    obtain ⟨e, he, rfl⟩ := List.mem_map.mp hk
    exact ⟨buildLayerSetEntry e.1.key e.2 s.clock s.store.now l, ⟨s.msetStrand entries l,
      List.mem_map.mpr ⟨l, by simp [hl, hcfg, hwork], rfl⟩, List.mem_map.mpr ⟨e, he, rfl⟩⟩,
      rfl, rfl⟩
  | flush hf => exact (h.carries _ (.flushing hf List.mem_cons_self)).elim
  | fetched i write tags hi => simp [h.plain.tasks] at hi

theorem Unfenced.not_carries [DecidableEq T] (hcfg : ∀ l, cfg.writeBehind l = false)
    (h : s.Unfenced cfg) {a : Action K V T} (hok : s.ReadsAndWrites a)
    (hs : s.act cfg a = some s') (d : Deferred K V) : ¬ s'.Carries d := by
  have hcongr : ∀ {s' : Stack K V T}, s'.writers = s.writers →
      (∀ d ∈ s'.writeBehindQueue, d ∈ s.writeBehindQueue) → s'.flushing = s.flushing →
      ¬ s'.Carries d := fun hw hq hf hd => h.carries d (hd.congr hw hq hf)
  have hput : ∀ {s' : Stack K V T} {w : ℕ} {writer : Writer K V T}, writer.deferred = [] →
      s'.writers = Function.update s.writers w (some writer) →
      s'.writeBehindQueue = s.writeBehindQueue → s'.flushing = s.flushing → ¬ s'.Carries d := by
    rintro s' w writer hdef hw hq hf (⟨hw', hd⟩ | hd | ⟨hf', hd⟩)
    · rcases update_eq_some (hw ▸ hw') with ⟨-, rfl⟩ | ⟨-, hw'⟩
      · simp [hdef] at hd
      · exact h.carries d (.writer hw' hd)
    · exact h.carries d (.queue (hq ▸ hd))
    · exact h.carries d (Carries.flushing (s := s) (hf ▸ hf') hd)
  have hold : ∀ {w : ℕ} {writer : Writer K V T}, s.writers w = some writer →
      writer.deferred = [] := fun hw =>
    List.eq_nil_iff_forall_not_mem.mpr fun d hd => h.carries d (.writer hw hd)
  have hphase : ∀ {s' : Stack K V T} {w : ℕ} {writer : Writer K V T} {phase : WritePhase K T},
      s.writers w = some writer →
      s'.writers = Function.update s.writers w (some { writer with phase }) →
      s'.writeBehindQueue = s.writeBehindQueue → s'.flushing = s.flushing → ¬ s'.Carries d := by
    intro s' w writer phase hw
    have hdef : writer.deferred = [] := hold hw
    exact hput hdef
  cases a with
  | fault a | invalidate a => cases hok.2
  | store a => obtain ⟨store, -, rfl⟩ := storeStep_spec hs; exact hcongr rfl (fun _ => id) rfl
  | read a =>
    obtain ⟨readers, index, store, rfl⟩ := readStep_frame hs
    exact hcongr rfl (fun _ => id) rfl
  | get a =>
    obtain ⟨readers, writers, gets, tasks, inF, refs, store, rfl | ⟨i, outcome, rfl⟩, rfl⟩ :=
      getStep_frame hs
    · exact hcongr rfl (fun _ => id) rfl
    · obtain ⟨task, born, hi, -⟩ := fetched_spec hs
      simp [h.plain.tasks] at hi
  | write a =>
    cases a with
    | set key write tags => cases hs; exact hput (by simp [hcfg]) rfl rfl rfl
    | mset entries => cases hs; exact hput (by simp [hcfg]) rfl rfl rfl
    | enqueue w =>
      obtain ⟨writer, hw, -, -, rfl⟩ := enqueue_spec hs
      exact hphase hw rfl (by simp [hold hw]) rfl
    | verify w =>
      obtain ⟨writer, order, phase, hw, -, -, -, -, rfl⟩ := verify_spec hs
      exact hphase hw rfl rfl rfl
    | track w =>
      obtain ⟨writer, hw, ⟨-, rfl⟩ | ⟨entry, rest, -, -, rfl⟩ | ⟨entry, rest, -, -, rfl⟩⟩ :=
        track_spec hs <;> exact hphase hw rfl rfl rfl
    | announce w =>
      obtain ⟨writer, outbox, hw, -, -, rfl⟩ := announce_spec hs
      exact hphase hw rfl rfl rfl
    | flush =>
      obtain ⟨-, rfl⟩ := flush_spec hs
      rintro (⟨hw, hd⟩ | hd | ⟨hf, hd⟩)
      · exact h.carries d (Carries.writer (s := s) hw hd)
      · exact h.carries d (.queue (List.mem_of_mem_drop hd))
      · cases hf
        exact h.carries d (.queue (List.mem_of_mem_take hd))
    | flushNext =>
      obtain ⟨batch, running, hf, -, ⟨-, rfl⟩ | ⟨d', rest, rfl, rfl⟩⟩ := flushNext_spec hs
      · rintro (⟨hw, hd⟩ | hd | ⟨hf, hd⟩)
        · exact h.carries d (Carries.writer (s := s) hw hd)
        · exact h.carries d (.queue hd)
        · cases hf
      · exact (h.carries d' (.flushing hf List.mem_cons_self)).elim

theorem Unfenced.step [DecidableEq T] (hcfg : ∀ l, cfg.writeBehind l = false)
    (h : s.Unfenced cfg) (hintact : s.Intact cfg) {a : Action K V T} (hok : s.ReadsAndWrites a)
    (hs : s.step cfg a = some s') : s'.Unfenced cfg := by
  have hplain := h.plain.step hok.1 hok.healthy hs
  obtain ⟨s₁, hact, rfl⟩ := step_spec hs
  obtain ⟨hstore, hepochs⟩ := h.store_act hintact hok hact
  have hinherits : s.Inherits { s₁ with clock := s.clock + 1 } :=
    (inherits_act hact).congr rfl rfl rfl rfl fun d hd => hd.congr rfl (fun _ => id) rfl
  refine ⟨hstore, ?_, ?_, ?_, hplain, ?_⟩
  · intro k f captured hc
    simp only [hepochs]
    rcases hinherits.caught hc with hc | ⟨hf, -⟩
    · exact h.caught _ _ _ hc
    · exact hf
  · exact fun d hd => h.not_carries hcfg hok hact d (hd.congr rfl (fun _ => id) rfl)
  · intro d
    cases a with
    | fault a | invalidate a => cases hok.2
    | store a => obtain ⟨store, -, rfl⟩ := storeStep_spec hact; exact h.invalidations d
    | read a => obtain ⟨readers, index, store, rfl⟩ := readStep_frame hact; exact h.invalidations d
    | write a =>
      obtain ⟨writers, index, store, queue, flushing, outbox, rfl⟩ := writeStep_frame hact
      exact h.invalidations d
    | get a =>
      obtain ⟨readers, writers, gets, tasks, inF, refs, store, -, rfl⟩ := getStep_frame hact
      exact h.invalidations d
  · intro t o ho hkind k hk l hl
    rcases orders_act hact ho with ⟨o₀, ho₀, hsame⟩ | ⟨-, hadmits⟩
    · obtain ⟨p, hp, hpl, hpk⟩ := h.covering t o₀ ho₀ (hsame.kind ▸ hkind) k (hsame.keys ▸ hk) l hl
      exact ⟨p, hsame.writes_iff.mpr hp, hpl, hpk⟩
    · exact covering_admits hcfg hintact.working h hadmits hkind hk hl

end Stack

end LayerCache
