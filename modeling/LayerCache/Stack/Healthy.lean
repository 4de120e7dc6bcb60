import LayerCache.Stack.Captures

/-! # Runs with working layers

While no layer fails, no layer degrades, every write covers in its cleanup what it
writes, and every invalidation deletes from all the layers it is about. The invariant
of these runs joins what the stack, its store and its invalidations keep.
-/

namespace LayerCache

open Store Transition

variable {K V T : Type} {cfg : Config} {s s' : Stack K V T} {d b : ℕ} {inv : Invalidation K}

namespace Stack

def Healthy (_ : Stack K V T) : Action K V T → Prop
  | .fault _ => False
  | _ => True

instance (s : Stack K V T) : DecidablePred s.Healthy := fun a => by
  induction a using Action.casesOn <;> (unfold Healthy; infer_instance)

/-- An invalidation `d` that has moved the epochs at step `b`, with its layer deletions. -/
structure Bumped (cfg : Config) (s : Stack K V T) (d : ℕ) (inv : Invalidation K) (b : ℕ)
    (r : Removal K) : Prop where
  bumped : inv.bumped = some b
  removal : s.store.removals b = some r
  target : r.target = inv.target
  layers : ∀ l < cfg.layers, (inv.localOnly = true → cfg.isLocal l = true) → l ∈ r.layers
  called_lt : d < b
  removing : ∀ b', inv.phase = .removing b' → b' = b
  through : (∀ b', inv.phase ≠ .removing b') → r.todo = []
  resolved : ∀ p, inv.phase = .resolved p → b < p ∧ p < s.clock

/-- An invalidation is yet to move the epochs, or it has. -/
def Invalidated (cfg : Config) (s : Stack K V T) (d : ℕ) (inv : Invalidation K) : Prop :=
  d < s.clock ∧ ((inv.phase = .called ∧ inv.bumped = none) ∨ ∃ b r, s.Bumped cfg d inv b r)

/-- What holds of a stack whose layers have worked so far. -/
structure Intact (cfg : Config) (s : Stack K V T) [DecidableEq K] : Prop where
  sound : s.Sound
  fenced : s.store.Fenced
  working : ∀ l, s.degraded l = false
  invalidated : ∀ d inv, s.invalidations d = some inv → s.Invalidated cfg d inv

variable [DecidableEq K]

theorem degraded_act [DecidableEq T] {a : Action K V T} (h : s.act cfg a = some s')
    (hok : s.Healthy a) : s'.degraded = s.degraded := by
  cases a with
  | fault a => cases hok
  | store a => obtain ⟨store, -, rfl⟩ := storeStep_spec h; rfl
  | read a => obtain ⟨readers, index, store, rfl⟩ := readStep_frame h; rfl
  | write a =>
    obtain ⟨writers, index, store, queue, flushing, outbox, rfl⟩ := writeStep_frame h
    rfl
  | invalidate a => obtain ⟨invs, index, store, queue, outbox, rfl⟩ := invalidateStep_frame h; rfl
  | get a =>
    obtain ⟨readers, writers, gets, tasks, inF, refs, store, -, rfl⟩ := getStep_frame h
    rfl

/-- No step undoes what an invalidation has achieved. -/
theorem Bumped.mono {r : Removal K} {n : ℕ} {faults : Prop} (h : s.Bumped cfg d inv b r)
    (hwf : s.store.Wf n) (hstep : s.store.Step faults n s'.store) (hclock : s.clock ≤ s'.clock) :
    ∃ r', s'.Bumped cfg d inv b r' := by
  obtain ⟨todo, hr, hsub⟩ := hstep.removal hwf h.removal
  refine ⟨{ r with todo }, { h with removal := hr, through := fun hne => ?_, resolved := ?_ }⟩
  · exact List.eq_nil_iff_forall_not_mem.mpr fun x hx => by simpa [h.through hne] using hsub x hx
  · exact fun p hp => ⟨(h.resolved p hp).1, (h.resolved p hp).2.trans_le hclock⟩

omit [DecidableEq K] in
theorem Bumped.phase {r : Removal K} {phase : InvalidationPhase K} (h : s.Bumped cfg d inv b r)
    (htodo : r.todo = []) (hremoving : ∀ b', phase ≠ .removing b')
    (hresolved : ∀ p, phase = .resolved p → b < p ∧ p < s.clock) :
    s.Bumped cfg d { inv with phase } b r where
  __ := h
  removing b' hb := absurd hb (hremoving b')
  through _ := htodo
  resolved := hresolved

theorem Invalidated.mono {n : ℕ} {faults : Prop} (h : s.Invalidated cfg d inv)
    (hwf : s.store.Wf n) (hstep : s.store.Step faults n s'.store) (hclock : s.clock ≤ s'.clock) :
    s'.Invalidated cfg d inv := by
  refine ⟨h.1.trans_le hclock, h.2.imp_right ?_⟩
  rintro ⟨b, r, hb⟩
  obtain ⟨r', hb'⟩ := hb.mono hwf hstep hclock
  exact ⟨b, r', hb'⟩

/-- What an action does to the invalidations: nothing, a new one, or one phase of an old one. -/
inductive Proceeds (cfg : Config) (s s' : Stack K V T) : Prop
  | same (h : s'.invalidations = s.invalidations)
  | call (inv : Invalidation K) (hphase : inv.phase = .called) (hbumped : inv.bumped = none)
      (h : s'.invalidations = Function.update s.invalidations s.clock (some inv))
  | bump (d : ℕ) (inv : Invalidation K) (hd : s.invalidations d = some inv)
      (hphase : inv.phase = .called)
      (hstore : s'.store = s.store.bump s.clock inv.target (s.invalidatedLayers cfg inv))
      (h : s'.invalidations = Function.update s.invalidations d
        (some { inv with bumped := some s.clock, phase := .removing s.clock }))
  | go (d : ℕ) (inv : Invalidation K) (phase : InvalidationPhase K)
      (hd : s.invalidations d = some inv) (hcalled : inv.phase ≠ .called)
      (hthrough : ∀ b, inv.phase = .removing b →
        ∃ r, s.store.removals b = some r ∧ r.todo = [])
      (hremoving : ∀ b, phase ≠ .removing b) (hresolved : ∀ p, phase = .resolved p → p = s.clock)
      (hstore : s'.store = s.store)
      (h : s'.invalidations = Function.update s.invalidations d (some { inv with phase }))

theorem proceeds_invalidateStep [DecidableEq T] {a : InvalidateAction K}
    (h : s.invalidateStep cfg a = some s') : s.Proceeds cfg s' := by
  cases a with
  | delete keys operation | clear | handle message =>
    cases h
    exact .call _ rfl rfl rfl
  | bump d =>
    obtain ⟨inv, queue, hd, hphase, -, rfl⟩ := bump_spec h
    exact .bump d inv hd hphase rfl rfl
  | removed d =>
    obtain ⟨inv, b, r, hd, hphase, hr, htodo, rfl⟩ := removed_spec h
    refine .go d inv _ hd (by simp [hphase]) (fun b' hb => ?_) ?_ ?_ rfl rfl
    · rw [hphase] at hb
      cases hb
      exact ⟨r, hr, htodo⟩
    · intro b'
      split
      · split <;> simp
      · simp
    · intro p hp
      split at hp
      · split at hp <;> cases hp
      · cases hp
  | forget d =>
    obtain ⟨inv, hd, ⟨hphase, rfl⟩ | ⟨key, rest, hphase, rfl⟩ | ⟨hphase, rfl⟩⟩ := forget_spec h
    · exact .go d inv .publishing hd (by simp [hphase]) (by simp [hphase]) (by simp) (by simp)
        rfl rfl
    · exact .go d inv (.forgetting rest) hd (by simp [hphase]) (by simp [hphase]) (by simp)
        (by simp) rfl rfl
    · exact .go d inv .publishing hd (by simp [hphase]) (by simp [hphase]) (by simp) (by simp)
        rfl rfl
  | publish d =>
    obtain ⟨inv, outbox, hd, hphase, -, rfl⟩ := publish_spec h
    refine .go d inv (.resolved s.clock) hd (by simp [hphase]) (by simp [hphase]) (by simp) ?_
      rfl rfl
    rintro p ⟨⟩
    rfl

theorem proceeds_act [DecidableEq T] {a : Action K V T} (h : s.act cfg a = some s') :
    s.Proceeds cfg s' := by
  cases a with
  | fault a =>
    cases a with
    | degrade l | recover l => cases h; exact .same rfl
    | landFail t m i | wipeFail t m i | eraseFail b i =>
      obtain ⟨store, -, rfl⟩ := Option.map_eq_some_iff.mp h
      exact .same rfl
    | loadFail r => obtain ⟨reader, -, -, rfl⟩ := loadFail_spec h; exact .same rfl
    | failRead r => obtain ⟨reader, -, -, rfl⟩ := failRead_spec h; exact .same rfl
    | slideFail g =>
      obtain ⟨get, answer, l, rest, stored, ttl, ahead, -, -, rfl⟩ := slideFail_spec h
      exact .same rfl
  | store a => obtain ⟨store, -, rfl⟩ := storeStep_spec h; exact .same rfl
  | read a => obtain ⟨readers, index, store, rfl⟩ := readStep_frame h; exact .same rfl
  | write a =>
    obtain ⟨writers, index, store, queue, flushing, outbox, rfl⟩ := writeStep_frame h
    exact .same rfl
  | invalidate a => exact proceeds_invalidateStep h
  | get a =>
    obtain ⟨readers, writers, gets, tasks, inF, refs, store, -, rfl⟩ := getStep_frame h
    exact .same rfl

theorem resolved_act [DecidableEq T] {a : Action K V T} (hlt : d < s.clock)
    (hs : s.act cfg a = some s') (hd : s.invalidations d = some inv) {p : ℕ}
    (hphase : inv.phase = .resolved p) : s'.invalidations d = some inv := by
  have hput : ∀ {d' : ℕ} {inv' inv₁ : Invalidation K}, s.invalidations d' = some inv' →
      inv'.phase ≠ .resolved p → Function.update s.invalidations d' (some inv₁) d = some inv := by
    intro d' inv' inv₁ hd' hne
    rw [Function.update_of_ne, hd]
    rintro rfl
    rw [hd] at hd'
    cases hd'
    exact hne hphase
  have hcall : ∀ inv' : Invalidation K,
      Function.update s.invalidations s.clock (some inv') d = some inv := fun inv' => by
    rw [Function.update_of_ne hlt.ne, hd]
  cases a with
  | fault a =>
    cases a with
    | degrade l | recover l => cases hs; exact hd
    | landFail t m i | wipeFail t m i | eraseFail b i =>
      obtain ⟨store, -, rfl⟩ := Option.map_eq_some_iff.mp hs
      exact hd
    | loadFail r => obtain ⟨reader, -, -, rfl⟩ := loadFail_spec hs; exact hd
    | failRead r => obtain ⟨reader, -, -, rfl⟩ := failRead_spec hs; exact hd
    | slideFail g =>
      obtain ⟨get, answer, l, rest, stored, ttl, ahead, -, -, rfl⟩ := slideFail_spec hs
      exact hd
  | store a => obtain ⟨store, -, rfl⟩ := storeStep_spec hs; exact hd
  | read a => obtain ⟨readers, index, store, rfl⟩ := readStep_frame hs; exact hd
  | write a =>
    obtain ⟨writers, index, store, queue, flushing, outbox, rfl⟩ := writeStep_frame hs
    exact hd
  | get a =>
    obtain ⟨readers, writers, gets, tasks, inF, refs, store, -, rfl⟩ := getStep_frame hs
    exact hd
  | invalidate a =>
    cases a with
    | delete keys operation | clear | handle message => cases hs; exact hcall _
    | bump d' =>
      obtain ⟨inv', queue, hd', hp, -, rfl⟩ := bump_spec hs
      exact hput hd' (by simp [hp])
    | removed d' =>
      obtain ⟨inv', b, r, hd', hp, -, -, rfl⟩ := removed_spec hs
      exact hput hd' (by simp [hp])
    | forget d' =>
      obtain ⟨inv', hd', ⟨hp, rfl⟩ | ⟨key, rest, hp, rfl⟩ | ⟨hp, rfl⟩⟩ := forget_spec hs <;>
        exact hput hd' (by simp [hp])
    | publish d' =>
      obtain ⟨inv', outbox, hd', hp, -, rfl⟩ := publish_spec hs
      exact hput hd' (by simp [hp])

omit [DecidableEq K] in
theorem mem_invalidatedLayers (hwork : ∀ l, s.degraded l = false) {l : ℕ} (hl : l < cfg.layers)
    (hlocal : inv.localOnly = true → cfg.isLocal l = true) : l ∈ s.invalidatedLayers cfg inv := by
  simp only [invalidatedLayers, List.mem_filter, List.mem_range, Bool.and_eq_true, Bool.or_eq_true,
    Bool.not_eq_true']
  refine ⟨hl, ?_, ?_⟩
  · cases h : inv.localOnly
    · exact .inl rfl
    · exact .inr (hlocal h)
  · cases inv.target <;> simp [hwork]

theorem Intact.store_act [DecidableEq T] (h : s.Intact cfg) {a : Action K V T}
    (hok : s.Healthy a) (hs : s.act cfg a = some s') :
    s.store.Step False s.clock s'.store := by
  have := h.sound.store_act hs
  have hf : s.Faulty a ↔ False := by
    cases a with
    | fault a => cases hok
    | store a | read a | write a | invalidate a | get a => simp [Faulty, h.working]
  rwa [propext hf] at this

theorem Intact.step [DecidableEq T] (h : s.Intact cfg) {a : Action K V T}
    (hok : s.Healthy a) (hs : s.step cfg a = some s') : s'.Intact cfg := by
  have hsound := h.sound.step hs
  obtain ⟨s₁, hact, rfl⟩ := step_spec hs
  have hstore := h.store_act hok hact
  have hdegraded := degraded_act hact hok
  refine ⟨hsound, h.fenced.step h.sound.wf hstore, fun l => hdegraded ▸ h.working l, ?_⟩
  have hmono : ∀ d inv, s.Invalidated cfg d inv →
      Invalidated cfg { s₁ with clock := s.clock + 1 } d inv := fun d inv hi =>
    hi.mono h.sound.wf hstore (Nat.le_succ _)
  intro d inv hd
  cases proceeds_act hact with
  | same he => exact hmono d inv (h.invalidated d inv (he ▸ hd))
  | call inv' hphase hbumped he =>
    rcases update_eq_some (he ▸ hd) with ⟨rfl, rfl⟩ | ⟨-, hd⟩
    · exact ⟨Nat.lt_succ_self _, .inl ⟨hphase, hbumped⟩⟩
    · exact hmono d inv (h.invalidated d inv hd)
  | bump d' inv' hd' hphase hst he =>
    rcases update_eq_some (he ▸ hd) with ⟨rfl, rfl⟩ | ⟨-, hd⟩
    · obtain ⟨hlt, -⟩ := h.invalidated d inv' hd'
      refine ⟨hlt.trans (Nat.lt_succ_self _), .inr ⟨s.clock,
        .new inv'.target (s.invalidatedLayers cfg inv'), ?_⟩⟩
      refine ⟨rfl, ?_, rfl, fun l hl hlocal => mem_invalidatedLayers h.working hl hlocal, hlt,
        ?_, ?_, ?_⟩
      · simp [hst, Store.bump]
      · rintro b' ⟨⟩
        rfl
      · exact fun hne => absurd rfl (hne s.clock)
      · rintro p ⟨⟩
    · exact hmono d inv (h.invalidated d inv hd)
  | go d' inv' phase hd' hcalled hthrough hremoving hresolved hst he =>
    rcases update_eq_some (he ▸ hd) with ⟨rfl, rfl⟩ | ⟨-, hd⟩
    · obtain ⟨hlt, ⟨hcalled', -⟩ | ⟨b, r, hb⟩⟩ := hmono d inv' (h.invalidated d inv' hd')
      · exact absurd hcalled' hcalled
      refine ⟨hlt, .inr ⟨b, r, hb.phase ?_ hremoving ?_⟩⟩
      · by_cases hrem : ∃ b', inv'.phase = .removing b'
        · obtain ⟨b', hb'⟩ := hrem
          obtain ⟨r', hr', htodo⟩ := hthrough b' hb'
          have := hb.removing b' hb'
          subst this
          have hr := hb.removal
          simp only [hst] at hr
          rw [hr'] at hr
          cases hr
          exact htodo
        · exact hb.through fun b' hb' => hrem ⟨b', hb'⟩
      · intro p hp
        obtain rfl := hresolved p hp
        have := h.sound.wf.removals_lt b r (by simpa [hst] using hb.removal)
        exact ⟨this, Nat.lt_succ_self _⟩
    · exact hmono d inv (h.invalidated d inv hd)

theorem intact_initial (now : Millis) (contents : ℕ → K → Option (Stored V × Option Millis)) :
    (initial now contents : Stack K V T).Intact cfg where
  sound := sound_initial now contents
  fenced := by
    refine ⟨by simp [initial], by simp [initial], by simp [initial]⟩
  working _ := rfl
  invalidated := by simp [initial]

theorem Intact.of_reaches [DecidableEq T] {now : Millis}
    {contents : ℕ → K → Option (Stored V × Option Millis)}
    {ok : Stack K V T → Action K V T → Prop} (hok : ∀ s a, ok s a → s.Healthy a)
    (h : Reaches (Stack.step cfg) ok (initial now contents) s) : s.Intact cfg :=
  Reaches.invariant (P := fun s => s.Intact cfg) h
    (fun s a _ hi ha hs => hi.step (hok s a ha) hs) (intact_initial now contents)

end Stack

end LayerCache
