import LayerCache.Stack.Revival

/-! # Gets without fetcher

Without a fetcher and without a sliding TTL a `get` is a read: it never enters the
stampede guard, starts no task and writes nothing outside of the chain.
-/

namespace LayerCache

variable {K V T : Type} [DecidableEq K] {cfg : Config} {s s' : Stack K V T}

structure Get.Plain (get : Get K V) : Prop where
  fetcher : get.options.hasFetcher = false
  slidingTtl : get.options.slidingTtl = false
  sliding : ∀ answer todo stored ttl ahead, get.phase = .sliding answer todo stored ttl ahead →
    todo = [] ∧ ahead = false
  entering : ∀ fallback, get.phase ≠ .entering fallback
  waiting : ∀ i fallback, get.phase ≠ .waiting i fallback

omit [DecidableEq K] in
theorem Get.Plain.go {get : Get K V} (h : get.Plain) {phase : GetPhase V}
    (hphase : phase = .failed ∨ ∃ answer, phase = .done answer) : Plain { get with phase } where
  fetcher := h.fetcher
  slidingTtl := h.slidingTtl
  sliding := by rcases hphase with rfl | ⟨answer, rfl⟩ <;> simp
  entering := by rcases hphase with rfl | ⟨answer, rfl⟩ <;> simp
  waiting := by rcases hphase with rfl | ⟨answer, rfl⟩ <;> simp

namespace Stack

/-- All gets are called without fetcher and without sliding TTL. -/
def CallsPlain : Action K V T → Prop
  | .get (.get _ options) => options.hasFetcher = false ∧ options.slidingTtl = false
  | _ => True

instance : DecidablePred (CallsPlain : Action K V T → Prop) := fun a => by
  induction a using Action.casesOn with
  | get a => induction a using GetAction.casesOn <;> (unfold CallsPlain; infer_instance)
  | _ => exact isTrue trivial

structure PlainGets (s : Stack K V T) : Prop where
  gets : ∀ g get, s.gets g = some get → get.Plain
  tasks : ∀ i, s.tasks i = none

omit [DecidableEq K] in
theorem PlainGets.putGet (h : s.PlainGets) {g : ℕ} {get : Get K V} (hget : get.Plain) :
    (s.putGet g get).PlainGets where
  gets g' get' hg' := by
    rcases update_eq_some hg' with ⟨-, rfl⟩ | ⟨-, hg'⟩
    · exact hget
    · exact h.gets g' get' hg'
  tasks := h.tasks

theorem PlainGets.getStep (h : s.PlainGets) {a : GetAction K V T} (hok : CallsPlain (.get a))
    (hs : s.getStep cfg a = some s') : s'.PlainGets := by
  cases a with
  | get key options =>
    cases hs
    have hopen : (s.openReader key .allowStale).PlainGets := ⟨h.gets, h.tasks⟩
    exact hopen.putGet ⟨hok.1, hok.2, by simp, by simp, by simp⟩
  | conclude g =>
    obtain ⟨get, reader, hg, -, -, hconcl⟩ := conclude_spec hs
    have hget := h.gets g get hg
    cases hconcl with
    | failed hr => exact h.putGet (hget.go (.inl rfl))
    | absent hr hf => exact h.putGet (hget.go (.inr ⟨_, rfl⟩))
    | fresh hit hr hstate todo stored ttl ahead htodo hahead =>
      refine h.putGet ⟨hget.fetcher, hget.slidingTtl, ?_, by simp, by simp⟩
      rintro answer todo' stored' ttl' ahead' ⟨⟩
      refine ⟨?_, by simp [hahead, shouldScheduleBackgroundRefresh, hget.fetcher]⟩
      rcases htodo with rfl | ⟨href, -⟩
      · rfl
      · simp [refreshedStored, hget.slidingTtl] at href
    | stale hit hr hstate hf => exact h.putGet (hget.go (.inr ⟨_, rfl⟩))
    | fallback hit hr hstate hf => exact h.putGet (hget.go (.inr ⟨_, rfl⟩))
    | miss hr hf => simp [hget.fetcher] at hf
    | refresh hit hr hstate hf => simp [hget.fetcher] at hf
    | staleIfError hit hr hstate hf => simp [hget.fetcher] at hf
  | slide g =>
    obtain ⟨get, answer, todo, stored, ttl, ahead, hg, hphase, ⟨-, rfl | ⟨ha, -⟩⟩ |
      ⟨l, rest, rfl, -⟩⟩ := slide_spec hs
    · exact h.putGet ((h.gets g get hg).go (.inr ⟨_, rfl⟩))
    · simp [((h.gets g get hg).sliding _ _ _ _ _ hphase).2] at ha
    · simpa using ((h.gets g get hg).sliding _ _ _ _ _ hphase).1
  | enter g =>
    obtain ⟨get, fallback, hg, hphase, -⟩ := enter_spec hs
    exact absurd hphase ((h.gets g get hg).entering fallback)
  | leave g =>
    obtain ⟨get, i, fallback, task, result, phase, inFlight, refreshes, hg, hphase, -⟩ :=
      leave_spec hs
    exact absurd hphase ((h.gets g get hg).waiting i fallback)
  | recheck i => obtain ⟨task, missed, hi, -⟩ := recheck_spec hs; simp [h.tasks] at hi
  | rechecked i => obtain ⟨task, r, reader, phase, hi, -⟩ := rechecked_spec hs; simp [h.tasks] at hi
  | fetch i => obtain ⟨task, missed, hi, -⟩ := fetch_spec hs; simp [h.tasks] at hi
  | fetched i outcome => obtain ⟨task, born, hi, -⟩ := fetched_spec hs; simp [h.tasks] at hi
  | stored i => obtain ⟨task, w, answer, writer, hi, -⟩ := stored_spec hs; simp [h.tasks] at hi
  | giveUp i => obtain ⟨task, missed, hi, -⟩ := giveUp_spec hs; simp [h.tasks] at hi
  | settle i =>
    obtain ⟨task, result, inFlight, hi, -⟩ := settleTask_spec hs
    simp [h.tasks] at hi

/-- As long as all gets are called plainly, they stay plain and nothing is fetched. -/
theorem PlainGets.act [DecidableEq T] (h : s.PlainGets) {a : Action K V T} (hok : CallsPlain a)
    (hhealthy : s.Healthy a) (hs : s.act cfg a = some s') : s'.PlainGets := by
  cases a with
  | store a => obtain ⟨store, -, rfl⟩ := storeStep_spec hs; exact ⟨h.gets, h.tasks⟩
  | fault a => cases hhealthy
  | read a => obtain ⟨readers, index, store, rfl⟩ := readStep_frame hs; exact ⟨h.gets, h.tasks⟩
  | write a =>
    obtain ⟨writers, index, store, queue, flushing, outbox, rfl⟩ := writeStep_frame hs
    exact ⟨h.gets, h.tasks⟩
  | invalidate a =>
    obtain ⟨invs, index, store, queue, outbox, rfl⟩ := invalidateStep_frame hs
    exact ⟨h.gets, h.tasks⟩
  | get a => exact h.getStep hok hs

theorem PlainGets.step [DecidableEq T] (h : s.PlainGets) {a : Action K V T} (hok : CallsPlain a)
    (hhealthy : s.Healthy a) (hs : s.step cfg a = some s') : s'.PlainGets := by
  obtain ⟨s₁, hact, rfl⟩ := step_spec hs
  have h₁ := h.act hok hhealthy hact
  exact ⟨h₁.gets, h₁.tasks⟩

omit [DecidableEq K] in
theorem plainGets_initial (now : Millis) (contents : ℕ → K → Option (Stored V × Option Millis)) :
    (initial now contents : Stack K V T).PlainGets :=
  ⟨by rintro g get ⟨⟩, fun _ => rfl⟩

omit [DecidableEq K] in
theorem PlainGets.not_slideRevives {of : ℕ → Prop} (h : s.PlainGets) (a : Action K V T) :
    ¬ s.SlideRevives of a := by
  unfold SlideRevives
  split
  · rintro ⟨get, hg, hrev⟩
    split at hrev
    · rename_i hphase
      simpa using ((h.gets _ get hg).sliding _ _ _ _ _ hphase).1
    · exact hrev
  · exact id

end Stack

end LayerCache
