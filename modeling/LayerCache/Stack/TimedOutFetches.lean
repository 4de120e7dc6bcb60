import LayerCache.Stack.EntryTimeout

/-! # Timed-out fetches

A fetch that has exceeded the entry timeout goes on behind a new fence. What it stores
later, the cleanup of that store takes back, unless a read that began after the timeout
has got hold of the value in between and brings it back under a fence of its own.
-/

namespace LayerCache

open Store Transition

variable {K V T : Type} {cfg : Config}

def TaskPhase.Recorded (fetchedAt storedAs : Option ℕ) : TaskPhase V → Prop
  | .idle _ | .rechecking _ => fetchedAt = none ∧ storedAs = none
  | .fetching born => fetchedAt = some born ∧ storedAs = none
  | .storing _ _ | .resolved _ => True

/-- The task is the same, as far as its key and its fence go. -/
structure Task.Same (task task' : Task K V) : Prop where
  key : task'.key = task.key
  fence : task'.fence = task.fence
  captured : task'.captured = task.captured

namespace Stack

variable [DecidableEq K] {s s' : Stack K V T} {a : Action K V T} {i : ℕ} {task task' : Task K V}

theorem TaskGoes.same (h : s.TaskGoes cfg i task a task') : task.Same task' := by
  cases h <;> exact ⟨rfl, rfl, rfl⟩

/-- No task goes away, and none changes its key or its fence. -/
theorem TasksGo.same_of {tasks : ℕ → Option (Task K V)} (h : s.TasksGo cfg a tasks)
    (hlt : i < s.clock) (hi : s.tasks i = some task) :
    ∃ task', tasks i = some task' ∧ task.Same task' := by
  obtain ⟨task', hi', rfl | hgo⟩ := h.kept hlt hi
  · exact ⟨task', hi', rfl, rfl, rfl⟩
  · exact ⟨task', hi', hgo.same⟩

theorem timeout_kept {g : ℕ} (h : s.timeout cfg g = some s') (hi : s.tasks i = some task) :
    ∃ task', s'.tasks i = some task' ∧ task.Same task' := by
  obtain ⟨get, j, fallback, task₀, phase, store, inFlight, refreshes, -, -, hj, -, -, -, rfl⟩ :=
    timeout_spec h
  by_cases hij : i = j
  · subst hij
    obtain rfl := Option.some.inj (hi.symm.trans hj)
    exact ⟨_, Function.update_self .., rfl, rfl, rfl⟩
  · exact ⟨task, by simp [putGet, putTask, hij, hi], rfl, rfl, rfl⟩

theorem timeout_back {g : ℕ} (h : s.timeout cfg g = some s') (hi : s'.tasks i = some task') :
    ∃ task, s.tasks i = some task ∧ task.Same task' ∧ task'.phase = task.phase := by
  obtain ⟨get, j, fallback, task₀, phase, store, inFlight, refreshes, -, -, hj, -, -, -, rfl⟩ :=
    timeout_spec h
  rcases update_eq_some hi with ⟨rfl, rfl⟩ | ⟨-, hi⟩
  · exact ⟨task₀, hj, ⟨rfl, rfl, rfl⟩, rfl⟩
  · exact ⟨task', hi, ⟨rfl, rfl, rfl⟩, rfl⟩

end Stack

namespace TimeoutStack

variable [DecidableEq K] {s s' : TimeoutStack K V T} {i w born : ℕ} {task : Task K V}

/-- Order `w` stores what task `i` fetched: it was the first to, it has the task's fence, and it
answers for the value. -/
structure Stores (cfg : Config) (s : TimeoutStack K V T) (i w : ℕ) (task : Task K V) (born : ℕ) :
    Prop where
  fetched : s.fetchedAt i = some born
  order : ∃ o, s.stack.store.orders w = some o ∧ o.fence task.key = task.fence ∧
    o.captured = task.captured
  first : ∀ t o p, s.stack.store.orders t = some o → o.Writes p → p.item.born = born → w ≤ t
  answers : s.stack.store.Answers cfg.layers w task.key born (s.reached w)

/-- What holds in runs that keep retracted values away. -/
structure Inv (cfg : Config) (s : TimeoutStack K V T) : Prop where
  intact : s.stack.Intact cfg
  linked : s.stack.Linked cfg s.stack.clock
  recorded : ∀ i task, s.stack.tasks i = some task →
    task.phase.Recorded (s.fetchedAt i) (s.storedAs i)
  fetched : ∀ i born, s.fetchedAt i = some born →
    born < s.stack.clock ∧ ∃ task, s.stack.tasks i = some task
  unique : ∀ i j born, s.fetchedAt i = some born → s.fetchedAt j = some born → i = j
  copies_lt : ∀ w k born, s.stack.Bears w k born → born < s.stack.clock
  traced : ∀ i task born, s.stack.tasks i = some task → s.fetchedAt i = some born →
    ∀ u k, s.stack.Bears u k born → k = task.key ∧
      ∃ w, s.storedAs i = some w ∧ (u = w → Started s.stack.store.chain w)
  stored : ∀ i w, s.storedAs i = some w → ∃ task born, s.stack.tasks i = some task ∧
    s.Stores cfg i w task born
  timedOut : ∀ i x, s.timedOut i = some x → ∃ task r, s.stack.tasks i = some task ∧
    s.stack.store.removals x.step = some r ∧ r.target = .keys [task.key] ∧
      task.captured < x.step ∧ ∀ w, s.storedAs i = some w →
        w < x.step ∧ (x.stored = false → ¬ s.stack.store.Committed w)

variable {a : Action K V T}

theorem observe_timedOut : (s.observe a).timedOut = s.timedOut := by
  unfold observe
  split
  · rfl
  · split <;> rfl
  · split <;> rfl
  · rfl

theorem Inv.fetchedAt_observe [DecidableEq T] (h : s.Inv cfg) {stack : Stack K V T}
    (hs : s.stack.act cfg a = some stack) : (s.observe a).fetchedAt i = some born ↔
      s.fetchedAt i = some born ∨ (a = .get (.fetch i) ∧ born = s.stack.clock) := by
  unfold observe
  split
  · rename_i j
    obtain ⟨task, missed, hj, hphase, -, -⟩ := Stack.fetch_spec hs
    have hrec := h.recorded j task hj
    rw [hphase] at hrec
    by_cases hij : i = j
    · subst hij
      simp [hrec.1, eq_comm]
    · simp [hij, Ne.symm hij]
  · split <;> simp
  · split <;> simp
  · rename_i hne _ _
    simp only [iff_self_or, and_imp]
    rintro rfl
    exact (hne i rfl).elim

theorem Inv.storedAs_observe [DecidableEq T] (h : s.Inv cfg) {stack : Stack K V T}
    (hs : s.stack.act cfg a = some stack) : (s.observe a).storedAs i = some w ↔
      s.storedAs i = some w ∨ (w = s.stack.clock ∧ ∃ task write tags,
        a = .get (.fetched i (.store write tags)) ∧ s.stack.tasks i = some task ∧
          s.stack.store.epochs.isWriteOutdated task.key task.fence = false) := by
  unfold observe
  split
  · simp
  · rename_i j write tags
    have hs' : s.stack.fetched cfg j (.store write tags) = some stack := hs
    obtain ⟨task, born, hj, hphase, -⟩ := Stack.fetched_spec hs'
    have hrec := h.recorded j task hj
    rw [hphase] at hrec
    cases hout : s.stack.store.epochs.isWriteOutdated task.key task.fence with
    | true =>
      simp only [hj, Option.all_some, hout, if_true]
      refine ⟨.inl, fun hcases => hcases.resolve_right ?_⟩
      rintro ⟨-, task', write', tags', he, hi, hfalse⟩
      cases he
      obtain rfl := Option.some.inj (hj.symm.trans hi)
      simp [hout] at hfalse
    | false =>
      simp only [hj, Option.all_some, hout, Bool.false_eq_true, if_false]
      by_cases hij : i = j
      · subst hij
        simp only [Function.update_self, Option.some.injEq, hrec.2]
        refine ⟨fun he => .inr ⟨he.symm, task, write, tags, rfl, hj, hout⟩, fun hcases => ?_⟩
        rcases hcases with he | ⟨he, -⟩
        · cases he
        · exact he.symm
      · simp only [Function.update_of_ne hij]
        refine ⟨.inl, fun hcases => hcases.resolve_right ?_⟩
        rintro ⟨-, task', write', tags', he, -⟩
        cases he
        exact hij rfl
  · split <;> simp
  · rename_i hne _
    simp only [iff_self_or, and_imp]
    rintro - ⟨task, write, tags, rfl, -⟩
    exact (hne i write tags rfl).elim

theorem Inv.fetchedAt_eq [DecidableEq T] (h : s.Inv cfg) {stack : Stack K V T}
    (hs : s.stack.act cfg a = some stack) (hne : a ≠ .get (.fetch i)) :
    (s.observe a).fetchedAt i = s.fetchedAt i :=
  Option.ext fun born => by simp [h.fetchedAt_observe hs, hne]

theorem Inv.storedAs_eq [DecidableEq T] (h : s.Inv cfg) {stack : Stack K V T}
    (hs : s.stack.act cfg a = some stack)
    (hne : ¬ ∃ write tags, a = .get (.fetched i (.store write tags))) :
    (s.observe a).storedAs i = s.storedAs i := by
  refine Option.ext fun w => ?_
  rw [h.storedAs_observe hs]
  refine ⟨fun hw => hw.resolve_right ?_, .inl⟩
  rintro ⟨-, task, write, tags, rfl, -⟩
  exact hne ⟨write, tags, rfl⟩

theorem Inv.recorded_act [DecidableEq T] (h : s.Inv cfg) (hok : s.stack.Healthy a)
    {stack : Stack K V T} (hs : s.stack.act cfg a = some stack) {task' : Task K V}
    (hi : stack.tasks i = some task') :
    task'.phase.Recorded ((s.observe a).fetchedAt i) ((s.observe a).storedAs i) := by
  by_cases hfetch : a = .get (.fetch i)
  · subst hfetch
    obtain ⟨task, missed, hi₀, hphase, -, rfl⟩ := Stack.fetch_spec hs
    obtain rfl : { task with phase := .fetching s.stack.clock } = task' := by
      simpa [Stack.putTask] using hi
    have hrec := h.recorded i task hi₀
    rw [hphase] at hrec
    refine ⟨(h.fetchedAt_observe hs).mpr (.inr ⟨rfl, rfl⟩), ?_⟩
    rw [h.storedAs_eq hs (by simp)]
    exact hrec.2
  by_cases hfetched : ∃ write tags, a = .get (.fetched i (.store write tags))
  · obtain ⟨write, tags, rfl⟩ := hfetched
    have hs' : s.stack.fetched cfg i (.store write tags) = some stack := hs
    obtain ⟨task, born, hi₀, -, ⟨result, -, -, rfl⟩ | ⟨write', tags', -, -, rfl⟩⟩ :=
      Stack.fetched_spec hs'
    · obtain rfl : { task with phase := .resolved result } = task' := by
        simpa [Stack.putTask] using hi
      trivial
    · obtain rfl : { task with phase := .storing s.stack.clock ⟨write'.answer, some born⟩ } =
          task' := by simpa [Stack.putTask] using hi
      trivial
  rw [h.fetchedAt_eq hs hfetch, h.storedAs_eq hs hfetched]
  rcases (Stack.tasksGo_act hok hs).back hi with hi | ⟨rfl, get, g, rfl⟩ | ⟨task, hi₀, hgo⟩
  · exact h.recorded i task' hi
  · have hfree : ∀ task, s.stack.tasks s.stack.clock ≠ some task := fun task hi =>
      absurd (h.linked.task_lt _ task hi) (lt_irrefl _)
    constructor
    · refine Option.eq_none_iff_forall_ne_some.mpr fun born hb => ?_
      obtain ⟨-, task, hi⟩ := h.fetched _ born hb
      exact hfree task hi
    · refine Option.eq_none_iff_forall_ne_some.mpr fun w hw => ?_
      obtain ⟨task, born, hi, -⟩ := h.stored _ w hw
      exact hfree task hi
  · have hrec := h.recorded i task hi₀
    cases hgo with
    | fetch => exact absurd rfl hfetch
    | store write tags => exact absurd ⟨write, tags, rfl⟩ hfetched
    | recheck hphase | missed hphase =>
      rw [hphase] at hrec
      exact hrec
    | join | left | settle => exact hrec
    | found | failed | fetched | stored | giveUp => trivial

/-- What a store is about to write had been fetched before, and nothing else stores it. -/
theorem Inv.fetching (h : s.Inv cfg) (hi : s.stack.tasks i = some task)
    (hphase : task.phase = .fetching born) :
    s.fetchedAt i = some born ∧ ∀ u k, ¬ s.stack.Bears u k born := by
  have hrec := h.recorded i task hi
  rw [hphase] at hrec
  refine ⟨hrec.1, fun u k hb => ?_⟩
  obtain ⟨-, w, hw, -⟩ := h.traced i task born hi hrec.1 u k hb
  simp [hrec.2] at hw

theorem Inv.lt_of_bears [DecidableEq T] (h : s.Inv cfg) (hok : s.stack.OnlyFetches a)
    {stack : Stack K V T} (hs : s.stack.act cfg a = some stack) {k : K}
    (hb : stack.Bears w k born) : born < s.stack.clock := by
  cases Stack.bears_act h.intact h.linked hok hs hb with
  | copied hb => exact h.copies_lt w k born hb
  | landed ha hlanding hk hb =>
    obtain ⟨ho, hp, -⟩ := h.intact.sound.wf.landing hlanding
    exact h.copies_lt (w + 1) k born (.put (Nat.lt_succ_self w).ne ho hp hk hb)
  | fetched ha hi hphase => exact (h.fetched _ born (h.fetching hi hphase).1).1

theorem Inv.traced_act [DecidableEq T] (h : s.Inv cfg) (hok : s.stack.OnlyFetches a)
    {stack : Stack K V T} (hs : s.stack.act cfg a = some stack) {task' : Task K V}
    (hi : stack.tasks i = some task') (hborn : (s.observe a).fetchedAt i = some born) {u : ℕ}
    {k : K} (hb : stack.Bears u k born) : k = task'.key ∧
      ∃ w, (s.observe a).storedAs i = some w ∧ (u = w → Started stack.store.chain w) := by
  have hstep := h.intact.store_act hok.healthy hs
  have hwf := h.intact.sound.wf
  have hborn₀ : s.fetchedAt i = some born := by
    refine ((h.fetchedAt_observe hs).mp hborn).resolve_right ?_
    rintro ⟨-, rfl⟩
    exact absurd (h.lt_of_bears hok hs hb) (lt_irrefl _)
  obtain ⟨-, task, hi₀⟩ := h.fetched i born hborn₀
  obtain ⟨task₁, hi₁, hsame⟩ :=
    (Stack.tasksGo_act hok.healthy hs).same_of (h.linked.task_lt i task hi₀) hi₀
  obtain rfl := Option.some.inj (hi₁.symm.trans hi)
  rw [hsame.key]
  have hkeeps : ∀ w, s.storedAs i = some w → (s.observe a).storedAs i = some w := fun w hw =>
    (h.storedAs_observe hs).mpr (.inl hw)
  cases Stack.bears_act h.intact h.linked hok hs hb with
  | copied hb =>
    obtain ⟨hk, w, hw, hstarted⟩ := h.traced i task born hi₀ hborn₀ u k hb
    exact ⟨hk, w, hkeeps w hw, fun hu => hstep.started hwf (hstarted hu)⟩
  | @landed m j o p ha hlanding hk hb =>
    obtain ⟨ho, hp, -⟩ := hwf.landing hlanding
    obtain ⟨hk, w, hw, -⟩ := h.traced i task born hi₀ hborn₀ (u + 1) k
      (.put (Nat.lt_succ_self u).ne ho hp hk hb)
    refine ⟨hk, w, hkeeps w hw, ?_⟩
    rintro rfl
    obtain ⟨st, st', -, hst, hland⟩ := landing_spec hlanding
    obtain ⟨hplanned, hdone, -⟩ := Strand.busy_of_land hland
    obtain ⟨tk, htk, hrun⟩ := hwf.running ho (List.mem_of_getElem? hst) hplanned hdone
    exact hstep.started hwf ⟨tk, htk.get, by simp [hrun]⟩
  | @fetched j task₂ write tags ha hj hphase hk hne hcurrent =>
    obtain rfl := h.unique i j born hborn₀ (h.fetching hj hphase).1
    obtain rfl := Option.some.inj (hi₀.symm.trans hj)
    refine ⟨hk.symm, s.stack.clock, ?_, fun hu => absurd hu.symm hne⟩
    exact (h.storedAs_observe hs).mpr (.inr ⟨rfl, task, write, tags, ha, hj, hcurrent⟩)

omit [DecidableEq K] in
theorem Stores.lt_clock [DecidableEq K] (h : s.Inv cfg) (hst : s.Stores cfg i w task born) :
    w < s.stack.clock := by
  obtain ⟨o, ho, -⟩ := hst.order
  exact h.intact.sound.wf.lt_of_order ho

/-- An order that has found its fence outdated has left its value retracted. -/
theorem Inv.retracted (h : s.Inv cfg) (hi : s.stack.tasks i = some task)
    (hw : s.storedAs i = some w) (hst : s.Stores cfg i w task born)
    (hnot : ¬ s.stack.store.Committed w) (hout : ∃ o ∈ s.stack.store.orders w,
      s.stack.store.epochs.isWriteOutdated task.key (o.fence task.key) = true) :
    s.Retracted w born := by
  obtain ⟨o, ho, hfence, -⟩ := hst.order
  obtain ⟨o', ho', hout⟩ := hout
  obtain rfl := Option.some.inj (ho.symm.trans ho')
  exact ⟨i, h.linked.task_lt i task hi, hst.fetched, hw, hnot, task, hi, hfence ▸ hout⟩

theorem Inv.settledAt_of_start (h : s.Inv cfg) (hst : s.Stores cfg i w task born) {u : ℕ}
    (hlt : w < u) {skipped : ℕ → Bool} {c : Store K V}
    (hstart : s.stack.store.start skipped u = some c) {o : Order K V}
    (ho : s.stack.store.orders u = some o) (hk : task.key ∈ o.keys) :
    s.stack.store.chain.settledAt w = true := by
  have hwf := h.intact.sound.wf
  obtain ⟨chain, -, hchain, -⟩ := start_spec hstart
  obtain ⟨ow, st, how, hsole, -⟩ := hst.answers.order
  obtain ⟨tk, htk⟩ := hwf.ticket w ow how
  obtain ⟨tk', htk'⟩ := hwf.ticket u o ho
  by_contra hnot
  refine hwf.chain.first_of_start hchain htk'.get ((htk'.keys _).mpr hk) ⟨tk, htk.get, ?_, ?_⟩ hlt
  · exact (htk.keys _).mpr (by simp [hsole.keys])
  · simpa [TailChain.Chain.settledAt, htk.get] using hnot

theorem Inv.answers_store (h : s.Inv cfg) {a : StoreAction}
    (hok : s.KeepsRetracted (.stack (.store a))) {c : Store K V}
    (hc : s.stack.storeChange a = some c) (hi : s.stack.tasks i = some task)
    (hw : s.storedAs i = some w) (hst : s.Stores cfg i w task born) :
    c.Answers cfg.layers w task.key born ((s.observe (.store a)).reached w) := by
  have hwf := h.intact.sound.wf
  cases a with
  | tick d =>
    simp only [Stack.storeChange, Option.ite_none_right_eq_some, Option.some.injEq] at hc
    obtain ⟨-, rfl⟩ := hc
    exact hst.answers.of_other rfl rfl (fun t _ hp => .inl hp) fun l _ cell hcell _ => .inl hcell
  | start u =>
    refine hst.answers.start h.intact.working hc hwf fun hne o ho p hp hb hcurrent => ?_
    obtain ⟨hk, -⟩ := h.traced i task born hi hst.fetched w p.key (.put hne ho hp rfl hb)
    have hlt : w < u := lt_of_le_of_ne (hst.first u o p ho hp hb) (Ne.symm hne)
    obtain ⟨st, hmem, hput⟩ := hp
    have hkey := (hwf.strand u o ho st hmem).put_key p hput
    have hsettled := h.settledAt_of_start hst hlt hc ho (hk ▸ hkey)
    by_contra hnot
    have hout := (hst.answers.settled hwf hsettled).resolve_left hnot
    exact hok.start ⟨o, ho, st, hmem, p, hput, hcurrent, w, hst.lt_clock h,
      hb ▸ h.retracted hi hw hst hnot hout⟩
  | land u m j =>
    refine hst.answers.land hc ?_ ?_
    · rintro o p rfl hlanding
      simp [observe, hlanding]
    · intro hne
      simp only [observe]
      split
      · simp [Ne.symm hne]
      · rfl
  | check u m => exact hst.answers.check hc
  | wipe u m j => exact hst.answers.wipe hc
  | settle u =>
    obtain ⟨o, chain, -, -, -, rfl⟩ := settle_spec hc
    exact hst.answers.of_other rfl rfl (fun t _ hp => .inl hp) fun l _ cell hcell _ => .inl hcell
  | erase b j =>
    have hcells : ∀ l cell, c.cells l task.key = some cell →
        s.stack.store.cells l task.key = some cell := fun l cell hcell => erase_cells hc hcell
    obtain ⟨r, l₀, -, ⟨k₀, -, rfl⟩ | ⟨-, rfl⟩⟩ := erase_spec hc
    · exact hst.answers.of_other rfl rfl (fun t _ hp => .inl hp)
        fun l _ cell hcell _ => .inl (hcells l cell hcell)
    · exact hst.answers.of_other rfl rfl (fun t _ hp => .inl hp)
        fun l _ cell hcell _ => .inl (hcells l cell hcell)

/-- A renewed sliding TTL stays within reach of the cleanup of the value's order. -/
theorem Inv.answers_slide (h : s.Inv cfg) {g : ℕ}
    (hok : s.KeepsRetracted (.stack (.get (.slide g)))) (hi : s.stack.tasks i = some task)
    (hw : s.storedAs i = some w) (hst : s.Stores cfg i w task born) {get : Get K V}
    {answer : Answer V} {l : ℕ} {rest : List ℕ} {stored : Item V} {ttl : Option Millis}
    {ahead : Bool} (hg : s.stack.gets g = some get)
    (hphase : get.phase = .sliding answer (l :: rest) stored ttl ahead) :
    (s.stack.store.layerSet ⟨l, get.key, stored, ttl⟩ none).Answers cfg.layers w task.key born
      (s.reached w) := by
  refine hst.answers.of_other rfl rfl (fun t _ hp => .inl hp) fun l' hl' cell hcell hb => ?_
  rw [layerSet, cells_setCell] at hcell
  split at hcell
  · rename_i hlk
    obtain ⟨rfl, hk⟩ := hlk
    obtain rfl := Option.some.inj hcell
    right
    by_contra hnot
    rw [not_or] at hnot
    obtain ⟨hhand, hcommitted⟩ := hnot
    have hbears : s.stack.Bears w get.key born :=
      .renewing (g := g) (x := ⟨get.key, stored, l' :: rest⟩)
        (by simp [Stack.renewal, hg, hphase]) rfl hb
    obtain ⟨-, w', hw', hstarted⟩ := h.traced i task born hi hst.fetched w get.key hbears
    obtain rfl := Option.some.inj (hw.symm.trans hw')
    have hout := hst.answers.refused h.intact.sound.wf (hstarted rfl) hl' hcommitted hhand
    refine hok.slide ⟨⟨l', get.key, stored, ttl⟩, ?_, w, hst.lt_clock h, ?_, hk ▸ hhand⟩
    · simp [Stack.placing, hg, hphase, h.intact.working]
    · exact hb ▸ h.retracted hi hw hst hcommitted hout
  · exact .inl hcell

theorem Inv.answers_act [DecidableEq T] (h : s.Inv cfg) (hok : s.KeepsRetracted (.stack a))
    {stack : Stack K V T} (hs : s.stack.act cfg a = some stack)
    (hi : s.stack.tasks i = some task) (hw : s.storedAs i = some w)
    (hst : s.Stores cfg i w task born) :
    stack.store.Answers cfg.layers w task.key born ((s.observe a).reached w) := by
  have hfetches := hok.fetches a rfl
  by_cases hstore : ∃ a', a = .store a'
  · obtain ⟨a', rfl⟩ := hstore
    obtain ⟨c, hc, rfl⟩ := Stack.storeStep_spec hs
    exact h.answers_store hok hc hi hw hst
  have hreached : (s.observe a).reached = s.reached := by
    unfold observe
    split
    · rfl
    · split <;> rfl
    · exact absurd ⟨_, rfl⟩ hstore
    · rfl
  rw [hreached]
  have heffect := Stack.effect_act hs
  generalize stack.store = c at heffect
  cases heffect with
  | same => exact hst.answers
  | store a' => exact absurd ⟨a', rfl⟩ hstore
  | landFail | wipeFail | eraseFail | bump => cases hfetches
  | purge r hr hphase =>
    exact hst.answers.of_other rfl rfl (fun t _ hp => .inl hp)
      fun l _ cell hcell _ => .inl (layerDelete_cells hcell)
  | enlist hadmits =>
    refine hst.answers.enlist (hst.lt_clock h) ?_
    cases hadmits with
    | backfill r ttls => simp [Stack.backfillOrder, Strand.plan]
    | fetched j write tags => simp [Stack.setOrder, Strand.plan]
    | set | mset | flush => cases hfetches
  | slide g hg hphase => exact h.answers_slide hok hi hw hst hg hphase

theorem Inv.stores_act [DecidableEq T] (h : s.Inv cfg) (hok : s.KeepsRetracted (.stack a))
    {stack : Stack K V T} (hs : s.stack.act cfg a = some stack)
    (hi : s.stack.tasks i = some task) (hw : s.storedAs i = some w)
    (hst : s.Stores cfg i w task born) {task' : Task K V} (hsame : task.Same task') :
    Stores cfg { s.observe a with stack } i w task' born := by
  have hwf := h.intact.sound.wf
  have hstep := h.intact.store_act (hok.fetches a rfl).healthy hs
  constructor
  · exact (h.fetchedAt_observe hs).mpr (.inl hst.fetched)
  · obtain ⟨o, ho, hfence, hcaptured⟩ := hst.order
    obtain ⟨o', ho', hsame'⟩ := hstep.order hwf ho
    exact ⟨o', ho', by rw [hsame'.fence, hsame.key, hsame.fence, hfence],
      by rw [hsame'.captured, hsame.captured, hcaptured]⟩
  · intro t o p ho hp hb
    rcases Stack.orders_act hs ho with ⟨o₀, ho₀, hsame'⟩ | ⟨rfl, -⟩
    · exact hst.first t o₀ p ho₀ (hsame'.writes_iff.mp hp) hb
    · exact (hst.lt_clock h).le
  · rw [hsame.key]
    exact h.answers_act hok hs hi hw hst

/-- The order of a store writes to every layer, and nothing has come of its value before. -/
theorem Inv.stores_fetched [DecidableEq T] (h : s.Inv cfg)
    (hthrough : ∀ l, cfg.writeBehind l = false) {stack : Stack K V T} {write : WriteValue V}
    {tags : Option (List T)} (hs : s.stack.act cfg (.get (.fetched i (.store write tags))) =
      some stack) (hi : s.stack.tasks i = some task)
    (hcurrent : s.stack.store.epochs.isWriteOutdated task.key task.fence = false)
    {task' : Task K V} (hsame : task.Same task') :
    ∃ born, Stores cfg { s.observe (.get (.fetched i (.store write tags))) with stack } i
      s.stack.clock task' born := by
  have hwf := h.intact.sound.wf
  have hs' : s.stack.fetched cfg i (.store write tags) = some stack := hs
  obtain ⟨task₀, born, hi₀, hphase, ⟨result, -, hout, -⟩ | ⟨write', tags', he, -, rfl⟩⟩ :=
    Stack.fetched_spec hs'
  · obtain rfl := Option.some.inj (hi.symm.trans hi₀)
    simp [(hout write tags rfl).2] at hcurrent
  obtain rfl := Option.some.inj (hi.symm.trans hi₀)
  cases he
  obtain ⟨hborn, hnone⟩ := h.fetching hi hphase
  set o := s.stack.setOrder cfg task.key write task.fence task.captured born with hset
  have ho : (s.stack.store.enlist s.stack.clock o).orders s.stack.clock = some o := by
    simp [Store.enlist]
  have hold : ∀ {t : ℕ} {o' : Order K V}, t ≠ s.stack.clock →
      (s.stack.store.enlist s.stack.clock o).orders t = some o' →
        s.stack.store.orders t = some o' := by
    intro t o' ht ho'
    simpa [Store.enlist, ht] using ho'
  refine ⟨born, (h.fetchedAt_observe hs).mpr (.inl hborn), ?_, ?_, ?_⟩
  · exact ⟨o, ho, hsame.fence.symm, hsame.captured.symm⟩
  · intro t o' p ho' hp hb
    by_cases ht : t = s.stack.clock
    · exact ht.ge
    · exact absurd (.put (Nat.lt_succ_self t).ne (hold ht ho') hp rfl hb) (hnone (t + 1) p.key)
  · rw [hsame.key]
    have hlayers : ∀ l < cfg.layers, l ∈ (List.range cfg.layers).filter fun l =>
        !cfg.writeBehind l := by
      intro l hl
      simpa [hthrough] using hl
    refine ⟨⟨o, _, ho, ⟨rfl, rfl, ?_, ?_, by simp [Strand.plan]⟩, ?_, ?_⟩, ?_, ?_⟩
    · intro l hl
      exact ⟨buildLayerSetEntry task.key write born s.stack.store.now l,
        List.mem_map.mpr ⟨l, hlayers l hl, rfl⟩, rfl⟩
    · intro l hl
      exact List.mem_filter.mpr ⟨hlayers l hl, by simp [h.intact.working]⟩
    · intro l _
      trivial
    · rintro (hp | ⟨todo, hp⟩) <;> cases hp
    · intro _ l _ cell hcell hb
      exact absurd (.cell hcell hb) (hnone 0 task.key)
    · rintro t ht ⟨o', st, active, todo, p, ho', hst, hwriting, hp, hb⟩
      have ho₀ := hold ht ho'
      obtain ⟨hput, -⟩ := (hwf.strand t o' ho₀ st hst).todo_put active todo hwriting p hp
      exact absurd (.put (Nat.lt_succ_self t).ne ho₀ ⟨st, hst, hput⟩ rfl hb) (hnone (t + 1) p.key)

/-- A value that was not stored everywhere when its entry was released does not commit later. -/
theorem Inv.not_committed (h : s.Inv cfg) {c : Store K V}
    (hstep : s.stack.store.Step False s.stack.clock c) {x : EntryTimeout}
    (hx : s.timedOut i = some x) (hstored : x.stored = false) (hw : s.storedAs i = some w) :
    ¬ c.Committed w := by
  have hwf := h.intact.sound.wf
  obtain ⟨task, r, hi, hr, htarget, hcaptured, hbefore⟩ := h.timedOut i x hx
  obtain ⟨task', born, hi', hst⟩ := h.stored i w hw
  obtain rfl := Option.some.inj (hi.symm.trans hi')
  intro hcommitted
  rcases hst.answers.committed_of_step hwf hstep hcommitted with hc | ⟨o', ho', hcurrent⟩
  · exact (hbefore w hw).2 hstored hc
  · obtain ⟨o, ho, -, hcap⟩ := hst.order
    obtain rfl := Option.some.inj (ho.symm.trans ho')
    obtain ⟨o', st, ho', hsole, -⟩ := hst.answers.order
    obtain rfl := Option.some.inj (ho.symm.trans ho')
    have hout := (hwf.knows w o ho task.key (by simp [hsole.keys])).outdated_of_lt hr
      (by simp [htarget, Target.Covers]) (hcap ▸ hcaptured)
    simp [hout] at hcurrent

theorem Inv.timedOut_act [DecidableEq T] (h : s.Inv cfg) (hok : s.stack.Healthy a)
    {stack : Stack K V T} (hs : s.stack.act cfg a = some stack) {x : EntryTimeout}
    (hx : s.timedOut i = some x) : ∃ task r, stack.tasks i = some task ∧
      stack.store.removals x.step = some r ∧ r.target = .keys [task.key] ∧
        task.captured < x.step ∧ ∀ w, (s.observe a).storedAs i = some w →
          w < x.step ∧ (x.stored = false → ¬ stack.store.Committed w) := by
  have hwf := h.intact.sound.wf
  have hstep := h.intact.store_act hok hs
  obtain ⟨task, r, hi, hr, htarget, hcaptured, hbefore⟩ := h.timedOut i x hx
  obtain ⟨task', hi', hsame⟩ :=
    (Stack.tasksGo_act hok hs).same_of (h.linked.task_lt i task hi) hi
  obtain ⟨todo, hr', -⟩ := hstep.removal hwf hr
  refine ⟨task', _, hi', hr', by rw [hsame.key]; exact htarget, hsame.captured ▸ hcaptured, ?_⟩
  intro w hw
  rcases (h.storedAs_observe hs).mp hw with hw | ⟨-, task₀, write, tags, -, hi₀, hcurrent⟩
  · exact ⟨(hbefore w hw).1, fun hfalse => h.not_committed hstep hx hfalse hw⟩
  · -- a fence from before the timeout is outdated
    obtain rfl := Option.some.inj (hi.symm.trans hi₀)
    have hout := (h.intact.sound.knows _ _ _ (.task hi)).outdated_of_lt hr
      (by simp [htarget, Target.Covers]) hcaptured
    simp [hout] at hcurrent

theorem Inv.isStored_of_committed (h : s.Inv cfg) (hw : s.storedAs i = some w)
    (hc : s.stack.store.Committed w) : s.isStored cfg i = true := by
  obtain ⟨task, born, -, hst⟩ := h.stored i w hw
  obtain ⟨o, st, ho, hsole, htracked, -⟩ := hst.answers.order
  obtain ⟨o', ho', hcommitted⟩ := hc
  obtain rfl := Option.some.inj (ho.symm.trans ho')
  have hphase := hsole.committed_iff.mp hcommitted
  have hreached : ∀ l < cfg.layers, l ∈ s.reached w := by
    intro l hl
    have ht := htracked l hl
    rw [hphase] at ht
    exact ht
  simpa [isStored, hw] using hreached

theorem Inv.step_stack [DecidableEq T] (h : s.Inv cfg) (hthrough : ∀ l, cfg.writeBehind l = false)
    (hok : s.KeepsRetracted (.stack a)) {stack : Stack K V T}
    (hs : s.stack.act cfg a = some stack) :
    Inv cfg { s.observe a with stack := { stack with clock := s.stack.clock + 1 } } := by
  have hfetches := hok.fetches a rfl
  have hstep : s.stack.step cfg a = some { stack with clock := s.stack.clock + 1 } := by
    simp [Stack.step, hs]
  have htasks := Stack.tasksGo_act hfetches.healthy hs
  have hsame : ∀ {i task}, s.stack.tasks i = some task →
      ∃ task', stack.tasks i = some task' ∧ task.Same task' := fun {i task} hi =>
    htasks.same_of (h.linked.task_lt i task hi) hi
  constructor
  · exact h.intact.step hfetches.healthy hstep
  · exact h.linked.step hfetches.healthy hstep
  · intro i task hi
    exact h.recorded_act hfetches.healthy hs hi
  · intro i born hborn
    rcases (h.fetchedAt_observe hs).mp hborn with hborn | ⟨rfl, rfl⟩
    · obtain ⟨hlt, task, hi⟩ := h.fetched i born hborn
      obtain ⟨task', hi', -⟩ := hsame hi
      exact ⟨hlt.trans (Nat.lt_succ_self _), task', hi'⟩
    · obtain ⟨task, missed, hi, -⟩ := Stack.fetch_spec hs
      obtain ⟨task', hi', -⟩ := hsame hi
      exact ⟨Nat.lt_succ_self _, task', hi'⟩
  · intro i j born hi hj
    rcases (h.fetchedAt_observe hs).mp hi with hi | ⟨ha, rfl⟩
    · rcases (h.fetchedAt_observe hs).mp hj with hj | ⟨-, rfl⟩
      · exact h.unique i j born hi hj
      · exact absurd (h.fetched i _ hi).1 (lt_irrefl _)
    · rcases (h.fetchedAt_observe hs).mp hj with hj | ⟨ha', -⟩
      · exact absurd (h.fetched j _ hj).1 (lt_irrefl _)
      · cases ha.symm.trans ha'
        rfl
  · intro w k born hb
    exact (h.lt_of_bears hfetches hs hb.of_clock).trans (Nat.lt_succ_self _)
  · intro i task born hi hborn u k hb
    exact h.traced_act hfetches hs hi hborn hb.of_clock
  · intro i w hw
    rcases (h.storedAs_observe hs).mp hw with hw | ⟨rfl, task, write, tags, rfl, hi, hcurrent⟩
    · obtain ⟨task, born, hi, hst⟩ := h.stored i w hw
      obtain ⟨task', hi', hsame'⟩ := hsame hi
      have hst' := h.stores_act hok hs hi hw hst hsame'
      exact ⟨task', born, hi', hst'.fetched, hst'.order, hst'.first, hst'.answers⟩
    · obtain ⟨task', hi', hsame'⟩ := hsame hi
      obtain ⟨born, hst⟩ := h.stores_fetched hthrough hs hi hcurrent hsame'
      exact ⟨task', born, hi', hst.fetched, hst.order, hst.first, hst.answers⟩
  · intro i x hx
    rw [show ({ s.observe a with stack := { stack with clock := s.stack.clock + 1 } } :
      TimeoutStack K V T).timedOut = s.timedOut from observe_timedOut] at hx
    exact h.timedOut_act hfetches.healthy hs hx

theorem step_spec [DecidableEq T] {a : TimeoutAction K V T} (hs : s.step cfg a = some s') :
    (∃ a' stack, a = .stack a' ∧ s.stack.act cfg a' = some stack ∧
      s' = { s.observe a' with stack := { stack with clock := s.stack.clock + 1 } }) ∨
    ∃ g stack, a = .timeout g ∧ s.stack.timeout cfg g = some stack ∧ s' = { s with
      stack := { stack with clock := s.stack.clock + 1 }
      timedOut :=
        match s.stack.releases g with
        | some i => Function.update s.timedOut i (some ⟨s.stack.clock, s.isStored cfg i⟩)
        | none => s.timedOut } := by
  cases a with
  | stack a =>
    obtain ⟨stack, hstack, rfl⟩ := Option.map_eq_some_iff.mp hs
    obtain ⟨stack, hact, rfl⟩ := Stack.step_spec hstack
    exact .inl ⟨a, stack, rfl, hact, rfl⟩
  | timeout g =>
    obtain ⟨stack, hstack, rfl⟩ := Option.map_eq_some_iff.mp hs
    exact .inr ⟨g, stack, rfl, hstack, rfl⟩

/-- The entry that a timer releases is behind a new fence, and so are those released before. -/
theorem Inv.timedOut_timeout (h : s.Inv cfg) {g : ℕ} {stack : Stack K V T}
    (hs : s.stack.timeout cfg g = some stack) {x : EntryTimeout}
    (hx : (match s.stack.releases g with
      | some i => Function.update s.timedOut i (some ⟨s.stack.clock, s.isStored cfg i⟩)
      | none => s.timedOut) i = some x) : ∃ task r, stack.tasks i = some task ∧
      stack.store.removals x.step = some r ∧ r.target = .keys [task.key] ∧
        task.captured < x.step ∧ ∀ w, s.storedAs i = some w →
          w < x.step ∧ (x.stored = false → ¬ stack.store.Committed w) := by
  have hstep := Stack.step_timeout hs
  obtain ⟨hnew, rfl⟩ | hold : (s.stack.releases g = some i ∧
      x = ⟨s.stack.clock, s.isStored cfg i⟩) ∨ s.timedOut i = some x := by
    cases hreleases : s.stack.releases g with
    | none =>
      rw [hreleases] at hx
      exact .inr hx
    | some j =>
      rw [hreleases] at hx
      rcases update_eq_some hx with ⟨rfl, rfl⟩ | ⟨-, hx⟩
      · exact .inl ⟨rfl, rfl⟩
      · exact .inr hx
  · obtain ⟨get, j, fallback, task, phase, store, inFlight, refreshes, -, -, hj, -, -,
      ⟨hreleases, rfl⟩ | ⟨hreleases, -⟩, rfl⟩ := Stack.timeout_spec hs
    · obtain rfl := Option.some.inj (hnew.symm.trans hreleases)
      refine ⟨_, _, Function.update_self .., Function.update_self .., rfl,
        h.intact.sound.lt task.key task.fence task.captured (.task hj), fun w hw => ?_⟩
      obtain ⟨task', born, -, hst⟩ := h.stored i w hw
      refine ⟨hst.lt_clock h, fun hfalse hc => ?_⟩
      have hc' : s.stack.store.Committed w := hc
      simp [h.isStored_of_committed hw hc'] at hfalse
    · simp [hnew] at hreleases
  · obtain ⟨task, r, hi, hr, htarget, hcaptured, hbefore⟩ := h.timedOut i x hold
    obtain ⟨task', hi', hsame⟩ := Stack.timeout_kept hs hi
    obtain ⟨todo, hr', -⟩ := hstep.removal h.intact.sound.wf hr
    refine ⟨task', _, hi', hr', by rw [hsame.key]; exact htarget, hsame.captured ▸ hcaptured, ?_⟩
    exact fun w hw => ⟨(hbefore w hw).1, fun hfalse => h.not_committed hstep hold hfalse hw⟩

theorem Inv.step_timeout (h : s.Inv cfg) {g : ℕ} {stack : Stack K V T}
    (hs : s.stack.timeout cfg g = some stack) :
    Inv cfg { s with
      stack := { stack with clock := s.stack.clock + 1 }
      timedOut :=
        match s.stack.releases g with
        | some i => Function.update s.timedOut i (some ⟨s.stack.clock, s.isStored cfg i⟩)
        | none => s.timedOut } := by
  have hwf := h.intact.sound.wf
  have hstep := Stack.step_timeout hs
  constructor
  · exact h.intact.timeout hs
  · exact h.linked.timeout hs
  · intro i task hi
    obtain ⟨task₀, hi₀, -, hphase⟩ := Stack.timeout_back hs hi
    rw [hphase]
    exact h.recorded i task₀ hi₀
  · intro i born hborn
    obtain ⟨hlt, task, hi⟩ := h.fetched i born hborn
    obtain ⟨task', hi', -⟩ := Stack.timeout_kept hs hi
    exact ⟨hlt.trans (Nat.lt_succ_self _), task', hi'⟩
  · exact h.unique
  · intro w k born hb
    exact (h.copies_lt w k born (hb.of_clock.of_timeout hs)).trans (Nat.lt_succ_self _)
  · intro i task born hi hborn u k hb
    obtain ⟨task₀, hi₀, hsame, -⟩ := Stack.timeout_back hs hi
    obtain ⟨hk, w, hw, hstarted⟩ :=
      h.traced i task₀ born hi₀ hborn u k (hb.of_clock.of_timeout hs)
    exact ⟨hk.trans hsame.key.symm, w, hw, fun hu => hstep.started hwf (hstarted hu)⟩
  · intro i w hw
    obtain ⟨task, born, hi, hst⟩ := h.stored i w hw
    obtain ⟨task', hi', hsame⟩ := Stack.timeout_kept hs hi
    obtain ⟨get, j, fallback, task₀, phase, store, inFlight, refreshes, -, -, hj, -, -, hstore,
      rfl⟩ := Stack.timeout_spec hs
    refine ⟨task', born, hi', hst.fetched, ?_, ?_, ?_⟩
    · rw [hsame.key, hsame.fence, hsame.captured]
      rcases hstore with ⟨-, rfl⟩ | ⟨-, rfl⟩ <;> exact hst.order
    · rcases hstore with ⟨-, rfl⟩ | ⟨-, rfl⟩ <;> exact hst.first
    · rw [hsame.key]
      rcases hstore with ⟨-, rfl⟩ | ⟨-, rfl⟩
      · exact hst.answers.bump hwf (.keys [task₀.key]) []
      · exact hst.answers
  · intro i x hx
    exact h.timedOut_timeout hs hx

theorem Inv.step [DecidableEq T] (h : s.Inv cfg) (hthrough : ∀ l, cfg.writeBehind l = false)
    {a : TimeoutAction K V T} (hok : s.KeepsRetracted a) (hs : s.step cfg a = some s') :
    s'.Inv cfg := by
  rcases step_spec hs with ⟨a', stack, rfl, hact, rfl⟩ | ⟨g, stack, rfl, htimeout, rfl⟩
  · exact h.step_stack hthrough hok hact
  · exact h.step_timeout htimeout

theorem inv_initial (now : Millis) (contents : ℕ → K → Option (Stored V × Option Millis)) :
    (initial now contents : TimeoutStack K V T).Inv cfg where
  intact := Stack.intact_initial now contents
  linked := Stack.linked_initial now contents
  recorded i task hi := by simp [initial, Stack.initial] at hi
  fetched i born hb := by simp [initial] at hb
  unique i j born hi := by simp [initial] at hi
  copies_lt w k born hb := by
    cases hb with
    | cell hcell hb =>
      obtain ⟨x, -, rfl⟩ := Option.map_eq_some_iff.mp hcell
      exact hb ▸ Nat.zero_lt_one
    | found hr => simp [initial, Stack.initial] at hr
    | renewing hg => simp [initial, Stack.initial, Stack.renewal] at hg
    | put ht ho => simp [initial, Stack.initial] at ho
  traced i task born hi := by simp [initial, Stack.initial] at hi
  stored i w hw := by simp [initial] at hw
  timedOut i x hx := by simp [initial] at hx

end TimeoutStack

end LayerCache
