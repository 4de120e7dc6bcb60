import LayerCache.Stack.Links
import LayerCache.Stack.Revival

/-! # Gets after a deletion

A `get` that starts when a deletion is over can still come by a value from before it: it
can join a task of the stampede guard that got hold of the value earlier, it can read an
entry that the deletion has fenced out but whose write has not cleaned up yet, and it can
read one that was brought back. It cannot in any other way.
-/

namespace LayerCache

open Store Transition

variable {K V T : Type} {cfg : Config} {of : ℕ → Prop} {s s' : Stack K V T} {g r i born : ℕ}
  {get : Get K V} {task task' : Task K V} {reader reader' : Reader K V} {k : K}

/-- A `get` that somebody called with a fetcher. -/
def Get.Calls (get : Get K V) : Prop := get.background = false ∧ get.options.hasFetcher = true

instance (get : Get K V) : Decidable get.Calls := by
  unfold Get.Calls
  infer_instance

namespace Stack

/-- The value is from before a deletion of the key that was over before step `g`. -/
def Outdated (of : ℕ → Prop) (s : Stack K V T) (g : ℕ) (k : K) (born : ℕ) : Prop :=
  of born ∧ ∃ d < s.clock, ∃ inv ∈ s.invalidations d, inv.localOnly = false ∧
    inv.target.Covers k ∧ born < d ∧ ∃ p < g, inv.phase = .resolved p

/-- The step from which the value stems that a task has got hold of. -/
def taskBorn (s : Stack K V T) (task : Task K V) : Option ℕ :=
  match task.phase with
  | .rechecking r => (s.readers r).bind fun reader => reader.found.map (·.born)
  | .fetching born => some born
  | .storing _ answer | .resolved (some answer) => answer.born
  | _ => none

/-- The values that a `get` may be going to return. -/
def Offers (s : Stack K V T) (g : ℕ) (get : Get K V) (born : ℕ) : Prop :=
  match get.phase with
  | .reading => ∃ reader ∈ s.readers g, ∃ item ∈ reader.found, item.born = born
  | .sliding answer _ _ _ _ | .done answer => answer.born = some born
  | .entering fallback => ∃ answer ∈ fallback, answer.born = some born
  | .waiting i fallback => (∃ answer ∈ fallback, answer.born = some born) ∨
      ∃ task ∈ s.tasks i, s.taskBorn task = some born
  | .failed => False

/-- The `get` is going to take up what reader `r` finds. -/
def TakesUp (s : Stack K V T) (r g : ℕ) (get : Get K V) : Prop :=
  match get.phase with
  | .reading => g = r
  | .waiting i _ => ∃ task ∈ s.tasks i, task.phase = .rechecking r
  | _ => False

instance [DecidableEq V] (s : Stack K V T) (r g : ℕ) (get : Get K V) :
    Decidable (s.TakesUp r g get) := by
  unfold TakesUp
  generalize get.phase = phase
  induction phase using GetPhase.casesOn <;> infer_instance

instance [DecidableEq K] [DecidablePred of] (s : Stack K V T) (g : ℕ) (k : K) (born : ℕ) :
    Decidable (s.Outdated of g k born) := by
  unfold Outdated
  infer_instance

/-- For a later `get`, a read finds an outdated entry whose write has not settled. -/
def ReadsFencedOut (of : ℕ → Prop) (s : Stack K V T) : Action K V T → Prop
  | .read (.load r) => ∃ reader ∈ s.readers r, ∃ cell ∈ s.store.cells reader.index reader.key,
      (∃ t ∈ cell.writer, s.store.chain.settledAt t = false) ∧
        ∃ g < s.clock, ∃ get ∈ s.gets g, get.Calls ∧ s.TakesUp r g get ∧
          s.Outdated of g get.key cell.item.born
  | _ => False

/-- A `get` joins a task that has an outdated value in hand. -/
def JoinsOutdated (of : ℕ → Prop) (s : Stack K V T) : Action K V T → Prop
  | .get (.enter g) => ∃ get ∈ s.gets g, get.Calls ∧ ∃ i ∈ s.inFlight get.key,
      ∃ task ∈ s.tasks i, ∃ born ∈ s.taskBorn task, s.Outdated of g get.key born
  | _ => False

instance [DecidableEq K] [DecidableEq V] [DecidablePred of] (s : Stack K V T) :
    DecidablePred (s.ReadsFencedOut of) := fun a => by
  induction a using Action.casesOn with
  | read a => induction a using ReadAction.casesOn <;> (unfold ReadsFencedOut; infer_instance)
  | _ => exact isFalse id

instance [DecidableEq K] [DecidablePred of] (s : Stack K V T) :
    DecidablePred (s.JoinsOutdated of) := fun a => by
  induction a using Action.casesOn with
  | get a => induction a using GetAction.casesOn <;> (unfold JoinsOutdated; infer_instance)
  | _ => exact isFalse id

/-- No `get` is going to return an outdated value. -/
def Served (of : ℕ → Prop) (s : Stack K V T) : Prop :=
  ∀ g get born, s.gets g = some get → get.Calls → s.Offers g get born →
    ¬ s.Outdated of g get.key born

theorem Offers.congr (h : s'.Offers g get born) (hr : s'.readers = s.readers)
    (hi : s'.tasks = s.tasks) : s.Offers g get born := by
  unfold Offers taskBorn at *
  rwa [hr, hi] at h

theorem Offers.of_putReader (h : (s.putReader r reader').Offers g get born) :
    s.Offers g get born ∨ (s.TakesUp r g get ∧ ∃ item ∈ reader'.found, item.born = born) := by
  unfold Offers at h
  split at h
  · rename_i hphase
    obtain ⟨reader, hr, item, hitem, hb⟩ := h
    rcases update_eq_some hr with ⟨rfl, rfl⟩ | ⟨-, hr⟩
    · exact .inr ⟨by simp [TakesUp, hphase], item, hitem, hb⟩
    · refine .inl ?_
      simp only [Offers, hphase]
      exact ⟨reader, hr, item, hitem, hb⟩
  · rename_i hphase
    exact .inl (by simpa [Offers, hphase] using h)
  · rename_i hphase
    exact .inl (by simpa [Offers, hphase] using h)
  · rename_i hphase
    exact .inl (by simpa [Offers, hphase] using h)
  · rename_i i fallback hwait
    rcases h with h | ⟨task, hi, hb⟩
    · refine .inl ?_
      simp only [Offers, hwait]
      exact .inl h
    · have hkeep : s.taskBorn task = some born → s.Offers g get born := by
        intro hb
        simp only [Offers, hwait]
        exact .inr ⟨task, hi, hb⟩
      cases hphase : task.phase with
      | rechecking r' =>
        simp only [taskBorn, hphase, Option.bind_eq_some_iff, Option.map_eq_some_iff] at hb
        obtain ⟨reader, hr, item, hitem, hb⟩ := hb
        rcases update_eq_some hr with ⟨rfl, rfl⟩ | ⟨-, hr⟩
        · refine .inr ⟨?_, item, hitem, hb⟩
          simp only [TakesUp, hwait]
          exact ⟨task, hi, hphase⟩
        · refine .inl (hkeep ?_)
          simp only [taskBorn, hphase, hr, Option.bind_some, Option.map_eq_some_iff]
          exact ⟨item, hitem, hb⟩
      | idle => simp [taskBorn, hphase] at hb
      | fetching | storing => exact .inl (hkeep (by simpa [taskBorn, hphase] using hb))
      | resolved result =>
        cases result with
        | none => simp [taskBorn, hphase] at hb
        | some answer => exact .inl (hkeep (by simpa [taskBorn, hphase] using hb))
  · exact h.elim

theorem Offers.of_found (ht : s.TakesUp r g get) (hr : s.readers r = some reader) {item : Item V}
    (hitem : item ∈ reader.found) : s.Offers g get item.born := by
  unfold TakesUp at ht
  split at ht
  · rename_i hphase
    subst ht
    simp only [Offers, hphase]
    exact ⟨reader, hr, item, hitem, rfl⟩
  · rename_i i fallback hwait
    obtain ⟨task, hi, hphase⟩ := ht
    have hf : reader.found = some item := hitem
    simp only [Offers, hwait]
    exact .inr ⟨task, hi, by simp [taskBorn, hphase, hr, hf]⟩
  · exact ht.elim

theorem Offers.of_putTask (h : (s.putTask i task').Offers g get born) :
    s.Offers g get born ∨
      (∃ fallback, get.phase = .waiting i fallback) ∧ s.taskBorn task' = some born := by
  cases hphase : get.phase with
  | waiting j fallback =>
    simp only [Offers, hphase] at h ⊢
    rcases h with h | ⟨task, hi, hb⟩
    · exact .inl (.inl h)
    · rcases update_eq_some hi with ⟨rfl, rfl⟩ | ⟨-, hi⟩
      · exact .inr ⟨⟨fallback, rfl⟩, hb⟩
      · exact .inl (.inr ⟨task, hi, hb⟩)
  | reading | sliding | entering | done =>
    simp only [Offers, hphase] at h ⊢
    exact .inl h
  | failed => simp [Offers, hphase] at h

/-- Where a value comes from that a `get` may return after a step. -/
inductive Offered (s : Stack K V T) (a : Action K V T) (g : ℕ) (get : Get K V) (born : ℕ) : Prop
  | kept (get₀ : Get K V) (hg : s.gets g = some get₀) (hkey : get₀.key = get.key)
      (hcalls : get.Calls → get₀.Calls) (h : s.Offers g get₀ born)
  | fetched (hg : s.gets g = some get) (h : born = s.clock)
  | loaded (r : ℕ) (ha : a = .read (.load r)) (hg : s.gets g = some get) {reader : Reader K V}
      (hr : s.readers r = some reader) (ht : s.TakesUp r g get) (item : Item V)
      (hitem : s.store.visible reader.index reader.key = some item) (hb : item.born = born)
  | joined (ha : a = .get (.enter g)) (get₀ : Get K V) (hg : s.gets g = some get₀)
      (hkey : get₀.key = get.key) (hcalls : get.Calls → get₀.Calls) {i : ℕ} {task : Task K V}
      (hin : s.inFlight get₀.key = some i) (hi : s.tasks i = some task)
      (hb : s.taskBorn task = some born)

variable {a : Action K V T}

theorem Offered.same (hg : s.gets g = some get) (h : s.Offers g get born) :
    s.Offered a g get born :=
  .kept get hg rfl id h

theorem Offered.of_putTask (hg : s.gets g = some get) (hi : s.tasks i = some task)
    (hborn : ∀ b, s.taskBorn task' = some b → s.taskBorn task = some b ∨ b = s.clock)
    (h : (s.putTask i task').Offers g get born) : s.Offered a g get born := by
  rcases h.of_putTask with h | ⟨⟨fallback, hphase⟩, hb⟩
  · exact .same hg h
  · rcases hborn born hb with hb | hb
    · refine .same hg ?_
      simp only [Offers, hphase]
      exact .inr ⟨task, hi, hb⟩
    · exact .fetched hg hb

theorem Offered.of_update {get₀ get₁ : Get K V} {g₀ : ℕ} (hg₀ : s.gets g₀ = some get₀)
    (hg : Function.update s.gets g₀ (some get₁) g = some get) (hkey : get₁.key = get₀.key)
    (hcalls : get₁.Calls → get₀.Calls)
    (hself : g = g₀ → get = get₁ → s.Offers g₀ get₀ born)
    (hother : s.gets g = some get → s.Offered a g get born) : s.Offered a g get born := by
  rcases update_eq_some hg with ⟨rfl, rfl⟩ | ⟨-, hg⟩
  · exact .kept get₀ hg₀ hkey.symm hcalls (hself rfl rfl)
  · exact hother hg

variable [DecidableEq K]

theorem Offered.of_openReader {key : K} {mode : ReadMode} (hg : s.gets g = some get)
    (h : (s.openReader key mode).Offers g get born) : s.Offered a g get born := by
  rcases h.of_putReader with h | ⟨-, item, hitem, -⟩
  · exact .same hg h
  · simp [Reader.found] at hitem

theorem Offered.of_schedule {s₁ : Stack K V T} {key : K} {options : GetOptions}
    (hg : (s₁.scheduleBackgroundRefresh key options).gets g = some get)
    (ho : (s₁.scheduleBackgroundRefresh key options).Offers g get born)
    (hother : s₁.gets g = some get → s₁.Offers g get born → s.Offered a g get born) :
    s.Offered a g get born := by
  rcases scheduleBackgroundRefresh_cases s₁ key options with he | ⟨-, he⟩ <;> rw [he] at hg ho
  · exact hother hg ho
  · rcases update_eq_some hg with ⟨-, rfl⟩ | ⟨-, hg⟩
    · obtain ⟨answer, ha, -⟩ := ho
      cases ha
    · exact hother hg (ho.congr rfl rfl)

theorem offered_conclude {g₀ : ℕ} (hs : s.conclude g₀ = some s') (hg : s'.gets g = some get)
    (ho : s'.Offers g get born) : s.Offered a g get born := by
  obtain ⟨get₀, reader, hg₀, hr, hphase, hconcl⟩ := conclude_spec hs
  have hhit : ∀ hit, reader.phase = .done (some hit) → hit.answer.born = some born →
      s.Offers g₀ get₀ born := by
    intro hit hdone hb
    simp only [Hit.answer, Option.some.injEq] at hb
    subst hb
    exact .of_found (r := g₀) (by simp [TakesUp, hphase]) hr (by simp [Reader.found, hdone])
  have hother : ∀ {s' : Stack K V T}, s'.readers = s.readers → s'.tasks = s.tasks →
      s'.Offers g get born → s.gets g = some get → s.Offered a g get born :=
    fun hr ht ho hg => .same hg (ho.congr hr ht)
  cases hconcl with
  | failed hd =>
    refine .of_update hg₀ hg rfl id ?_ (hother rfl rfl ho)
    rintro rfl rfl
    exact ho.elim
  | miss hd hf =>
    refine .of_update hg₀ hg rfl id ?_ (hother rfl rfl ho)
    rintro rfl rfl
    obtain ⟨answer, ha, -⟩ := ho
    cases ha
  | absent hd hf =>
    refine .of_update hg₀ hg rfl id ?_ (hother rfl rfl ho)
    rintro rfl rfl
    cases ho
  | fresh hit hd hstate todo stored ttl ahead =>
    refine .of_update hg₀ hg rfl id ?_ (hother rfl rfl ho)
    rintro rfl rfl
    exact hhit hit hd ho
  | stale hit hd hstate hf =>
    refine .of_update hg₀ hg rfl id ?_ (hother rfl rfl ho)
    rintro rfl rfl
    exact hhit hit hd ho
  | refresh hit hd hstate hf =>
    refine .of_schedule hg ho fun hg ho => ?_
    refine .of_update hg₀ hg rfl id ?_ (hother rfl rfl ho)
    rintro rfl rfl
    exact hhit hit hd ho
  | staleIfError hit hd hstate hf =>
    refine .of_update hg₀ hg rfl id ?_ (hother rfl rfl ho)
    rintro rfl rfl
    obtain ⟨answer, ha, hb⟩ := ho
    cases ha
    exact hhit hit hd hb
  | fallback hit hd hstate hf =>
    refine .of_update hg₀ hg rfl id ?_ (hother rfl rfl ho)
    rintro rfl rfl
    exact hhit hit hd ho

theorem offered_slide {g₀ : ℕ} (hs : s.slide g₀ = some s') (hg : s'.gets g = some get)
    (ho : s'.Offers g get born) : s.Offered a g get born := by
  obtain ⟨get₀, answer, todo, stored, ttl, ahead, hg₀, hphase, hcases⟩ := slide_spec hs
  have hself : answer.born = some born → s.Offers g₀ get₀ born := by
    intro hb
    simpa [Offers, hphase] using hb
  rcases hcases with ⟨-, rfl | ⟨-, rfl⟩⟩ | ⟨l, rest, -, rfl | rfl⟩
  · refine .of_update hg₀ hg rfl id ?_ fun hg => .same hg (ho.congr rfl rfl)
    rintro rfl rfl
    exact hself ho
  · refine .of_schedule hg ho fun hg ho => ?_
    refine .of_update hg₀ hg rfl id ?_ fun hg => .same hg (ho.congr rfl rfl)
    rintro rfl rfl
    exact hself ho
  · refine .of_update hg₀ hg rfl id ?_ fun hg => .same hg (ho.congr rfl rfl)
    rintro rfl rfl
    exact hself ho
  · refine .of_update hg₀ hg rfl id ?_ fun hg => .same hg (ho.congr rfl rfl)
    rintro rfl rfl
    exact hself ho

theorem offered_enter {g₀ : ℕ} (hs : s.enter cfg g₀ = some s') (hg : s'.gets g = some get)
    (ho : s'.Offers g get born) : s.Offered (.get (.enter g₀)) g get born := by
  obtain ⟨get₀, fallback, hg₀, hphase, ⟨i, joined, -, hin, hi, rfl⟩ | ⟨inFlight, -, rfl⟩⟩ :=
    enter_spec hs
  · have hsame : ∀ b, s.taskBorn { joined with references := joined.references + 1 } = some b →
        s.taskBorn joined = some b ∨ b = s.clock := fun b hb => .inl hb
    rcases update_eq_some hg with ⟨rfl, rfl⟩ | ⟨-, hg⟩
    · rcases ho with ⟨answer, ha, hb⟩ | ⟨task, htask, hb⟩
      · refine .kept get₀ hg₀ rfl id ?_
        simp only [Offers, hphase]
        exact ⟨answer, ha, hb⟩
      · rcases update_eq_some htask with ⟨-, rfl⟩ | ⟨hne, -⟩
        · exact .joined rfl get₀ hg₀ rfl id hin hi hb
        · exact absurd rfl hne
    · exact .of_putTask hg hi hsame (ho.congr rfl rfl)
  · rcases update_eq_some hg with ⟨rfl, rfl⟩ | ⟨-, hg⟩
    · rcases ho with ⟨answer, ha, hb⟩ | ⟨task, htask, hb⟩
      · refine .kept get₀ hg₀ rfl id ?_
        simp only [Offers, hphase]
        exact ⟨answer, ha, hb⟩
      · rcases update_eq_some htask with ⟨-, rfl⟩ | ⟨hne, -⟩
        · cases hb
        · exact absurd rfl hne
    · have ho' : (s.putTask s.clock (newTask get₀ g₀)).Offers g get born := ho.congr rfl rfl
      rcases ho'.of_putTask with h | ⟨-, hb⟩
      · exact .same hg h
      · cases hb

theorem offered_leave {g₀ : ℕ} (hs : s.leave g₀ = some s') (hg : s'.gets g = some get)
    (ho : s'.Offers g get born) : s.Offered a g get born := by
  obtain ⟨get₀, i, fallback, task, result, phase, inFlight, refreshes, hg₀, hphase, hi, hres,
    hnext, -, rfl⟩ := leave_spec hs
  refine .of_update hg₀ hg rfl id ?_ fun hg => ?_
  · rintro rfl rfl
    rcases hnext with ⟨answer, hor, rfl⟩ | ⟨-, rfl⟩
    · have hb : answer.born = some born := ho
      simp only [Offers, hphase]
      cases hresult : result with
      | none =>
        subst hresult
        exact .inl ⟨answer, by simpa using hor, hb⟩
      | some answer' =>
        subst hresult
        obtain rfl : answer' = answer := by simpa using hor
        exact .inr ⟨task, hi, by simpa [taskBorn, hres] using hb⟩
    · exact ho.elim
  · have ho' : (s.putTask i { task with references := task.references - 1 }).Offers g get born :=
      ho.congr rfl rfl
    refine .of_putTask hg hi (fun b hb => .inl ?_) ho'
    exact hb

theorem offered_getStep {a : GetAction K V T} (hs : s.getStep cfg a = some s')
    (hg : s'.gets g = some get) (ho : s'.Offers g get born) : s.Offered (.get a) g get born := by
  cases a with
  | get key options =>
    cases hs
    rcases update_eq_some hg with ⟨rfl, rfl⟩ | ⟨-, hg⟩
    · obtain ⟨reader, hr, item, hitem, -⟩ := ho
      rcases update_eq_some hr with ⟨-, rfl⟩ | ⟨hne, -⟩
      · cases hitem
      · exact absurd rfl hne
    · exact .of_openReader hg (ho.congr rfl rfl)
  | conclude g₀ => exact offered_conclude hs hg ho
  | slide g₀ => exact offered_slide hs hg ho
  | enter g₀ => exact offered_enter hs hg ho
  | leave g₀ => exact offered_leave hs hg ho
  | recheck i =>
    obtain ⟨task, missed, hi, hphase, -, rfl⟩ := recheck_spec hs
    rcases ho.of_putTask with ho | ⟨-, hb⟩
    · exact .of_openReader hg ho
    · simp [taskBorn, openReader, putReader, Reader.found] at hb
  | rechecked i =>
    obtain ⟨task, r, reader, phase, hi, hphase, hr, hnext, rfl⟩ := rechecked_spec hs
    refine .of_putTask hg hi (fun b hb => .inl ?_) ho
    rcases hnext with ⟨hit, hd, rfl⟩ | ⟨-, rfl⟩ | ⟨-, rfl⟩
    · simp only [taskBorn, Hit.answer, Option.some.injEq] at hb
      simp [taskBorn, hphase, hr, Reader.found, hd, hb]
    · cases hb
    · cases hb
  | fetch i =>
    obtain ⟨task, missed, hi, -, -, rfl⟩ := fetch_spec hs
    refine .of_putTask hg hi (fun b hb => .inr ?_) ho
    exact (Option.some.inj hb).symm
  | fetched i outcome =>
    obtain ⟨task, b₀, hi, hphase, ⟨result, hresult, -, rfl⟩ | ⟨write, tags, -, -, rfl⟩⟩ :=
      fetched_spec hs
    · refine .of_putTask hg hi (fun b hb => .inl ?_) ho
      cases hresult' : result with
      | none =>
        subst hresult'
        cases hb
      | some answer =>
        subst hresult'
        have hb' : answer.born = some b := hb
        rw [hresult answer rfl] at hb'
        simpa [taskBorn, hphase] using hb'
    · have ho' : (s.putTask i
          { task with phase := .storing s.clock ⟨write.answer, some b₀⟩ }).Offers g get born :=
        ho.congr rfl rfl
      refine .of_putTask hg hi (fun b hb => .inl ?_) ho'
      simpa [taskBorn, hphase] using hb
  | stored i =>
    obtain ⟨task, w, answer, writer, hi, hphase, -, -, rfl⟩ := stored_spec hs
    refine .of_putTask hg hi (fun b hb => .inl ?_) ho
    simpa [taskBorn, hphase] using hb
  | giveUp i =>
    obtain ⟨task, missed, hi, -, rfl⟩ := giveUp_spec hs
    exact .of_putTask hg hi (fun b hb => by cases hb) ho
  | settle i =>
    obtain ⟨task, result, inFlight, hi, -, -, -, rfl⟩ := settleTask_spec hs
    have ho' : (s.putTask i { task with settled := true }).Offers g get born := ho.congr rfl rfl
    refine .of_putTask hg hi (fun b hb => .inl ?_) ho'
    exact hb

variable [DecidableEq T]

theorem offered_act (hok : s.Healthy a) (hs : s.act cfg a = some s') (hg : s'.gets g = some get)
    (ho : s'.Offers g get born) : s.Offered a g get born := by
  cases a with
  | fault a => cases hok
  | store a =>
    obtain ⟨store, -, rfl⟩ := storeStep_spec hs
    exact .same hg (ho.congr rfl rfl)
  | write a =>
    obtain ⟨writers, index, store, queue, flushing, outbox, rfl⟩ := writeStep_frame hs
    exact .same hg (ho.congr rfl rfl)
  | invalidate a =>
    obtain ⟨invs, index, store, queue, outbox, rfl⟩ := invalidateStep_frame hs
    exact .same hg (ho.congr rfl rfl)
  | read a =>
    rcases readers_readStep hs with ⟨key, -, rfl⟩ |
      ⟨r, reader, reader', index, store, hr, -, hfound, rfl⟩
    · exact .of_openReader hg ho
    · have ho' : (s.putReader r reader').Offers g get born := ho.congr rfl rfl
      rcases ho'.of_putReader with ho | ⟨ht, item, hitem, hb⟩
      · exact .same hg ho
      · rcases hfound item hitem with hitem | ⟨ha, hitem⟩
        · exact .same hg (hb ▸ .of_found ht hr hitem)
        · exact .loaded r (by rw [ha]) hg hr ht item hitem hb
  | get a => exact offered_getStep hs hg ho

omit [DecidableEq T] in
theorem Proceeds.resolved_cases (h : s.Proceeds cfg s') {d p : ℕ} {inv : Invalidation K}
    (hd : s'.invalidations d = some inv) (hp : inv.phase = .resolved p) : p = s.clock ∨
      s.invalidations d = some inv := by
  cases h with
  | same he => exact .inr (he ▸ hd)
  | call inv' hphase hbumped he =>
    rcases update_eq_some (he ▸ hd) with ⟨rfl, rfl⟩ | ⟨-, hd⟩
    · simp [hphase] at hp
    · exact .inr hd
  | bump d' inv' hd' hphase hstore he =>
    rcases update_eq_some (he ▸ hd) with ⟨rfl, rfl⟩ | ⟨-, hd⟩
    · cases hp
    · exact .inr hd
  | go d' inv' phase hd' hcalled hthrough hremoving hresolved hstore he =>
    rcases update_eq_some (he ▸ hd) with ⟨rfl, rfl⟩ | ⟨-, hd⟩
    · exact .inl (hresolved p hp)
    · exact .inr hd

/-- A step does not make a value outdated for a `get` that is there already. -/
theorem Outdated.of_step (h : s'.Outdated of g k born) (hs : s.step cfg a = some s')
    (hintact : s.Intact cfg) (hg : g < s.clock) : s.Outdated of g k born := by
  obtain ⟨hof, d, -, inv, hd, hlocal, hk, hlt, p, hp, hphase⟩ := h
  obtain ⟨s₁, hact, rfl⟩ := step_spec hs
  rcases (proceeds_act hact).resolved_cases hd hphase with rfl | hd
  · omega
  · exact ⟨hof, d, (hintact.invalidated d inv hd).1, inv, hd, hlocal, hk, hlt, p, hp, hphase⟩

omit [DecidableEq T] in
/-- An outdated entry that a read finds is one whose write has not settled. -/
theorem Emptied.outdated_unsettled (h : s.Emptied of) (hintact : s.Intact cfg) {l : ℕ}
    {cell : Cell V} (hl : l < cfg.layers) (hcell : s.store.cells l k = some cell)
    (hout : s.Outdated of g k cell.item.born) :
    ∃ t ∈ cell.writer, s.store.chain.settledAt t = false := by
  obtain ⟨hof, d, -, inv, hd, hlocal, hk, hlt, p, -, hphase⟩ := hout
  obtain ⟨t, o, b, ht, -, -, -, hopen⟩ :=
    h.unsettled hintact hd hlocal hphase hk hl hcell hof hlt
  exact ⟨t, ht, hopen⟩

/-- Runs of working layers in which no outdated value gets through. -/
structure KeepsFresh (of : ℕ → Prop) (s : Stack K V T) (a : Action K V T) : Prop where
  healthy : s.Healthy a
  land : ¬ s.LandRevives of a
  slide : ¬ s.SlideRevives of a
  load : ¬ s.ReadsFencedOut of a
  join : ¬ s.JoinsOutdated of a

instance [DecidableEq V] [DecidablePred of] (s : Stack K V T) :
    DecidablePred (s.KeepsFresh of) := fun a =>
  decidable_of_iff (s.Healthy a ∧ ¬ s.LandRevives of a ∧ ¬ s.SlideRevives of a ∧
      ¬ s.ReadsFencedOut of a ∧ ¬ s.JoinsOutdated of a)
    ⟨fun ⟨hh, hl, hs, hr, hj⟩ => ⟨hh, hl, hs, hr, hj⟩,
      fun h => ⟨h.healthy, h.land, h.slide, h.load, h.join⟩⟩

omit [DecidableEq K] [DecidableEq T] in
theorem Linked.key_of_takesUp {n : ℕ} (h : s.Linked cfg n) (hg : s.gets g = some get)
    (hr : s.readers r = some reader) (ht : s.TakesUp r g get) : get.key = reader.key := by
  unfold TakesUp at ht
  split at ht
  · rename_i hphase
    obtain ⟨reader', hr', hk⟩ := h.reading g get hg hphase
    rw [ht, hr] at hr'
    cases hr'
    exact hk.symm
  · rename_i i fallback hphase
    obtain ⟨task, hi, hrec⟩ := ht
    obtain ⟨task', hi', hk⟩ := h.waiting g get i fallback hg hphase
    rw [hi] at hi'
    cases hi'
    obtain ⟨reader', hr', hk', -⟩ := h.rechecking i task r hi hrec
    rw [hr] at hr'
    cases hr'
    exact hk.symm.trans hk'.symm
  · exact ht.elim

/-- In runs that keep fresh, what a `get` may return is never outdated. -/
theorem Served.step (h : s.Served of) (hintact : s.Intact cfg) (hlinked : s.Linked cfg s.clock)
    (hemptied : s.Emptied of) (hlayers : 0 < cfg.layers) (hok : s.KeepsFresh of a)
    (hs : s.step cfg a = some s') : s'.Served of := by
  intro g get born hg hcalls ho hout
  have hprev : g < s.clock → s.Outdated of g get.key born := hout.of_step hs hintact
  obtain ⟨s₁, hact, rfl⟩ := step_spec hs
  have hoffered := offered_act hok.healthy hact hg (ho.congr rfl rfl)
  cases hoffered with
  | kept get₀ hg₀ hkey hcalls₀ ho =>
    exact h g get₀ born hg₀ (hcalls₀ hcalls) ho (hkey ▸ hprev (hlinked.get_lt g get₀ hg₀))
  | fetched hg₀ hb =>
    obtain ⟨-, d, hd, inv, -, -, -, hlt, -⟩ := hprev (hlinked.get_lt g get hg₀)
    omega
  | loaded r ha hg₀ hr ht item hitem hb =>
    subst ha hb
    have hprev := hprev (hlinked.get_lt g get hg₀)
    obtain ⟨cell, hcell, rfl⟩ := visible_spec hitem
    have hopen := hemptied.outdated_unsettled hintact (hlinked.index hlayers r _ hr) hcell
      (hlinked.key_of_takesUp hg₀ hr ht ▸ hprev)
    exact hok.load ⟨_, hr, cell, hcell, hopen, g, hlinked.get_lt g get hg₀, get, hg₀, hcalls, ht,
      hprev⟩
  | joined ha get₀ hg₀ hkey hcalls₀ hin hi hb =>
    subst ha
    refine hok.join ⟨get₀, hg₀, hcalls₀ hcalls, _, hin, _, hi, born, hb, ?_⟩
    exact hkey ▸ hprev (hlinked.get_lt g get₀ hg₀)

variable {now : Millis} {contents : ℕ → K → Option (Stored V × Option Millis)}

/-- A `get` that starts when a deletion of its key is over does not return a value from before
the deletion was called. `of` are the steps at which the fetchers in question were started. -/
theorem get_not_stale (hlayers : 0 < cfg.layers)
    (hrun : Reaches (step cfg) (KeepsFresh of) (initial now contents) s) {d p : ℕ}
    {inv : Invalidation K} (hd : s.invalidations d = some inv) (hlocal : inv.localOnly = false)
    (hphase : inv.phase = .resolved p) (hg : s.gets g = some get) (hk : inv.target.Covers get.key)
    (hp : p < g) (hcalls : get.Calls) {answer : Answer V} (hdone : get.phase = .done answer)
    (hb : answer.born = some born) (hof : of born) : d ≤ born := by
  obtain ⟨hintact, -, -, hserved⟩ : s.Intact cfg ∧ s.Linked cfg s.clock ∧ s.Emptied of ∧
      s.Served of := by
    refine Reaches.invariant (P := fun s => s.Intact cfg ∧ s.Linked cfg s.clock ∧ s.Emptied of ∧
      s.Served of) hrun ?_ ⟨intact_initial now contents, linked_initial now contents,
        emptied_initial now contents, by rintro g get born ⟨⟩⟩
    rintro s a s' ⟨hintact, hlinked, hemptied, hserved⟩ hok hs
    exact ⟨hintact.step hok.healthy hs, hlinked.step hok.healthy hs,
      hemptied.step hintact hok.healthy hok.land hok.slide hs,
      hserved.step hintact hlinked hemptied hlayers hok hs⟩
  by_contra hlt
  exact hserved g get born hg hcalls (by simpa [Offers, hdone] using hb) ⟨hof, d,
    (hintact.invalidated d inv hd).1, inv, hd, hlocal, hk, not_le.mp hlt, p, hp, hphase⟩

/-- A `get` with a fetcher and nothing else. -/
def fetching : GetOptions := ⟨true, false, fun _ => 0⟩

/-- A `get` that comes when the key has been deleted, and fetches. -/
def getAfterDelete : List (Action ℕ ℕ ℕ) :=
  [.invalidate (.delete [0] .delete), .invalidate (.bump 1), .store (.erase 2 0),
    .store (.erase 2 0), .invalidate (.removed 1), .invalidate (.forget 1),
    .invalidate (.forget 1), .invalidate (.publish 1), .get (.get 0 fetching), .read (.load 9),
    .read (.resume 9), .read (.load 9), .read (.resume 9), .read (.unindex 9),
    .get (.conclude 9), .get (.enter 9), .get (.recheck 16), .read (.load 17),
    .read (.resume 17), .read (.load 17), .read (.resume 17), .read (.unindex 17),
    .get (.rechecked 16), .get (.fetch 16), .get (.fetched 16 (.store (.forMinute 7) none)),
    .store (.start 25), .store (.land 25 0 0), .store (.land 25 0 0), .store (.check 25 0),
    .store (.settle 25), .write (.enqueue 25), .write (.verify 25), .write (.track 25),
    .write (.track 25), .write (.announce 25), .get (.stored 16), .get (.leave 9)]

theorem get_not_stale_at_getAfterDelete :
    ∃ s ∈ run (step memoryOverRedis) (initial 0 slowEntry) getAfterDelete,
      ∀ get answer born, s.gets 9 = some get → get.phase = .done answer →
        answer.born = some born → 1 ≤ born := by
  obtain ⟨s, hs, hd, hget⟩ : ∃ s ∈ run (step memoryOverRedis) (initial 0 slowEntry)
      getAfterDelete, s.invalidations 1 = some ⟨.keys [0], false, true, some .delete, none,
        some 2, .resolved 8⟩ ∧ ∀ get ∈ s.gets 9, get.key = 0 ∧ get.Calls := by
    decide +kernel
  refine ⟨s, hs, fun get answer born hg hdone hb => ?_⟩
  obtain ⟨hk, hcalls⟩ := hget get hg
  exact get_not_stale (by decide)
    (reaches_of_run (KeepsFresh fun _ => True) hs (by decide +kernel)) hd rfl rfl hg
    (List.mem_singleton.mpr hk) (by decide) hcalls hdone hb trivial

/-- A `get` that comes when the key has been deleted joins the task of an earlier one, whose
fetcher was started before the deletion was called, and returns what that fetched. -/
theorem laterGet_joins_earlierFetch :
    ∃ s : Stack ℕ ℕ ℕ, Reaches (step memoryOverRedis) Healthy (initial 0 fun _ _ => none) s ∧
      s.invalidations 17 = some ⟨.keys [0], false, true, some .delete, none, some 18,
        .resolved 24⟩ ∧
      ∃ get ∈ s.gets 25, get.key = 0 ∧ get.Calls ∧
        get.phase = .done ⟨.value 7, some 16⟩ := by
  obtain ⟨s, hs, h⟩ : ∃ s ∈ run (step memoryOverRedis) (initial 0 fun _ _ => none)
      ([.get (.get 0 fetching), .read (.load 1), .read (.resume 1), .read (.load 1),
        .read (.resume 1), .read (.unindex 1), .get (.conclude 1), .get (.enter 1),
        .get (.recheck 8), .read (.load 9), .read (.resume 9), .read (.load 9),
        .read (.resume 9), .read (.unindex 9), .get (.rechecked 8), .get (.fetch 8),
        .invalidate (.delete [0] .delete), .invalidate (.bump 17), .store (.erase 18 0),
        .store (.erase 18 0), .invalidate (.removed 17), .invalidate (.forget 17),
        .invalidate (.forget 17), .invalidate (.publish 17), .get (.get 0 fetching),
        .read (.load 25), .read (.resume 25), .read (.load 25), .read (.resume 25),
        .read (.unindex 25), .get (.conclude 25), .get (.enter 25),
        .get (.fetched 8 (.store (.forMinute 7) none)), .get (.leave 25)] :
          List (Action ℕ ℕ ℕ)),
      s.invalidations 17 = some ⟨.keys [0], false, true, some .delete, none, some 18,
        .resolved 24⟩ ∧
      ∃ get ∈ s.gets 25, get.key = 0 ∧ get.Calls ∧
        get.phase = .done ⟨.value 7, some 16⟩ := by
    decide +kernel
  exact ⟨s, reaches_of_run _ hs (by decide +kernel), h⟩

end Stack

end LayerCache
