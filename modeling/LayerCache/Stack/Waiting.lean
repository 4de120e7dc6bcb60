import LayerCache.Stack.Calm
import LayerCache.Stack.NoStaleReads
import LayerCache.Stack.Progress

/-! # What a caller waits for

A `get` that is not through waits for a step of its own, of the read or the task that it is going
to take up, of the write of that task, or of an order that one of these is queued behind. While
every layer answers, one such step can always be taken.
-/

namespace LayerCache

open Store

variable {K V T : Type}

def StoreAction.order : StoreAction → Option ℕ
  | .start t | .land t _ _ | .check t _ | .wipe t _ _ | .settle t => some t
  | .tick _ | .erase _ _ => none

def ReadAction.reader : ReadAction K → Option ℕ
  | .load r | .resume r | .purge r | .backfill r _ | .backfilled r | .unindex r => some r
  | .read _ | .refuse _ => none

def WriteAction.writer : WriteAction K V T → Option ℕ
  | .enqueue w | .verify w | .track w | .announce w => some w
  | .set _ _ _ | .mset _ | .flush | .flushNext => none

def GetAction.caller : GetAction K V T → Option ℕ
  | .conclude g | .slide g | .enter g | .leave g => some g
  | _ => none

def GetAction.task : GetAction K V T → Option ℕ
  | .recheck i | .rechecked i | .fetch i | .fetched i _ | .stored i | .settle i => some i
  | _ => none

/-- A negative entry without windows, which no layer ever lets expire. -/
def WriteValue.lasting : WriteValue V := ⟨.empty, none, fun _ => ⟨none, none, none⟩⟩

namespace Stack

/-- The task that the `get` has joined stores its value with writer `w`. -/
def StoresFor (s : Stack K V T) (w : ℕ) (get : Get K V) : Prop :=
  ∃ i fallback task answer, get.phase = .waiting i fallback ∧ s.tasks i = some task ∧
    task.phase = .storing w answer

/-- The `get` waits for order `t`: that of its task, or the backfill of its read. -/
def QueuesFor (s : Stack K V T) (t g : ℕ) (get : Get K V) : Prop :=
  s.StoresFor t get ∨ ∃ r reader hit, s.TakesUp r g get ∧ s.readers r = some reader ∧
    reader.phase = .backfilling hit t

/-- The steps that `get` number `g` waits for. -/
inductive Serves (s : Stack K V T) (g : ℕ) (get : Get K V) : Action K V T → Prop
  | caller {a : GetAction K V T} (ha : a.caller = some g) : Serves s g get (.get a)
  | task {a : GetAction K V T} {i : ℕ} {fallback : Option (Answer V)}
      (hwaiting : get.phase = .waiting i fallback) (ha : a.task = some i) : Serves s g get (.get a)
  | reader {a : ReadAction K} {r : ℕ} (hr : s.TakesUp r g get) (ha : a.reader = some r) :
      Serves s g get (.read a)
  | writer {a : WriteAction K V T} {w : ℕ} (hw : s.StoresFor w get) (ha : a.writer = some w) :
      Serves s g get (.write a)
  | order {a : StoreAction} {t u : ℕ} (ht : s.QueuesFor t g get)
      (hbehind : Relation.ReflTransGen s.store.chain.WaitsFor t u) (ha : a.order = some u) :
      Serves s g get (.store a)

/-- A step that the `get` waits for can be taken. A fetch may end in any way, and so it may yield an
entry that lasts. -/
def Awaits [DecidableEq K] [DecidableEq T] (cfg : Config) (s : Stack K V T) (g : ℕ)
    (get : Get K V) : Prop :=
  ∃ a, s.Serves g get a ∧ (s.act cfg a).isSome = true ∧
    ∀ i outcome, a = .get (.fetched i outcome) → outcome = .store .lasting none

variable {cfg : Config} {s s' : Stack K V T} {n t g r i w : ℕ} {get : Get K V}
  {fallback : Option (Answer V)} {reader : Reader K V} {writer : Writer K V T} {task : Task K V}

/-- The writer of a task that stores is there, and so is the order of a writer. -/
structure Attended (s : Stack K V T) : Prop where
  writer : ∀ i task w answer, s.tasks i = some task → task.phase = .storing w answer →
    ∃ writer, s.writers w = some writer
  order : ∀ w writer, s.writers w = some writer → ∃ o, s.store.orders w = some o

variable [DecidableEq K]

theorem writer_act [DecidableEq T] {a : Action K V T} (hok : s.Healthy a)
    (hs : s.act cfg a = some s') (w : ℕ) :
    (s'.writers w).isSome = (s.writers w).isSome ∨
      (w = s.clock ∧ (s'.writers w).isSome = true ∧ ∃ o, s'.store.orders w = some o) := by
  have hput : ∀ {w₀ : ℕ} {writer₀ writer₁ : Writer K V T}, s.writers w₀ = some writer₀ →
      (Function.update s.writers w₀ (some writer₁) w).isSome = (s.writers w).isSome := by
    intro w₀ writer₀ writer₁ hw₀
    by_cases hw : w = w₀
    · simp [hw, hw₀]
    · simp [hw]
  cases a with
  | fault a => cases hok
  | store a => obtain ⟨store, -, rfl⟩ := storeStep_spec hs; exact .inl rfl
  | read a => obtain ⟨readers, index, store, rfl⟩ := readStep_frame hs; exact .inl rfl
  | invalidate a =>
    obtain ⟨invs, index, store, queue, outbox, rfl⟩ := invalidateStep_frame hs
    exact .inl rfl
  | get a =>
    obtain ⟨readers, writers, gets, tasks, inFlight, refreshes, store, hwriters, rfl⟩ :=
      getStep_frame hs
    rcases hwriters with rfl | ⟨i, outcome, rfl⟩
    · exact .inl rfl
    obtain ⟨task, born, -, -, ⟨result, -, -, he⟩ | ⟨write, tags, -, -, he⟩⟩ := fetched_spec hs
    · rw [he]
      exact .inl rfl
    · rw [he]
      by_cases hw : w = s.clock
      · exact .inr ⟨hw, by simp [hw, storeEntry, putTask, putWriter],
          by simp [hw, storeEntry, putTask, putWriter, Store.enlist]⟩
      · exact .inl (by simp [hw, storeEntry, putTask, putWriter])
  | write a =>
    cases a with
    | set key write tags =>
      cases hs
      by_cases hw : w = s.clock
      · exact .inr ⟨hw, by simp [hw, storeEntry, putWriter],
          by simp [hw, storeEntry, putWriter, Store.enlist]⟩
      · exact .inl (by simp [hw, storeEntry, putWriter])
    | mset entries =>
      cases hs
      by_cases hw : w = s.clock
      · exact .inr ⟨hw, by simp [hw, putWriter], by simp [hw, Store.enlist]⟩
      · exact .inl (by simp [hw, putWriter])
    | enqueue w₀ =>
      obtain ⟨writer₀, hw₀, -, -, rfl⟩ := enqueue_spec hs
      exact .inl (hput hw₀)
    | verify w₀ =>
      obtain ⟨writer₀, order, phase, hw₀, -, -, -, -, rfl⟩ := verify_spec hs
      exact .inl (hput hw₀)
    | track w₀ =>
      obtain ⟨writer₀, hw₀, ⟨-, rfl⟩ | ⟨entry, rest, -, -, rfl⟩ | ⟨entry, rest, -, -, rfl⟩⟩ :=
        track_spec hs <;> exact .inl (hput hw₀)
    | announce w₀ =>
      obtain ⟨writer₀, outbox, hw₀, -, -, rfl⟩ := announce_spec hs
      exact .inl (hput hw₀)
    | flush => obtain ⟨-, rfl⟩ := flush_spec hs; exact .inl rfl
    | flushNext =>
      obtain ⟨batch, running, -, -, ⟨-, rfl⟩ | ⟨d, rest, -, rfl⟩⟩ := flushNext_spec hs <;>
        exact .inl rfl

theorem Attended.act [DecidableEq T] (h : s.Attended) (hsound : s.Sound) {a : Action K V T}
    (hok : s.Healthy a) (hs : s.act cfg a = some s') : s'.Attended where
  writer i task' w answer hi hphase := by
    have hkept : ∀ {writer : Writer K V T}, s.writers w = some writer →
        ∃ writer, s'.writers w = some writer := by
      intro writer hw
      rw [← Option.isSome_iff_exists]
      rcases writer_act hok hs w with he | ⟨-, hsome, -⟩
      · simp [he, hw]
      · exact hsome
    rcases (tasksGo_act hok hs).back hi with hi | ⟨-, get, g, rfl⟩ | ⟨task, hi₁, hgoes⟩
    · obtain ⟨writer, hw⟩ := h.writer i task' w answer hi hphase
      exact hkept hw
    · simp [newTask] at hphase
    · cases hgoes with
      | join g | left g | settle =>
        obtain ⟨writer, hw⟩ := h.writer i task w answer hi₁ hphase
        exact hkept hw
      | store write tags hfetching hcurrent =>
        cases hphase
        have hfetched : s.fetched cfg i (.store write tags) = some s' := hs
        obtain ⟨task₀, born, hi₀, -, ⟨result, -, hout, -⟩ | ⟨write₀, tags₀, -, -, rfl⟩⟩ :=
          fetched_spec hfetched
        · obtain rfl := Option.some.inj (hi₁.symm.trans hi₀)
          simp [(hout write tags rfl).2] at hcurrent
        · exact ⟨_, by simp [storeEntry, putTask, putWriter]; rfl⟩
      | recheck | found | missed | failed | fetch | fetched | stored | giveUp => cases hphase
  order w writer hw := by
    rcases writer_act hok hs w with he | ⟨-, -, ho⟩
    · rw [hw, Option.isSome_some] at he
      obtain ⟨writer₀, hw₀⟩ := Option.isSome_iff_exists.mp he.symm
      obtain ⟨o, ho⟩ := h.order w writer₀ hw₀
      obtain ⟨o', ho', -⟩ := (hsound.store_act hs).order hsound.wf ho
      exact ⟨o', ho'⟩
    · exact ho

omit [DecidableEq K] in
theorem attended_initial (now : Millis) (contents : ℕ → K → Option (Stored V × Option Millis)) :
    (initial now contents : Stack K V T).Attended := by
  constructor <;> simp [initial]

/-- A step of an order that can be taken, `t` or one that it is queued behind. -/
theorem Calm.front [DecidableEq T] (cfg : Config) (h : s.Calm) (hwf : s.store.Wf n)
    (ht : s.store.chain.settledAt t = false) :
    ∃ a u, Relation.ReflTransGen s.store.chain.WaitsFor t u ∧ a.order = some u ∧
      (s.act cfg (.store a)).isSome = true := by
  obtain ⟨u, hbehind, ⟨tk, htk, hrunning⟩ | hstart⟩ := hwf.chain.front ht
  · obtain ⟨o, ho⟩ := hwf.order u tk htk
    obtain ⟨tk', hticketed⟩ := hwf.ticket u o ho
    obtain rfl := Option.some.inj (htk.symm.trans hticketed.get)
    by_cases hdone : ∀ st ∈ o.strands, st.done = true
    · refine ⟨.settle u, u, hbehind, rfl, ?_⟩
      have hchain : (s.store.chain.settle u).isSome = true := by
        simp [TailChain.Chain.settle, htk, hrunning]
      obtain ⟨chain, hchain⟩ := Option.isSome_iff_exists.mp hchain
      simpa [Stack.act, storeStep, storeChange, Store.settle, ho, hchain] using hdone
    · push Not at hdone
      obtain ⟨st, hst, hnot⟩ := hdone
      obtain ⟨m, hm⟩ := List.getElem?_of_mem hst
      cases hphase : st.phase with
      | planned => simp [(hticketed.planned st hst).mp hphase] at hrunning
      | wiping todo => exact absurd hphase (h.unwiped u o ho st hst todo)
      | finished ok => simp [Strand.done, hphase] at hnot
      | writing active todo =>
        cases todo with
        | nil =>
          exact ⟨.check u m, u, hbehind, rfl, by
            simp [Stack.act, storeStep, storeChange, Store.check, ho, hm, Strand.check, hphase]⟩
        | cons p todo =>
          exact ⟨.land u m 0, u, hbehind, rfl, by
            simp [Stack.act, storeStep, storeChange, Store.land, ho, hm, Strand.land, hphase]⟩
  · obtain ⟨chain, hchain⟩ := Option.isSome_iff_exists.mp hstart
    obtain ⟨tk, htk, -⟩ := TailChain.Chain.start_spec hchain
    obtain ⟨o, ho⟩ := hwf.order u tk htk
    exact ⟨.start u, u, hbehind, rfl, by
      simp [Stack.act, storeStep, storeChange, Store.start, hchain, ho]⟩

variable [DecidableEq T]

/-- An order that the `get` waits for has settled, or there is a step to wait for. -/
theorem awaits_order (hcalm : s.Calm) (hwf : s.store.Wf n) (hqueues : s.QueuesFor t g get) :
    s.store.chain.settledAt t = true ∨ s.Awaits cfg g get := by
  cases hsettled : s.store.chain.settledAt t with
  | true => exact .inl rfl
  | false =>
    obtain ⟨a, u, hbehind, ha, hs⟩ := hcalm.front cfg hwf hsettled
    exact .inr ⟨_, .order hqueues hbehind ha, hs, by simp⟩

/-- The read that a `get` is going to take up is through, or there is a step to wait for. -/
theorem awaits_reader (hcalm : s.Calm) (hwf : s.store.Wf n) (htakes : s.TakesUp r g get)
    (hr : s.readers r = some reader) :
    ((∃ hit, reader.phase = .done hit) ∨ reader.phase = .failed) ∨ s.Awaits cfg g get := by
  have hread : ∀ a : ReadAction K, a.reader = some r → (s.readStep cfg a).isSome = true →
      s.Awaits cfg g get := fun a ha hs => ⟨_, .reader htakes ha, hs, by simp⟩
  cases hphase : reader.phase with
  | ready => exact .inr (hread (.load r) rfl (by simp [readStep, load, hr, hphase]))
  | loaded found =>
    have hresumed : (reader.resume cfg.layers s.store.now).isSome = true := by
      cases found with
      | none => simp [Reader.resume, hphase]
      | some item =>
        simp only [Reader.resume, hphase]
        split_ifs <;> rfl
    obtain ⟨reader', hreader'⟩ := Option.isSome_iff_exists.mp hresumed
    refine .inr (hread (.resume r) rfl ?_)
    simp only [readStep, resume, hr, hreader', Option.bind_eq_bind, Option.bind_some]
    split <;> rfl
  | purging => exact .inr (hread (.purge r) rfl (by simp [readStep, purge, hr, hphase]))
  | touched hit =>
    refine .inr (hread (.backfill r fun _ => none) rfl ?_)
    by_cases hl : hit.layerIndex = 0 <;> simp [readStep, backfill, hr, hphase, hl]
  | backfilling hit order =>
    refine .inr ((awaits_order hcalm hwf (.inr ⟨r, reader, hit, htakes, hr, hphase⟩)).elim
      (fun hsettled => ?_) id)
    exact hread (.backfilled r) rfl (by simp [readStep, backfilled, hr, hphase, hsettled])
  | missed => exact .inr (hread (.unindex r) rfl (by simp [readStep, unindex, hr, hphase]))
  | done hit => exact .inl (.inl ⟨hit, rfl⟩)
  | failed => exact .inl (.inr rfl)

theorem awaits_writer (hcalm : s.Calm) (hwf : s.store.Wf n) (hattended : s.Attended)
    (hstores : s.StoresFor w get) (hw : s.writers w = some writer) :
    writer.phase = .done ∨ s.Awaits cfg g get := by
  have hwrite : ∀ a : WriteAction K V T, a.writer = some w → (s.writeStep cfg a).isSome = true →
      s.Awaits cfg g get := fun a ha hs => ⟨_, .writer hstores ha, hs, by simp⟩
  cases hphase : writer.phase with
  | storing =>
    refine .inr ((awaits_order hcalm hwf (.inl hstores)).elim (fun hsettled => ?_) id)
    exact hwrite (.enqueue w) rfl (by simp [writeStep, enqueue, hw, hphase, hsettled])
  | enqueued =>
    obtain ⟨o, ho⟩ := hattended.order w writer hw
    exact .inr (hwrite (.verify w) rfl (by simp [writeStep, verify, hw, ho, hphase]))
  | tracking todo =>
    refine .inr (hwrite (.track w) rfl ?_)
    cases todo with
    | nil => simp [writeStep, track, hw, hphase]
    | cons entry rest =>
      by_cases hout : s.store.epochs.isWriteOutdated entry.key (writer.fence entry.key) = true <;>
        simp [writeStep, track, hw, hphase, hout]
  | announcing => exact .inr (hwrite (.announce w) rfl (by simp [writeStep, announce, hw, hphase]))
  | done => exact .inl rfl

theorem awaits_task (hcalm : s.Calm) (hwf : s.store.Wf n) (hlinked : s.Linked cfg n)
    (hattended : s.Attended) (hwaiting : get.phase = .waiting i fallback)
    (hi : s.tasks i = some task) :
    (∃ result, task.phase = .resolved result) ∨ s.Awaits cfg g get := by
  have hgoes : ∀ a : GetAction K V T, a.task = some i → (s.getStep cfg a).isSome = true →
      (∀ j outcome, a ≠ .fetched j outcome) → s.Awaits cfg g get :=
    fun a ha hs hne => ⟨_, .task hwaiting ha, hs, fun j outcome he => by
      cases he
      exact absurd rfl (hne j outcome)⟩
  cases hphase : task.phase with
  | idle missed =>
    right
    by_cases hlooked : missed = true ∧ cfg.singleFlightCoordinator = false
    · exact hgoes (.fetch i) rfl (by simp [getStep, fetch, hi, hphase, hlooked]) (by simp)
    · exact hgoes (.recheck i) rfl (by simpa [getStep, recheck, hi, hphase] using hlooked)
        (by simp)
  | rechecking r =>
    right
    obtain ⟨reader, hr, -⟩ := hlinked.rechecking i task r hi hphase
    have htakes : s.TakesUp r g get := by
      simp only [TakesUp, hwaiting]
      exact ⟨task, hi, hphase⟩
    refine (awaits_reader hcalm hwf htakes hr).elim (fun hthrough => ?_) id
    refine hgoes (.rechecked i) rfl ?_ (by simp)
    rcases hthrough with ⟨_ | hit, hdone⟩ | hfailed
    · simp [getStep, rechecked, hi, hphase, hr, hdone]
    · simp [getStep, rechecked, hi, hphase, hr, hdone]
    · simp [getStep, rechecked, hi, hphase, hr, hfailed]
  | fetching born =>
    refine .inr ⟨.get (.fetched i (.store .lasting none)), .task hwaiting rfl, ?_, by simp⟩
    simp only [Stack.act, getStep, fetched, hi, hphase, Option.bind_eq_bind,
      Option.bind_some]
    split <;> rfl
  | storing w answer =>
    right
    obtain ⟨writer, hw⟩ := hattended.writer i task w answer hi hphase
    have hstores : s.StoresFor w get := ⟨i, fallback, task, answer, hwaiting, hi, hphase⟩
    refine (awaits_writer hcalm hwf hattended hstores hw).elim (fun hdone => ?_) id
    exact hgoes (.stored i) rfl (by simp [getStep, stored, hi, hphase, hw, hdone]) (by simp)
  | resolved result => exact .inl ⟨result, rfl⟩

/-- A `get` that is not through waits for a step that can be taken. -/
theorem awaits_caller (hcalm : s.Calm) (hwf : s.store.Wf n) (hlinked : s.Linked cfg n)
    (hattended : s.Attended) (hg : s.gets g = some get)
    (hdone : ∀ answer, get.phase ≠ .done answer) (hfailed : get.phase ≠ .failed) :
    s.Awaits cfg g get := by
  have hgoes : ∀ a : GetAction K V T, a.caller = some g → (s.getStep cfg a).isSome = true →
      (∀ j outcome, a ≠ .fetched j outcome) → s.Awaits cfg g get :=
    fun a ha hs hne => ⟨_, .caller ha, hs, fun j outcome he => by
      cases he
      exact absurd rfl (hne j outcome)⟩
  cases hphase : get.phase with
  | reading =>
    obtain ⟨reader, hr, -⟩ := hlinked.reading g get hg hphase
    have htakes : s.TakesUp g g get := by simp [TakesUp, hphase]
    refine (awaits_reader hcalm hwf htakes hr).elim (fun hthrough => ?_) id
    refine hgoes (.conclude g) rfl ?_ (by simp)
    rcases hthrough with ⟨_ | hit, hdone⟩ | hfailed
    · simp [getStep, conclude, hg, hphase, hr, hdone]
    · cases hstate : hit.state <;> simp [getStep, conclude, hg, hphase, hr, hdone, hstate]
    · simp [getStep, conclude, hg, hphase, hr, hfailed]
  | sliding answer todo stored ttl ahead =>
    refine hgoes (.slide g) rfl ?_ (by simp)
    cases todo <;> simp [getStep, slide, hg, hphase]
  | entering fallback =>
    refine hgoes (.enter g) rfl ?_ (by simp)
    cases hprevention : cfg.stampedePrevention with
    | false => simp [getStep, enter, hg, hphase, hprevention]
    | true =>
      cases hflight : s.inFlight get.key with
      | none => simp [getStep, enter, hg, hphase, hprevention, hflight]
      | some i =>
        obtain ⟨task, hi, -⟩ := hlinked.inFlight get.key i hflight
        simp [getStep, enter, hg, hphase, hprevention, hflight, hi]
  | waiting i fallback =>
    obtain ⟨task, hi, -⟩ := hlinked.waiting g get i fallback hg hphase
    refine (awaits_task hcalm hwf hlinked hattended hphase hi).elim (fun hresolved => ?_) id
    obtain ⟨result, hresolved⟩ := hresolved
    exact hgoes (.leave g) rfl (by simp [getStep, leave, hg, hphase, hi, hresolved]) (by simp)
  | done answer => exact absurd hphase (hdone answer)
  | failed => exact absurd hphase hfailed

end Stack

end LayerCache
