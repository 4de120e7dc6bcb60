import LayerCache.SingleFlight.Fleet
import LayerCache.Transition.Run

/-! # One fetch for each freshness window

Under the lock nobody else stores, so a task that looks at the shared layer after it has
got the lock, and finds nothing fresh there, may fetch. A task that skips this look,
because its `get` has missed before or because it has waited past its deadline, fetches
whatever another stack has stored in the meantime.
-/

namespace LayerCache

open Transition

namespace Fleet

variable {ι V : Type}

namespace TaskPhase

/-- The phases that a task goes through under the lock. -/
def Works : TaskPhase V → Prop
  | .rechecking _ | .ready | .fetching | .storing _ _ => True
  | _ => False

/-- The task has the fetcher's value to get, or to store in the shared layer. -/
def Fetches : TaskPhase V → Prop
  | .fetching | .storing _ _ => True
  | _ => False

/-- The task is past the shared layer, with nothing fresh found there and nothing stored. -/
def Past (locals : ℕ) : TaskPhase V → Prop
  | .rechecking (.done none) | .ready | .fetching => True
  | .rechecking (.purging l) => locals ≤ l
  | .storing todo _ => ∃ p ∈ todo, locals ≤ p.1
  | _ => False

instance (locals : ℕ) : (phase : TaskPhase V) → Decidable (phase.Past locals)
  | .rechecking (.purging l) => inferInstanceAs (Decidable (locals ≤ l))
  | .storing todo _ => inferInstanceAs (Decidable (∃ p ∈ todo, locals ≤ p.1))
  | .rechecking (.done none) | .ready | .fetching => .isTrue trivial
  | .rechecking (.looking _) | .rechecking (.backfilling _ _) | .rechecking (.done (some _))
  | .acquiring | .polling _ | .retrying | .settling _ | .resolved _ => .isFalse id

/-- The task does not fetch, and what it returns is the entry, unless its own layers have a fresh
one. -/
def Returns (locals : ℕ) (item : Item V) : TaskPhase V → Prop
  | .rechecking (.looking _) => True
  | .rechecking (.purging l) => l < locals
  | .rechecking (.backfilling hit _) | .rechecking (.done (some hit))
  | .settling (some (.found hit)) | .resolved (some (.found hit)) =>
    hit.layerIndex < locals ∨ hit.item = item
  | _ => False

theorem Past.works {locals : ℕ} {phase : TaskPhase V} (h : phase.Past locals) : phase.Works := by
  cases phase <;> trivial

theorem Fetches.works {phase : TaskPhase V} (h : phase.Fetches) : phase.Works := by
  cases phase <;> trivial

end TaskPhase

/-- Whether the task goes on without the coordinator when it settles. -/
def startsOverAt (cfg : ι → Instance V) (s : Fleet ι V) (t : ℕ) : Bool :=
  (s.tasks t).any fun task =>
    match task.phase with
    | .settling result => startsOver cfg task result
    | _ => false

/-- Whether what is about to be purged lies in the shared layer. -/
def purgesShared (cfg : ι → Instance V) (s : Fleet ι V) (a : Actor) : Bool :=
  (s.lookupOf a).any fun lookup =>
    match lookup.2.2 with
    | .purging l => (cfg lookup.1).locals ≤ l
    | _ => false

/-- Whether the task with the lock goes by a look at the shared layer, and has yet to store in
it. -/
def holderPast (cfg : ι → Instance V) (s : Fleet ι V) : Bool :=
  (s.lock.bind s.tasks).any fun task => task.phase.Past (cfg task.owner).locals

/-- Nobody gets the lock to fetch without a look while the shared layer has a fresh entry, starts
over without the lock, or purges a fresh entry; and no write that was put off replaces a fresh
entry, or comes after the look of the task with the lock. -/
def Careful (cfg : ι → Instance V) (s : Fleet ι V) : Action ι V → Prop
  | .acquire t => s.lock = none → (s.tasks t).any (·.missed) = true → s.holdsFresh = false
  | .retry _ => s.lock = none → s.holdsFresh = false
  | .settle t => startsOverAt cfg s t = false
  | .purge a => purgesShared cfg s a = true → s.holdsFresh = false
  | .flush _ => s.holdsFresh = false ∧ holderPast cfg s = false
  | _ => True

instance (cfg : ι → Instance V) (s : Fleet ι V) (a : Action ι V) : Decidable (Careful cfg s a) := by
  cases a <;> unfold Careful <;> infer_instance

/-- No two fetches overlap; no fetch starts while an entry that has been stored is fresh; and a task
that gets the lock while such an entry is fresh returns it, as long as it stays fresh. -/
structure OncePerWindow (cfg : ι → Instance V) (s : Fleet ι V) : Prop where
  alone : ∀ t t' task task', s.tasks t = some task → s.tasks t' = some task' →
    task.phase.Fetches → task'.phase.Fetches → t = t'
  window : ∀ run ∈ s.invocations, ∀ item ∈ run.stored, isFresh run.time item = false
  returned : ∀ t task, s.tasks t = some task → ∀ item ∈ task.acquired,
    isFresh s.now item = true → task.phase.Returns (cfg task.owner).locals item

structure Task.Good (inst : Instance V) (lock : Option ℕ) (now : Millis) (stores : List (Item V))
    (t : ℕ) (task : Task ι V) : Prop where
  lock : task.phase.Works → lock = some t
  past : task.phase.Past inst.locals → ∀ item ∈ stores, isFresh now item = false
  puts : ∀ todo value, task.phase = .storing todo value →
    (todo.map Prod.fst).Nodup ∧ ∀ p ∈ todo, p.1 ≤ inst.locals
  acquired : ∀ item ∈ task.acquired, item ∈ stores ∧
    (isFresh now item = true → task.phase.Returns inst.locals item)

/-- A fresh entry that has been stored is still in the shared layer. -/
structure Inv (cfg : ι → Instance V) (s : Fleet ι V) : Prop where
  tasks : ∀ t task, s.tasks t = some task →
    task.Good (cfg task.owner) s.lock s.now s.stores t
  shown : ∀ item ∈ s.stores, isFresh s.now item = true → s.shared = some item
  window : ∀ run ∈ s.invocations, ∀ item ∈ run.stored, isFresh run.time item = false

variable {cfg : ι → Instance V} {s s' : Fleet ι V} {t : ℕ} {task : Task ι V} {inst : Instance V}
  {lock : Option ℕ} {now : Millis} {stores : List (Item V)}

theorem Task.Good.move (h : task.Good inst lock now stores t) (phase : TaskPhase V)
    (hlock : phase.Works → task.phase.Works)
    (hpast : phase.Past inst.locals → ∀ item ∈ stores, isFresh now item = false)
    (hputs : ∀ todo value, phase = .storing todo value →
      (todo.map Prod.fst).Nodup ∧ ∀ p ∈ todo, p.1 ≤ inst.locals)
    (hreturns : ∀ item ∈ stores, isFresh now item = true →
      task.phase.Returns inst.locals item → phase.Returns inst.locals item) :
    ({ task with phase } : Task ι V).Good inst lock now stores t where
  lock := fun hworks => h.lock (hlock hworks)
  past := hpast
  puts := hputs
  acquired := fun item hitem =>
    have ⟨hmem, hfresh⟩ := h.acquired item hitem
    ⟨hmem, fun hnow => hreturns item hmem hnow (hfresh hnow)⟩

theorem isFresh_of_later {item : Item V} {later : Millis} (hle : now ≤ later)
    (h : isFresh later item = true) : isFresh now item = true := by
  simp only [isFresh, decide_eq_true_eq] at h ⊢
  exact fresh_of_later hle h

theorem Task.Good.later (h : task.Good inst lock now stores t) {later : Millis}
    (hle : now ≤ later) : task.Good inst lock later stores t where
  lock := h.lock
  past := fun hpast item hitem => by
    have hstale := h.past hpast item hitem
    by_contra hfresh
    rw [isFresh_of_later hle (by simpa using hfresh)] at hstale
    cases hstale
  puts := h.puts
  acquired := fun item hitem =>
    ⟨(h.acquired item hitem).1, fun hfresh =>
      (h.acquired item hitem).2 (isFresh_of_later hle hfresh)⟩

namespace Inv

theorem put (h : Inv cfg s) {task' : Task ι V}
    (hgood : task'.Good (cfg task'.owner) s.lock s.now s.stores t) :
    Inv cfg (s.putTask t task') where
  tasks := fun t' task hget => by
    by_cases heq : t' = t
    · subst heq
      simp only [putTask, Function.update_self, Option.some.injEq] at hget
      subst hget
      exact hgood
    · simp only [putTask, Function.update_of_ne heq] at hget
      exact h.tasks t' task hget
  shown := h.shown
  window := h.window

theorem stale_of_holdsFresh (h : Inv cfg s) (hnone : s.holdsFresh = false) :
    ∀ item ∈ s.stores, isFresh s.now item = false := by
  intro item hitem
  by_contra hfresh
  have hshared := h.shown item hitem (by simpa using hfresh)
  simp [holdsFresh, hshared, hfresh] at hnone

theorem lookupOf_task {i : ι} {mode : ReadMode} {lookup : Lookup V}
    (h : s.lookupOf (.task t) = some (i, mode, lookup)) : ∃ task, s.tasks t = some task ∧
      task.owner = i ∧ mode = .freshOnly ∧
        (task.phase = .rechecking lookup ∨ task.phase = .polling lookup) := by
  simp only [lookupOf, Option.bind_eq_bind, Option.bind_eq_some_iff] at h
  obtain ⟨task, htask, h⟩ := h
  split at h
  · cases h
    exact ⟨task, htask, rfl, rfl, .inl ‹_›⟩
  · cases h
    exact ⟨task, htask, rfl, rfl, .inr ‹_›⟩
  · cases h

/-- The lookup of a `get` is no concern of the tasks; that of a task may move on as long as the task
stays good. -/
theorem putLookup (h : Inv cfg s) {a : Actor} {i : ι} {mode : ReadMode} {lookup : Lookup V}
    (hlookup : s.lookupOf a = some (i, mode, lookup)) (lookup' : Lookup V)
    (hgood : ∀ t task, s.tasks t = some task → task.owner = i → mode = .freshOnly →
      task.phase = .rechecking lookup →
        ({ task with phase := .rechecking lookup' } : Task ι V).Good (cfg i) s.lock s.now s.stores
          t) :
    Inv cfg (s.putLookup lookup' a) := by
  cases a with
  | get g =>
    simp only [Fleet.putLookup]
    split
    · exact ⟨h.tasks, h.shown, h.window⟩
    · exact h
  | task t =>
    obtain ⟨task, htask, rfl, hmode, hphase | hphase⟩ := lookupOf_task hlookup
    · simp only [Fleet.putLookup, htask, hphase]
      apply h.put
      exact hgood t task htask rfl hmode hphase
    · simp only [Fleet.putLookup, htask, hphase]
      apply h.put
      refine (h.tasks t task htask).move _ (fun hworks => hworks.elim) (fun hpast => hpast.elim)
        (fun todo value heq => by cases heq) fun item _ _ hreturns => ?_
      rw [hphase] at hreturns
      exact hreturns.elim

/-- What a look leaves behind the shared layer is that there was nothing fresh in it. -/
theorem past_resume {locals l : ℕ} {found : Option (Item V)}
    (h : (TaskPhase.rechecking (.resume locals now .freshOnly l found)).Past locals) :
    locals ≤ l ∧ ∀ item ∈ found, isFresh now item = false := by
  have hnext : (TaskPhase.rechecking (.next locals l : Lookup V)).Past locals → locals ≤ l := by
    intro hpast
    unfold Lookup.next at hpast
    split at hpast
    · exact hpast.elim
    · omega
  cases found with
  | none => exact ⟨hnext h, fun _ h => by cases h⟩
  | some item =>
    simp only [Option.mem_def, Option.some.injEq, forall_eq', isFresh, decide_eq_false_iff_not]
    simp only [Lookup.resume, true_and] at h
    split_ifs at h with hexpired hstale
    · exact ⟨h, by simp [hexpired]⟩
    · exact ⟨hnext h, hstale⟩
    · exact h.elim

/-- A look does not miss a fresh entry in the shared layer. -/
theorem returns_resume {locals l : ℕ} {found : Option (Item V)} {item : Item V}
    (hfound : locals ≤ l → found = some item) (hfresh : isFresh now item = true) :
    (TaskPhase.rechecking (.resume locals now .freshOnly l found)).Returns locals item := by
  have hstate : (resolveStoredValue now item.stored now).state = .fresh := by
    simpa [isFresh] using hfresh
  by_cases hle : locals ≤ l
  · simp [hfound hle, Lookup.resume, hstate, TaskPhase.Returns]
  · have hnext : (TaskPhase.rechecking (.next locals l : Lookup V)).Returns locals item := by
      simp [Lookup.next, not_le.mp hle, TaskPhase.Returns]
    cases found with
    | none => exact hnext
    | some other =>
      simp only [Lookup.resume, true_and]
      split_ifs
      · exact not_le.mp hle
      · exact hnext
      · exact .inl (not_le.mp hle)

/-- Whatever fresh entry has been stored is what a look at the shared layer finds. -/
theorem cell_eq (h : Inv cfg s) {i : ι} {l : ℕ} {item : Item V} (hitem : item ∈ s.stores)
    (hfresh : isFresh s.now item = true) (hle : (cfg i).locals ≤ l) :
    s.cell cfg i l = some item := by
  rw [cell, if_neg (by omega)]
  exact h.shown item hitem hfresh

theorem look (h : Inv cfg s) {a : Actor} (hstep : s.look cfg a = some s') : Inv cfg s' := by
  simp only [Fleet.look, Option.bind_eq_bind, Option.bind_eq_some_iff] at hstep
  obtain ⟨⟨i, mode, lookup⟩, hlookup, hstep⟩ := hstep
  dsimp only at hstep
  split at hstep
  next l =>
    cases hstep
    apply h.putLookup hlookup
    rintro t task htask rfl rfl hphase
    refine (h.tasks t task htask).move _ (fun _ => by rw [hphase]; trivial) ?_
      (fun todo value heq => by cases heq) ?_
    · intro hpast item hitem
      obtain ⟨hle, hstale⟩ := past_resume hpast
      by_contra hfresh
      rw [Bool.not_eq_false] at hfresh
      have hcell := h.cell_eq hitem hfresh hle
      rw [hstale item hcell] at hfresh
      cases hfresh
    · intro item hitem hfresh _
      exact returns_resume (h.cell_eq hitem hfresh) hfresh
  next => cases hstep

theorem drop (h : Inv cfg s) (hstale : s.holdsFresh = false) :
    Inv cfg { s with shared := none } where
  tasks := h.tasks
  shown := fun item hitem hfresh => by
    rw [h.stale_of_holdsFresh hstale item hitem] at hfresh
    cases hfresh
  window := h.window

theorem of_eq (h : Inv cfg s) (htasks : s'.tasks = s.tasks) (hlock : s'.lock = s.lock)
    (hnow : s'.now = s.now) (hshared : s'.shared = s.shared) (hstores : s'.stores = s.stores)
    (hinvocations : s'.invocations = s.invocations) : Inv cfg s' where
  tasks := by rw [htasks, hlock, hnow, hstores]; exact h.tasks
  shown := by rw [hnow, hstores, hshared]; exact h.shown
  window := by rw [hinvocations]; exact h.window

theorem good_acquiring (i : ι) (missed : Bool) (t : ℕ) :
    (⟨i, missed, 1, false, [], .acquiring⟩ : Task ι V).Good inst lock now stores t where
  lock := fun hworks => hworks.elim
  past := fun hpast => hpast.elim
  puts := fun todo value heq => by cases heq
  acquired := fun item hitem => by cases hitem

section

variable [DecidableEq ι]

theorem setCell (h : Inv cfg s) {i : ι} {l : ℕ} {item : Option (Item V)}
    (hlocal : l < (cfg i).locals ∨ item = none ∧ s.holdsFresh = false) :
    Inv cfg (s.setCell cfg i l item) := by
  unfold Fleet.setCell
  split
  · exact ⟨h.tasks, h.shown, h.window⟩
  · obtain hlt | ⟨rfl, hstale⟩ := hlocal
    · contradiction
    · exact h.drop hstale

omit [DecidableEq ι] in
theorem tick (h : Inv cfg s) {d : Millis} (hstep : s.tick d = some s') : Inv cfg s' := by
  unfold Fleet.tick at hstep
  split_ifs at hstep with hd
  cases hstep
  have hle : s.now ≤ s.now + d := le_add_of_nonneg_right hd
  exact ⟨fun t task hget => (h.tasks t task hget).later hle,
    fun item hitem hfresh => h.shown item hitem (isFresh_of_later hle hfresh), h.window⟩

theorem lapse (h : Inv cfg s) {i : ι} {l : ℕ} (hstep : s.lapse cfg i l = some s') :
    Inv cfg s' := by
  simp only [Fleet.lapse, Option.bind_eq_bind, Option.bind_eq_some_iff] at hstep
  obtain ⟨item, hcell, hstep⟩ := hstep
  split_ifs at hstep with hexpired
  cases hstep
  apply h.setCell
  by_cases hlt : l < (cfg i).locals
  · exact .inl hlt
  · rw [cell, if_neg hlt] at hcell
    exact .inr ⟨rfl, by simp [holdsFresh, hcell, isFresh, hexpired]⟩

theorem purge (h : Inv cfg s) {a : Actor} (hcareful : Careful cfg s (.purge a))
    (hstep : s.purge cfg a = some s') : Inv cfg s' := by
  simp only [Fleet.purge, Option.bind_eq_bind, Option.bind_eq_some_iff] at hstep
  obtain ⟨⟨i, mode, lookup⟩, hlookup, hstep⟩ := hstep
  dsimp only at hstep
  split at hstep
  next l =>
    cases hstep
    have hput : Inv cfg (s.putLookup (.next (cfg i).locals l) a) := by
      apply h.putLookup hlookup
      rintro t task htask rfl - hphase
      have hgood := h.tasks t task htask
      unfold Lookup.next
      split
      next hlt =>
        exact hgood.move _ (fun _ => by rw [hphase]; trivial) (fun hpast => hpast.elim)
          (fun todo value heq => by cases heq) fun _ _ _ _ => trivial
      next hlt =>
        have hpast : task.phase.Past (cfg task.owner).locals := by
          rw [hphase]
          exact not_lt.mp hlt
        refine hgood.move _ (fun _ => hpast.works) (fun _ => hgood.past hpast)
          (fun todo value heq => by cases heq) fun item hitem hfresh _ => ?_
        rw [hgood.past hpast item hitem] at hfresh
        cases hfresh
    apply hput.setCell
    by_cases hlt : l < (cfg i).locals
    · exact .inl hlt
    · have hshared : purgesShared cfg s a = true := by
        simp [purgesShared, hlookup, not_lt.mp hlt]
      refine .inr ⟨rfl, ?_⟩
      have hstale := hcareful hshared
      cases a <;> simp only [Fleet.putLookup] <;> split <;> exact hstale
  next => cases hstep

theorem backfill (h : Inv cfg s) {a : Actor} (hstep : s.backfill cfg a = some s') :
    Inv cfg s' := by
  simp only [Fleet.backfill, Option.bind_eq_bind, Option.bind_eq_some_iff] at hstep
  obtain ⟨⟨i, mode, lookup⟩, hlookup, hstep⟩ := hstep
  dsimp only at hstep
  -- a task that has found an entry keeps it
  have hmove : ∀ {hit : Hit V} {todo : List ℕ} {lookup' : Lookup V},
      lookup = .backfilling hit todo →
      (lookup' = .done (some hit) ∨ ∃ todo', lookup' = .backfilling hit todo') →
      Inv cfg (s.putLookup lookup' a) := by
    rintro hit todo lookup' rfl hnext
    apply h.putLookup hlookup
    rintro t task htask rfl - hphase
    refine (h.tasks t task htask).move _ (fun _ => by rw [hphase]; trivial) ?_
      (fun todo value heq => by cases heq) ?_
    · obtain rfl | ⟨todo', rfl⟩ := hnext <;> exact fun hpast => hpast.elim
    · intro item _ _ hreturns
      rw [hphase] at hreturns
      obtain rfl | ⟨todo', rfl⟩ := hnext <;> exact hreturns
  split at hstep
  next hit =>
    cases hstep
    exact hmove rfl (.inl rfl)
  next hit l todo =>
    split_ifs at hstep with hlt
    cases hstep
    exact (hmove rfl (.inr ⟨todo, rfl⟩)).setCell (.inl hlt)
  next => cases hstep

theorem scheduleBackgroundRefresh (h : Inv cfg s) (i : ι) :
    Inv cfg (s.scheduleBackgroundRefresh i) := by
  unfold Fleet.scheduleBackgroundRefresh
  split
  · exact h
  · exact h.of_eq rfl rfl rfl rfl rfl rfl

theorem conclude (h : Inv cfg s) {g : ℕ} (hstep : s.conclude cfg g = some s') : Inv cfg s' := by
  simp only [Fleet.conclude, Option.bind_eq_bind, Option.bind_eq_some_iff] at hstep
  obtain ⟨get, hget, hstep⟩ := hstep
  have hput : ∀ get, Inv cfg (s.putGet g get) := fun get => h.of_eq rfl rfl rfl rfl rfl rfl
  split at hstep
  · cases hstep
    exact hput _
  · split at hstep
    · cases hstep
      split
      · exact (hput _).scheduleBackgroundRefresh _
      · exact hput _
    · cases hstep
      exact (hput _).scheduleBackgroundRefresh _
    · cases hstep
      exact hput _
  · cases hstep

theorem enter (h : Inv cfg s) {g : ℕ} (hstep : s.enter cfg g = some s') : Inv cfg s' := by
  simp only [Fleet.enter, Option.bind_eq_bind, Option.bind_eq_some_iff] at hstep
  obtain ⟨get, hget, hstep⟩ := hstep
  have hput : ∀ get, Inv cfg (s.putGet g get) := fun get => h.of_eq rfl rfl rfl rfl rfl rfl
  split at hstep
  next missed fallback hphase =>
    have hfresh := (hput { get with phase := .waiting s.clock fallback }).put
      (good_acquiring get.owner missed s.clock)
    split_ifs at hstep
    · split at hstep
      next t _ =>
        rw [Option.bind_eq_some_iff] at hstep
        obtain ⟨joined, hjoined, hstep⟩ := hstep
        cases hstep
        have hgood := h.tasks t joined hjoined
        apply (hput _).put
        exact ⟨hgood.lock, hgood.past, hgood.puts, hgood.acquired⟩
      next =>
        cases hstep
        exact hfresh.of_eq rfl rfl rfl rfl rfl rfl
    · cases hstep
      exact hfresh
  next => cases hstep

theorem leave (h : Inv cfg s) {g : ℕ} (hstep : s.leave g = some s') : Inv cfg s' := by
  simp only [Fleet.leave, Option.bind_eq_bind, Option.bind_eq_some_iff] at hstep
  obtain ⟨get, hget, hstep⟩ := hstep
  split at hstep
  next t fallback hphase =>
    rw [Option.bind_eq_some_iff] at hstep
    obtain ⟨task, htask, hstep⟩ := hstep
    split at hstep
    · cases hstep
      have hgood := h.tasks t task htask
      have hput : Inv cfg (s.putTask t { task with references := task.references - 1 }) :=
        h.put ⟨hgood.lock, hgood.past, hgood.puts, hgood.acquired⟩
      exact hput.of_eq rfl rfl rfl rfl rfl rfl
    · cases hstep
  next => cases hstep

omit [DecidableEq ι] in
theorem ne_of_mem_eraseIdx {todo : List (ℕ × Item V)} (hnodup : (todo.map Prod.fst).Nodup) {n : ℕ}
    {p q : ℕ × Item V} (hq : todo[n]? = some q) (hp : p ∈ todo.eraseIdx n) : p.1 ≠ q.1 := by
  intro heq
  obtain ⟨i, hne, hi⟩ := List.mem_eraseIdx_iff_getElem?.mp hp
  have hsame : (todo.map Prod.fst)[i]? = (todo.map Prod.fst)[n]? := by
    simp [hi, hq, heq]
  have hlt : i < (todo.map Prod.fst).length := by
    simpa using (List.getElem?_eq_some_iff.mp hi).1
  exact hne ((List.getElem?_inj hlt hnodup).mp hsame)

omit [DecidableEq ι] in
theorem not_past (h : holderPast cfg s = false) (htask : s.tasks t = some task)
    (hlock : s.lock = some t) : ¬task.phase.Past (cfg task.owner).locals := by
  simpa [holderPast, htask, hlock] using h

omit [DecidableEq ι] in
/-- An entry is stored in the shared layer in place of one that is not fresh, and not after the
look of the holder of the lock. -/
theorem storeShared (h : Inv cfg s) (hstale : ∀ item ∈ s.stores, isFresh s.now item = false)
    (hpast : holderPast cfg s = false) (item : Item V) :
    Inv cfg { s with shared := some item, stores := item :: s.stores } where
  tasks := fun t task htask => by
    have hgood := h.tasks t task htask
    refine ⟨hgood.lock, fun hpast' => ?_, hgood.puts, fun old hold => ?_⟩
    · exact absurd hpast' (not_past hpast htask (hgood.lock hpast'.works))
    · obtain ⟨hmem, -⟩ := hgood.acquired old hold
      refine ⟨List.mem_cons_of_mem _ hmem, fun hfresh => ?_⟩
      exact absurd hfresh (by simp [hstale old hmem])
  shown := fun old hold hfresh => by
    obtain rfl | hmem := List.mem_cons.mp hold
    · rfl
    · exact absurd hfresh (by simp [hstale old hmem])
  window := h.window

theorem land (h : Inv cfg s) {n : ℕ} (hstep : s.land cfg t n = some s') : Inv cfg s' := by
  simp only [Fleet.land, Option.bind_eq_bind, Option.bind_eq_some_iff] at hstep
  obtain ⟨task, htask, hstep⟩ := hstep
  have hgood := h.tasks t task htask
  split at hstep
  next todo value hphase =>
    simp only [Option.bind_eq_some_iff] at hstep
    obtain ⟨⟨l, item⟩, hitem, hstep⟩ := hstep
    cases hstep
    obtain ⟨hnodup, hle⟩ := hgood.puts todo value hphase
    have hmem : (l, item) ∈ todo := List.mem_of_getElem? hitem
    have hsub : todo.eraseIdx n ⊆ todo := (List.eraseIdx_sublist todo n).subset
    have hput : Inv cfg (s.putTask t { task with phase := .storing (todo.eraseIdx n) value }) := by
      refine h.put (hgood.move _ (fun _ => by rw [hphase]; trivial) ?_ ?_ ?_)
      · rintro ⟨p, hp, hshared⟩
        exact hgood.past (by rw [hphase]; exact ⟨p, hsub hp, hshared⟩)
      · intro todo' value' heq
        cases heq
        exact ⟨hnodup.sublist ((List.eraseIdx_sublist todo n).map _), fun p hp => hle p (hsub hp)⟩
      · intro item' _ _ hreturns
        rw [hphase] at hreturns
        exact hreturns.elim
    unfold store
    split_ifs with hlt
    · exact hput.setCell (.inl hlt)
    · have hstale : ∀ item ∈ s.stores, isFresh s.now item = false :=
        hgood.past (by rw [hphase]; exact ⟨_, hmem, not_lt.mp hlt⟩)
      have hlock : s.lock = some t := hgood.lock (by rw [hphase]; trivial)
      have hnone : ¬(TaskPhase.storing (todo.eraseIdx n) value).Past (cfg task.owner).locals := by
        rintro ⟨p, hp, hshared⟩
        exact ne_of_mem_eraseIdx hnodup hitem hp
          (le_antisymm ((hle p (hsub hp)).trans (not_lt.mp hlt)) ((hle _ hmem).trans hshared))
      have hshared := hput.storeShared hstale
        (by simpa [holderPast, putTask, hlock] using hnone) item
      unfold Fleet.setCell
      rw [if_neg hlt]
      exact hshared
  next => cases hstep

end

theorem flush (h : Inv cfg s) {n : ℕ} (hcareful : Careful cfg s (.flush n))
    (hstep : s.flush n = some s') : Inv cfg s' := by
  simp only [Fleet.flush, Option.bind_eq_bind, Option.bind_eq_some_iff] at hstep
  obtain ⟨item, -, hstep⟩ := hstep
  cases hstep
  exact (h.storeShared (h.stale_of_holdsFresh hcareful.1) hcareful.2 item).of_eq
    rfl rfl rfl rfl rfl rfl

theorem relock (h : Inv cfg s) {task' : Task ι V} {lock' : Option ℕ}
    (hgood : task'.Good (cfg task'.owner) lock' s.now s.stores t)
    (hothers : ∀ t' ≠ t, s.lock = some t' → lock' = some t') :
    Inv cfg { s.putTask t task' with lock := lock' } where
  tasks := fun t' task hget => by
    by_cases heq : t' = t
    · subst heq
      simp only [putTask, Function.update_self, Option.some.injEq] at hget
      subst hget
      exact hgood
    · simp only [putTask, Function.update_of_ne heq] at hget
      have hother := h.tasks t' task hget
      exact ⟨fun hworks => hothers t' heq (hother.lock hworks), hother.past, hother.puts,
        hother.acquired⟩
  shown := h.shown
  window := h.window

/-- A task with the lock may fetch without a look if nothing that has been stored is fresh. -/
theorem good_ready (h : Inv cfg s) (hstale : s.holdsFresh = false) (task : Task ι V) (t : ℕ) :
    ({ task with acquired := s.stores.filter (isFresh s.now), phase := .ready } : Task ι V).Good
      (cfg task.owner) (some t) s.now s.stores t where
  lock := fun _ => rfl
  past := fun _ => h.stale_of_holdsFresh hstale
  puts := fun todo value heq => by cases heq
  acquired := fun item hitem => by
    obtain ⟨hmem, hfresh⟩ := List.mem_filter.mp hitem
    rw [h.stale_of_holdsFresh hstale item hmem] at hfresh
    cases hfresh

theorem acquire (h : Inv cfg s) (hcareful : Careful cfg s (.acquire t))
    (hstep : s.acquire t = some s') : Inv cfg s' := by
  simp only [Fleet.acquire, Option.bind_eq_bind, Option.bind_eq_some_iff] at hstep
  obtain ⟨task, htask, hstep⟩ := hstep
  have hgood := h.tasks t task htask
  split at hstep
  next hphase hlock =>
    cases hstep
    refine h.relock ?_ fun t' _ hother => by rw [hlock] at hother; cases hother
    by_cases hmissed : task.missed = true
    · rw [if_pos hmissed]
      exact h.good_ready (hcareful hlock (by simp [htask, hmissed])) task t
    · rw [if_neg hmissed]
      exact ⟨fun _ => rfl, fun hpast => hpast.elim, fun _ _ heq => (by cases heq),
        fun item hitem => ⟨(List.mem_filter.mp hitem).1, fun _ => trivial⟩⟩
  next hphase _ =>
    cases hstep
    refine h.put (hgood.move _ (fun hworks => hworks.elim) (fun hpast => hpast.elim)
      (fun todo value heq => by cases heq) fun item _ _ hreturns => ?_)
    rw [hphase] at hreturns
    exact hreturns.elim
  next => cases hstep

theorem retry (h : Inv cfg s) (hcareful : Careful cfg s (.retry t))
    (hstep : s.retry t = some s') : Inv cfg s' := by
  simp only [Fleet.retry, Option.bind_eq_bind, Option.bind_eq_some_iff] at hstep
  obtain ⟨task, htask, hstep⟩ := hstep
  have hgood := h.tasks t task htask
  split at hstep
  next hphase hlock =>
    cases hstep
    refine h.relock ?_ fun t' _ hother => by rw [hlock] at hother; cases hother
    exact h.good_ready (hcareful hlock) task t
  next hphase _ =>
    cases hstep
    refine h.put (hgood.move _ (fun hworks => hworks.elim) (fun hpast => hpast.elim)
      (fun todo value heq => by cases heq) fun item _ _ hreturns => ?_)
    rw [hphase] at hreturns
    exact hreturns.elim
  next => cases hstep

theorem rest (h : Inv cfg s) (htask : s.tasks t = some task) (phase : TaskPhase V)
    (hworks : ¬phase.Works)
    (hreturns : ∀ item, ¬task.phase.Returns (cfg task.owner).locals item) :
    Inv cfg (s.putTask t { task with phase }) :=
  h.put ((h.tasks t task htask).move phase (fun h => absurd h hworks)
    (fun hpast => absurd hpast.works hworks)
    (fun _ _ heq => absurd (heq ▸ trivial) hworks)
    fun item _ _ hreturn => absurd hreturn (hreturns item))

theorem breakDown (h : Inv cfg s) (hstep : s.breakDown t = some s') : Inv cfg s' := by
  simp only [Fleet.breakDown, Option.bind_eq_bind, Option.bind_eq_some_iff] at hstep
  obtain ⟨task, htask, hstep⟩ := hstep
  split at hstep
  next hphase =>
    cases hstep
    exact h.rest htask _ id fun item => by rw [hphase]; exact id
  next => cases hstep

theorem looked (h : Inv cfg s) (hstep : s.looked t = some s') : Inv cfg s' := by
  simp only [Fleet.looked, Option.bind_eq_bind, Option.bind_eq_some_iff] at hstep
  obtain ⟨task, htask, hstep⟩ := hstep
  have hgood := h.tasks t task htask
  split at hstep
  next hphase =>
    cases hstep
    have hpast : task.phase.Past (cfg task.owner).locals := by rw [hphase]; trivial
    refine h.put (hgood.move _ (fun _ => hpast.works) (fun _ => hgood.past hpast)
      (fun todo value heq => by cases heq) fun item _ _ hreturns => ?_)
    rw [hphase] at hreturns
    exact hreturns.elim
  next hphase =>
    cases hstep
    exact h.rest htask _ id fun item => by rw [hphase]; exact id
  next hit hphase =>
    cases hstep
    refine h.put (hgood.move _ (fun hworks => hworks.elim) (fun hpast => hpast.elim)
      (fun todo value heq => by cases heq) fun item _ _ hreturns => ?_)
    rw [hphase] at hreturns
    exact hreturns
  next hit hphase =>
    cases hstep
    exact h.rest htask _ id fun item => by rw [hphase]; exact id
  next => cases hstep

theorem giveUp (h : Inv cfg s) (hstep : s.giveUp t = some s') : Inv cfg s' := by
  simp only [Fleet.giveUp, Option.bind_eq_bind, Option.bind_eq_some_iff] at hstep
  obtain ⟨task, htask, hstep⟩ := hstep
  split at hstep
  next hphase =>
    cases hstep
    exact h.rest htask _ id fun item => by rw [hphase]; exact id
  next => cases hstep

theorem fetch (h : Inv cfg s) (hstep : s.fetch t = some s') : Inv cfg s' := by
  simp only [Fleet.fetch, Option.bind_eq_bind, Option.bind_eq_some_iff] at hstep
  obtain ⟨task, htask, hstep⟩ := hstep
  have hgood := h.tasks t task htask
  split at hstep
  next hphase =>
    cases hstep
    have hpast : task.phase.Past (cfg task.owner).locals := by rw [hphase]; trivial
    have hput : Inv cfg (s.putTask t { task with phase := .fetching }) := by
      refine h.put (hgood.move _ (fun _ => hpast.works) (fun _ => hgood.past hpast)
        (fun todo value heq => by cases heq) fun item _ _ hreturns => ?_)
      rw [hphase] at hreturns
      exact hreturns.elim
    refine ⟨hput.tasks, hput.shown, fun run hrun => ?_⟩
    obtain rfl | hrun := List.mem_cons.mp hrun
    · exact hgood.past hpast
    · exact h.window run hrun
  next => cases hstep

theorem refuse (h : Inv cfg s) (hstep : s.refuse t = some s') : Inv cfg s' := by
  simp only [Fleet.refuse, Option.bind_eq_bind, Option.bind_eq_some_iff] at hstep
  obtain ⟨task, htask, hstep⟩ := hstep
  split at hstep
  next hphase =>
    cases hstep
    exact h.rest htask _ id fun item => by rw [hphase]; exact id
  next => cases hstep

theorem stored (h : Inv cfg s) (hstep : s.stored t = some s') : Inv cfg s' := by
  simp only [Fleet.stored, Option.bind_eq_bind, Option.bind_eq_some_iff] at hstep
  obtain ⟨task, htask, hstep⟩ := hstep
  split at hstep
  next hphase =>
    cases hstep
    exact h.rest htask _ id fun item => by rw [hphase]; exact id
  next => cases hstep

theorem nodup_puts (s : Fleet ι V) (i : ι) (write : WriteValue V) :
    ((s.puts cfg i write).map Prod.fst).Nodup ∧
      ∀ p ∈ s.puts cfg i write, p.1 ≤ (cfg i).locals := by
  unfold puts
  constructor
  · rw [List.map_map]
    exact (List.nodup_range).map fun _ _ heq => heq
  · intro p hp
    obtain ⟨l, hl, rfl⟩ := List.mem_map.mp hp
    have hlt := List.mem_range.mp hl
    show l ≤ _
    split at hlt <;> omega

theorem fetched (h : Inv cfg s) {value : Option (Option (Option V))}
    (hstep : s.fetched cfg t value = some s') : Inv cfg s' := by
  simp only [Fleet.fetched, Option.bind_eq_bind, Option.bind_eq_some_iff] at hstep
  obtain ⟨task, htask, hstep⟩ := hstep
  have hgood := h.tasks t task htask
  split at hstep
  next hphase =>
    have hnone : ∀ item, ¬task.phase.Returns (cfg task.owner).locals item := fun item => by
      rw [hphase]
      exact id
    have hpast : task.phase.Past (cfg task.owner).locals := by rw [hphase]; trivial
    cases value with
    | none =>
      cases hstep
      exact h.rest htask _ id hnone
    | some value =>
      simp only at hstep
      split at hstep
      next =>
        cases hstep
        exact h.rest htask _ id hnone
      next write _ =>
        cases hstep
        have hput : Inv cfg (s.putTask t { task with
            phase := .storing (s.puts cfg task.owner write) (.ofFetched value) }) :=
          h.put (hgood.move _ (fun _ => hpast.works) (fun _ => hgood.past hpast)
            (fun _ _ heq => by cases heq; exact nodup_puts s task.owner write)
            fun item _ _ hreturns => absurd hreturns (hnone item))
        exact hput.of_eq rfl rfl rfl rfl rfl rfl
  next => cases hstep

theorem settle (h : Inv cfg s) (hcareful : Careful cfg s (.settle t))
    (hstep : s.settle cfg t = some s') : Inv cfg s' := by
  simp only [Fleet.settle, Option.bind_eq_bind, Option.bind_eq_some_iff] at hstep
  obtain ⟨task, htask, hstep⟩ := hstep
  have hgood := h.tasks t task htask
  split at hstep
  next result hphase =>
    cases hstep
    have hover : startsOver cfg task result = false := by
      simpa [Careful, startsOverAt, htask, hphase] using hcareful
    rw [hover]
    refine h.relock ⟨fun hworks => hworks.elim, fun hpast => hpast.elim,
      fun _ _ heq => (by cases heq), fun item hitem => ?_⟩ fun t' hne hlock => ?_
    · obtain ⟨hmem, hreturns⟩ := hgood.acquired item hitem
      refine ⟨hmem, fun hfresh => ?_⟩
      have hreturn := hreturns hfresh
      rw [hphase] at hreturn
      cases result with
      | none => exact hreturn.elim
      | some result =>
        cases result with
        | found hit => exact hreturn
        | fetched value => exact hreturn.elim
    · rw [hlock, if_neg fun heq => hne (Option.some.inj heq)]
  next => cases hstep

end Inv

variable [DecidableEq ι]

omit [DecidableEq ι] in
theorem inv_initial (cfg : ι → Instance V) (now : Millis) (contents : Option (Stored V)) :
    Inv cfg (initial now contents : Fleet ι V) where
  tasks := fun t task hget => by cases hget
  shown := fun item hitem _ => Option.mem_toList.mp hitem
  window := fun run hrun => by cases hrun

theorem inv_step {a : Action ι V} (h : Inv cfg s) (hcareful : Careful cfg s a)
    (hstep : step cfg s a = some s') : Inv cfg s' := by
  obtain ⟨s₁, hact, rfl⟩ := Option.map_eq_some_iff.mp hstep
  suffices hinv : Inv cfg s₁ from ⟨hinv.tasks, hinv.shown, hinv.window⟩
  cases a with
  | tick d => exact h.tick hact
  | lapse i l => exact h.lapse hact
  | look a => exact h.look hact
  | purge a => exact h.purge hcareful hact
  | backfill a => exact h.backfill hact
  | get i =>
    cases hact
    exact h.of_eq rfl rfl rfl rfl rfl rfl
  | conclude g => exact h.conclude hact
  | enter g => exact h.enter hact
  | leave g => exact h.leave hact
  | acquire t => exact h.acquire hcareful hact
  | breakDown t => exact h.breakDown hact
  | looked t => exact h.looked hact
  | giveUp t => exact h.giveUp hact
  | retry t => exact h.retry hcareful hact
  | fetch t => exact h.fetch hact
  | refuse t => exact h.refuse hact
  | fetched t value => exact h.fetched hact
  | land t n => exact h.land hact
  | stored t => exact h.stored hact
  | settle t => exact h.settle hcareful hact
  | flush n => exact h.flush hcareful hact

/-- Whatever the stacks do with care, the fetcher runs once for each freshness window. -/
theorem oncePerWindow_of_careful (cfg : ι → Instance V) (now : Millis)
    (contents : Option (Stored V)) (s : Fleet ι V)
    (hrun : Reaches (step cfg) (Careful cfg) (initial now contents) s) : OncePerWindow cfg s := by
  have hinv : Inv cfg s := hrun.invariant (fun _ _ _ h hcareful hstep => inv_step h hcareful hstep)
    (inv_initial cfg now contents)
  constructor
  · intro t t' task task' htask htask' hfetches hfetches'
    have hlock := (hinv.tasks t task htask).lock hfetches.works
    have hlock' := (hinv.tasks t' task' htask').lock hfetches'.works
    rw [hlock] at hlock'
    exact Option.some.inj hlock'
  · exact hinv.window
  · intro t task htask item hitem
    exact ((hinv.tasks t task htask).acquired item hitem).2

/-- Stacks without layers of their own, that keep a value fresh for a minute. -/
def plainInstance : Instance ℕ where
  locals := 0
  writeBehind := false
  stampedePrevention := true
  gracefulDegradation := false
  refreshAheadMs := fun _ => 0
  caching := ⟨false, true, fun _ => true, fun _ _ _ => ⟨some 60000, none, none⟩⟩

/-- Two stacks miss; one of them fetches under the lock while the other one waits, and what it has
put off is written before it releases the lock. -/
theorem oncePerWindow_of_careful_at_waiter :
    ∃ s : Fleet Bool ℕ, (∃ hit, (s.tasks 8).map (·.phase) = some (.resolved (some (.found hit))) ∧
        hit.value = .value 7) ∧ s.invocations.length = 1 ∧
      OncePerWindow (fun writeBehind => { plainInstance with writeBehind }) s := by
  obtain ⟨s, hs, hresult, hlength⟩ : ∃ s ∈
      run (step fun writeBehind => { plainInstance with writeBehind }) (initial 0 none)
        [.get true, .get false, .look (.get 1), .conclude 1, .enter 1, .look (.get 2), .conclude 2,
          .enter 2, .acquire 5, .fetch 5, .acquire 8, .fetched 5 (some (some (some 7))), .flush 0,
          .stored 5, .settle 5, .look (.task 8), .backfill (.task 8), .looked 8, .settle 8],
      (s.tasks 8).map (·.phase) = some (.resolved (some (.found
        ⟨⟨.envelope (createStoredValueEnvelope .value (some 7) ⟨some 60000, none, none⟩ 0), 12⟩,
          .value 7, .fresh, 0⟩))) ∧ s.invocations.length = 1 := by
    decide +kernel
  exact ⟨s, ⟨_, hresult, rfl⟩, hlength, oncePerWindow_of_careful _ 0 none s
    (reaches_of_run _ hs (by decide +kernel))⟩

/-- Two stacks miss, and the second gets the lock when the first has fetched and stored. -/
theorem fetches_stored_value_again :
    ∃ s : Fleet Bool ℕ, Reaches (step fun _ => plainInstance) (fun _ _ => True) (initial 0 none) s ∧
      ¬OncePerWindow (fun _ => plainInstance) s := by
  obtain ⟨s, hs, record, hrecord, item, hitem, hfresh⟩ :
      ∃ s ∈ run (step fun _ : Bool => plainInstance) (initial 0 none)
        [.get true, .get false, .look (.get 1), .look (.get 2), .conclude 1, .conclude 2, .enter 1,
          .enter 2, .acquire 7, .fetch 7, .fetched 7 (some (some (some 7))), .land 7 0, .stored 7,
          .settle 7, .acquire 8, .fetch 8],
      ∃ record ∈ s.invocations, ∃ item ∈ record.stored, isFresh record.time item = true := by
    decide +kernel
  refine ⟨s, reaches_of_run _ hs (by decide +kernel), fun h => ?_⟩
  rw [h.window record hrecord item hitem] at hfresh
  cases hfresh

end Fleet

end LayerCache
