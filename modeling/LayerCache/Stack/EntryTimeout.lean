import LayerCache.Stack.Copies
import LayerCache.Store.Answerable

/-! # Entry timeouts

A caller of the stampede guard waits for a task only so long. When its timer fires and the
task still has the key, the key is released and its epoch moves on, so that a later `get`
starts a task of its own while the old one goes on behind the new fence. `fetchedAt` and
`storedAs` record when a task began to fetch and the order that stores what it fetched,
`reached` the layers that the writes of an order have come to, and `timedOut` the entries
that were released; they decide nothing.
-/

namespace LayerCache

open Store Transition

variable {K V T : Type}

/-- The release of an entry, and whether the value of its task had been stored in every layer. -/
structure EntryTimeout where
  step : ℕ
  stored : Bool
deriving DecidableEq

structure TimeoutStack (K V T : Type) where
  stack : Stack K V T
  fetchedAt : ℕ → Option ℕ
  storedAs : ℕ → Option ℕ
  reached : ℕ → List ℕ
  timedOut : ℕ → Option EntryTimeout

inductive TimeoutAction (K V T : Type)
  | stack (a : Action K V T)
  | timeout (get : ℕ)

namespace Stack

variable [DecidableEq K]

/-- `releaseTimedOut`: the key leaves the map, and its epoch moves on. -/
def releaseTimedOut (s : Stack K V T) (key : K) : Stack K V T :=
  { s with
    inFlight := Function.update s.inFlight key none
    store := s.store.bump s.clock (.keys [key]) [] }

/-- The timer of a waiting `get` fires: the first one releases the entry, and each rejects its
caller, who may have a stale value to fall back on. -/
def timeout (cfg : Config) (s : Stack K V T) (g : ℕ) : Option (Stack K V T) := do
  let get ← s.gets g
  match get.phase with
  | .waiting i fallback => do
    let task ← s.tasks i
    match task.phase with
    | .resolved _ => none
    | _ =>
      if cfg.stampedePrevention then
        let released := if s.inFlight task.key = some i then s.releaseTimedOut task.key else s
        let s' := (released.release i task).putGet g { get with
          phase :=
            match fallback with
            | some answer => .done answer
            | none => .failed }
        some (if get.background then
          { s' with backgroundRefreshes := Function.update s.backgroundRefreshes get.key none }
          else s')
      else none
  | _ => none

/-- The task whose entry the timer of a `get` releases. -/
def releases (s : Stack K V T) (g : ℕ) : Option ℕ := do
  let get ← s.gets g
  match get.phase with
  | .waiting i _ => do
    let task ← s.tasks i
    if s.inFlight task.key = some i then some i else none
  | _ => none

variable {cfg : Config} {s s' : Stack K V T} {g i : ℕ}

theorem release_frame (s : Stack K V T) (i : ℕ) (task : Task K V) :
    ∃ inFlight, (∀ k j, inFlight k = some j → s.inFlight k = some j) ∧ s.release i task =
      { s.putTask i { task with references := task.references - 1 } with inFlight } := by
  unfold release
  split
  · exact ⟨_, fun _ _ => update_none_eq_some, rfl⟩
  · exact ⟨s.inFlight, fun _ _ => id, rfl⟩

omit [DecidableEq K] in
theorem timeout_phase {fallback : Option (Answer V)} {phase : GetPhase V}
    (h : phase = match fallback with
      | some answer => .done answer
      | none => .failed) : (∃ answer, phase = .done answer) ∨ phase = .failed := by
  subst h
  cases fallback with
  | some answer => exact .inl ⟨answer, rfl⟩
  | none => exact .inr rfl

/-- The caller leaves its task; with the first timeout of the entry the epoch of the key moves
on. -/
theorem timeout_spec (h : s.timeout cfg g = some s') :
    ∃ get i fallback task phase store inFlight refreshes, s.gets g = some get ∧
      get.phase = .waiting i fallback ∧ s.tasks i = some task ∧
      ((∃ answer, phase = .done answer) ∨ phase = .failed) ∧
      (∀ k j, inFlight k = some j → s.inFlight k = some j) ∧
      ((s.releases g = some i ∧ store = s.store.bump s.clock (.keys [task.key]) []) ∨
        (s.releases g = none ∧ store = s.store)) ∧
      s' = { (s.putTask i { task with references := task.references - 1 }).putGet g
          { get with phase } with store, inFlight, backgroundRefreshes := refreshes } := by
  simp only [timeout, Option.bind_eq_bind, Option.bind_eq_some_iff] at h
  obtain ⟨get, hg, h⟩ := h
  split at h
  · rename_i i fallback hphase
    simp only [Option.bind_eq_some_iff] at h
    obtain ⟨task, hi, h⟩ := h
    split at h
    · cases h
    · simp only [Option.ite_none_right_eq_some, Option.some.injEq] at h
      obtain ⟨-, rfl⟩ := h
      by_cases hin : s.inFlight task.key = some i
      · have hreleases : s.releases g = some i := by simp [releases, hg, hphase, hi, hin]
        obtain ⟨inFlight, hsub, hrelease⟩ := release_frame (s.releaseTimedOut task.key) i task
        rw [if_pos hin, hrelease]
        have hsub' : ∀ k j, inFlight k = some j → s.inFlight k = some j :=
          fun k j hk => update_none_eq_some (hsub k j hk)
        split
        · exact ⟨get, i, fallback, task, _, s.store.bump s.clock (.keys [task.key]) [], inFlight,
            Function.update s.backgroundRefreshes get.key none, hg, hphase, hi, timeout_phase rfl,
            hsub', .inl ⟨hreleases, rfl⟩, rfl⟩
        · exact ⟨get, i, fallback, task, _, s.store.bump s.clock (.keys [task.key]) [], inFlight,
            s.backgroundRefreshes, hg, hphase, hi, timeout_phase rfl, hsub',
            .inl ⟨hreleases, rfl⟩, rfl⟩
      · have hreleases : s.releases g = none := by simp [releases, hg, hphase, hi, hin]
        obtain ⟨inFlight, hsub, hrelease⟩ := release_frame s i task
        rw [if_neg hin, hrelease]
        split
        · exact ⟨get, i, fallback, task, _, s.store, inFlight,
            Function.update s.backgroundRefreshes get.key none, hg, hphase, hi, timeout_phase rfl,
            hsub, .inr ⟨hreleases, rfl⟩, rfl⟩
        · exact ⟨get, i, fallback, task, _, s.store, inFlight, s.backgroundRefreshes, hg, hphase,
            hi, timeout_phase rfl, hsub, .inr ⟨hreleases, rfl⟩, rfl⟩
  · cases h

theorem step_timeout (h : s.timeout cfg g = some s') : s.store.Step False s.clock s'.store := by
  obtain ⟨get, i, fallback, task, phase, store, inFlight, refreshes, -, -, -, -, -,
    ⟨-, rfl⟩ | ⟨-, rfl⟩, rfl⟩ := timeout_spec h
  · exact .bump (.keys [task.key]) []
  · exact .idle

theorem Intact.timeout (hintact : s.Intact cfg) (h : s.timeout cfg g = some s') :
    Intact cfg { s' with clock := s.clock + 1 } := by
  have hstep := step_timeout h
  have hwf := hintact.sound.wf
  obtain ⟨get, i, fallback, task, phase, store, inFlight, refreshes, hg, -, hi, -, -, -, rfl⟩ :=
    timeout_spec h
  have htask : s.Inherits (s.putTask i { task with references := task.references - 1 }) :=
    .keepTask hi rfl rfl rfl (.refl s)
  have hinherits := htask.getPhase hg phase
  refine ⟨hintact.sound.of_inherits hstep (hinherits.congr rfl rfl rfl rfl fun d hd =>
    hd.congr rfl (fun _ => id) rfl) rfl, hintact.fenced.step hwf hstep, hintact.working, ?_⟩
  exact fun d inv hd => (hintact.invalidated d inv hd).mono hwf hstep (Nat.le_succ _)

theorem Linked.timeout (hlinked : s.Linked cfg s.clock) (h : s.timeout cfg g = some s') :
    Linked cfg (s.clock + 1) { s' with clock := s.clock + 1 } := by
  obtain ⟨get, i, fallback, task, phase, store, inFlight, refreshes, hg, -, hi, hend, hsub, -,
    rfl⟩ := timeout_spec h
  have hput : (s.putTask i { task with references := task.references - 1 }).Linked cfg
    (s.clock + 1) := hlinked.mono.keepTask hi rfl (.inr rfl)
  have hput' : ((s.putTask i { task with references := task.references - 1 }).putGet g
      { get with phase }).Linked cfg (s.clock + 1) := by
    rcases hend with ⟨answer, rfl⟩ | rfl
    · exact hput.getPhase hg
    · exact hput.getPhase hg
  refine hput'.congr ?_ ?_ ?_ hsub <;> rfl

theorem Bears.of_timeout {w born : ℕ} {k : K} (h : s.timeout cfg g = some s')
    (hb : s'.Bears w k born) : s.Bears w k born := by
  obtain ⟨get, i, fallback, task, phase, store, inFlight, refreshes, hg, -, hi, hend, hsub, hstore,
    rfl⟩ := timeout_spec h
  obtain ⟨hcells, horders, hnow⟩ : store.cells = s.store.cells ∧
      store.orders = s.store.orders ∧ store.now = s.store.now := by
    rcases hstore with ⟨-, rfl⟩ | ⟨-, rfl⟩
    · exact ⟨rfl, rfl, rfl⟩
    · exact ⟨rfl, rfl, rfl⟩
  cases hb with
  | cell hcell hborn => exact .cell (hcells ▸ hcell) hborn
  | found hr hk hitem hborn => exact .found (s := s) hr hk hitem hborn
  | put ht ho hp hk hborn => exact .put ht (horders ▸ ho) hp hk hborn
  | @renewing g' x hx hk hborn =>
    have hx' : (s.putGet g { get with phase }).renewal g' = some x := by
      refine renewal_congr ?_ ?_ hx
      · rfl
      · exact fun r y hr hy => ⟨r, hr, hnow ▸ hy⟩
    rcases renewal_putGet (by rcases hend with ⟨answer, rfl⟩ | rfl <;> simp) hx' with
      hx | ⟨-, answer, l, rest, stored, ttl, ahead, hp, -⟩
    · exact .renewing hx hk hborn
    · rcases hend with ⟨answer, rfl⟩ | rfl <;> cases hp

end Stack

namespace TimeoutStack

def initial (now : Millis) (contents : ℕ → K → Option (Stored V × Option Millis)) :
    TimeoutStack K V T where
  stack := .initial now contents
  fetchedAt := fun _ => none
  storedAs := fun _ => none
  reached := fun _ => []
  timedOut := fun _ => none

/-- The value that the task fetched has been stored in every layer. -/
def isStored (cfg : Config) (s : TimeoutStack K V T) (i : ℕ) : Bool :=
  (s.storedAs i).any fun w => (List.range cfg.layers).all fun l => l ∈ s.reached w

variable [DecidableEq K]

def observe (s : TimeoutStack K V T) : Action K V T → TimeoutStack K V T
  | .get (.fetch i) => { s with fetchedAt := Function.update s.fetchedAt i (some s.stack.clock) }
  | .get (.fetched i (.store _ _)) =>
    if (s.stack.tasks i).all fun task =>
        s.stack.store.epochs.isWriteOutdated task.key task.fence then s
    else { s with storedAs := Function.update s.storedAs i (some s.stack.clock) }
  | .store (.land t m i) =>
    match s.stack.store.landing t m i with
    | some x => { s with reached := Function.update s.reached t (x.2.layer :: s.reached t) }
    | none => s
  | _ => s

variable [DecidableEq T]

def step (cfg : Config) (s : TimeoutStack K V T) :
    TimeoutAction K V T → Option (TimeoutStack K V T)
  | .stack a => (s.stack.step cfg a).map fun stack => { s.observe a with stack }
  | .timeout g => (s.stack.timeout cfg g).map fun stack => { s with
      stack := { stack with clock := s.stack.clock + 1 }
      timedOut :=
        match s.stack.releases g with
        | some i => Function.update s.timedOut i (some ⟨s.stack.clock, s.isStored cfg i⟩)
        | none => s.timedOut }

/-- The value stems from a fetch whose store, order `w`, has been fenced out: the fetch's fence is
outdated, and the order has not committed. -/
def Retracted (s : TimeoutStack K V T) (w born : ℕ) : Prop :=
  ∃ i < s.stack.clock, s.fetchedAt i = some born ∧ s.storedAs i = some w ∧
    ¬ s.stack.store.Committed w ∧
    ∃ task ∈ s.stack.tasks i, s.stack.store.epochs.isWriteOutdated task.key task.fence = true

/-- A write of a retracted value passes the check of its own fence. -/
def LetsThrough (s : TimeoutStack K V T) : TimeoutAction K V T → Prop
  | .stack (.store (.start t)) => ∃ o ∈ s.stack.store.orders t, ∃ st ∈ o.strands, ∃ p ∈ st.puts,
      s.stack.store.epochs.isWriteOutdated p.key (o.fence p.key) = false ∧
        ∃ w < s.stack.clock, s.Retracted w p.item.born
  | _ => False

/-- A renewed sliding TTL puts a retracted value where the cleanup of its store will not look
again. -/
def RenewsRetracted (s : TimeoutStack K V T) : TimeoutAction K V T → Prop
  | .stack (.get (.slide g)) => ∃ p ∈ s.stack.placing (.get (.slide g)), ∃ w < s.stack.clock,
      s.Retracted w p.item.born ∧ ¬ s.stack.store.InHand w p.layer p.key
  | _ => False

/-- Gets and timeouts in which no retracted value gets into a layer again. -/
structure KeepsRetracted (s : TimeoutStack K V T) (a : TimeoutAction K V T) : Prop where
  fetches : ∀ a', a = .stack a' → s.stack.OnlyFetches a'
  start : ¬ s.LetsThrough a
  slide : ¬ s.RenewsRetracted a

/-- What the value of a timed-out fetch does to the layers: it is gone when everything has settled,
unless it had been stored in every layer by then, and neither its late store nor the cleanup of
that touches the value of a retry that captured its fence after the timeout. -/
structure Isolated (cfg : Config) (s : TimeoutStack K V T) : Prop where
  gone : s.stack.Quiescent → ∀ i x born, s.timedOut i = some x → x.stored = false →
    s.fetchedAt i = some born → ∀ l < cfg.layers, ∀ k cell,
      s.stack.store.cells l k = some cell → cell.item.born ≠ born
  spared : ∀ i x task w a c, s.timedOut i = some x → s.stack.tasks i = some task →
    s.storedAs i = some w → (∃ m n, a = .land w m n ∨ a = .wipe w m n) →
    s.stack.storeChange a = some c → ∀ j retry born, s.stack.tasks j = some retry →
      retry.key = task.key → x.step < retry.captured → s.fetchedAt j = some born →
        ∀ l cell, s.stack.store.cells l task.key = some cell → cell.item.born = born →
          c.cells l task.key = some cell

instance (st : Strand K V) (l : ℕ) (k : K) : Decidable (st.Holds l k) :=
  match h : st.phase with
  | .writing active _ => decidable_of_iff (k ∈ active ∧ l ∈ st.sweep) (by simp [Strand.Holds, h])
  | .wiping todo => decidable_of_iff ((l, k) ∈ todo) (by simp [Strand.Holds, h])
  | .planned | .finished _ => isFalse (by simp [Strand.Holds, h])

instance (c : Store K V) (t l : ℕ) (k : K) : Decidable (c.InHand t l k) :=
  decidable_of_iff (∃ o ∈ c.orders t, ∃ st ∈ o.strands, st.Holds l k)
    ⟨fun ⟨o, ho, st, hst, hh⟩ => ⟨o, st, ho, hst, hh⟩,
      fun ⟨o, st, ho, hst, hh⟩ => ⟨o, ho, st, hst, hh⟩⟩

instance (s : TimeoutStack K V T) (w born : ℕ) : Decidable (s.Retracted w born) := by
  unfold Retracted
  infer_instance

instance (s : TimeoutStack K V T) : DecidablePred s.LetsThrough := fun a => by
  unfold LetsThrough
  split <;> infer_instance

instance (s : TimeoutStack K V T) : DecidablePred s.RenewsRetracted := fun a => by
  unfold RenewsRetracted
  split <;> infer_instance

instance (s : TimeoutStack K V T) (a : TimeoutAction K V T) :
    Decidable (∀ a', a = .stack a' → s.stack.OnlyFetches a') :=
  match a with
  | .stack a => decidable_of_iff (s.stack.OnlyFetches a) (by simp)
  | .timeout _ => isTrue (by simp)

instance (s : TimeoutStack K V T) : DecidablePred s.KeepsRetracted := fun a =>
  decidable_of_iff ((∀ a', a = .stack a' → s.stack.OnlyFetches a') ∧ ¬ s.LetsThrough a ∧
      ¬ s.RenewsRetracted a)
    ⟨fun ⟨hf, hl, hr⟩ => ⟨hf, hl, hr⟩, fun ⟨hf, hl, hr⟩ => ⟨hf, hl, hr⟩⟩

end TimeoutStack

end LayerCache
