import LayerCache.Store.Basic
import LayerCache.Transition.Run

/-! # Timeouts of background refreshes and disconnect

A stale read starts a refresh of its key unless there is one already. The refresh is a
promise of its own: a timer watches it, and `disconnect` waits for it for a while, but
neither the timer nor the abort flag that `disconnect` sets is looked at by the task on
its way from the stampede guard to the layers and the tag index. The flag is only read
before the task starts, when it has just been cleared, and where errors are counted.
-/

namespace LayerCache

open Transition

/-- How far the task of a refresh has come. A refresh that finds a task of another caller in the
stampede guard has joined that and fetches nothing itself. `tracked` is the fence that `storeEntry`
captures for the tag index. -/
inductive RefreshPhase
  | joined
  | waiting
  | fetching
  | queued (tracked : Fence)
  | storing (tracked : Fence) (todo : List ℕ)
  | indexing
  | over
deriving DecidableEq

/-- `pending` says that the promise has not settled, `retriable` that its task is run once more when
the coordinator fails, `timedOut` at which step its timer went off. -/
structure BackgroundRefresh (K : Type*) where
  key : K
  fence : Fence
  phase : RefreshPhase
  pending : Bool
  retriable : Bool
  timedOut : Option ℕ

inductive Place
  | layer (l : ℕ)
  | tagIndex
deriving DecidableEq

/-- A write of what a refresh has fetched, with the step at which it got through. -/
structure RefreshWrite where
  refresh : ℕ
  place : Place
  step : ℕ
deriving DecidableEq

/-- `degrades` says that there is a coordinator, and that its errors are degraded. -/
structure RefreshConfig where
  layers : ℕ
  writeBehind : ℕ → Bool
  degrades : Bool

/-- The refreshes of a stack go by the number of the step that started them. `writes` decides
nothing. -/
structure RefreshingStack (K : Type) where
  clock : ℕ
  epochs : Epochs K
  refreshes : ℕ → Option (BackgroundRefresh K)
  backgroundRefreshes : K → Option ℕ
  writeBehindQueue : List (ℕ × ℕ)
  isDisconnecting : Bool
  disconnected : Option ℕ
  writes : List RefreshWrite

namespace RefreshingStack

variable {K : Type} [DecidableEq K]

def initial : RefreshingStack K where
  clock := 1
  epochs := .initial
  refreshes := fun _ => none
  backgroundRefreshes := fun _ => none
  writeBehindQueue := []
  isDisconnecting := false
  disconnected := none
  writes := []

def putRefresh (s : RefreshingStack K) (g : ℕ) (r : BackgroundRefresh K) : RefreshingStack K :=
  { s with refreshes := Function.update s.refreshes g (some r) }

def invalidate (s : RefreshingStack K) : Target K → Option (RefreshingStack K)
  | .keys keys => some { s with epochs := s.epochs.bumpKeyEpochs keys }
  | .all => some { s with epochs := s.epochs.beginClearEpoch }

/-- A stale read wants a refresh. `joins` says that the stampede guard has a task of another
caller. -/
def scheduleBackgroundRefresh (cfg : RefreshConfig) (s : RefreshingStack K) (key : K)
    (joins : Bool) : Option (RefreshingStack K) :=
  if s.isDisconnecting || (s.backgroundRefreshes key).isSome then some s
  else
    some { s.putRefresh s.clock {
        key
        fence := s.epochs.fence key
        phase := if joins then .joined else .waiting
        pending := true
        retriable := cfg.degrades && !joins
        timedOut := none } with
      backgroundRefreshes := Function.update s.backgroundRefreshes key (some s.clock) }

/-- The fetcher is called. A rate limiter that has been disposed lets none through, whether there is
a limit or not. -/
def fetch (s : RefreshingStack K) (g : ℕ) : Option (RefreshingStack K) := do
  let r ← s.refreshes g
  match r.phase with
  | .waiting =>
    if s.disconnected.isSome then none
    else some (s.putRefresh g { r with phase := .fetching })
  | _ => none

/-- The task ends without a fetch: it finds a fresh entry, or it is refused, or it was another
caller's. -/
def skip (s : RefreshingStack K) (g : ℕ) : Option (RefreshingStack K) := do
  let r ← s.refreshes g
  match r.phase with
  | .waiting | .joined => some (s.putRefresh g { r with phase := .over })
  | _ => none

/-- The fetcher settles. What it yields may be something to store. -/
def fetched (s : RefreshingStack K) (g : ℕ) (stores : Bool) : Option (RefreshingStack K) := do
  let r ← s.refreshes g
  match r.phase with
  | .fetching =>
    some (s.putRefresh g { r with
      phase :=
        if stores && !s.epochs.isWriteOutdated r.key r.fence then .queued (s.epochs.fence r.key)
        else .over })
  | _ => none

/-- The writes that go to the queue, whatever has become of the others. -/
def deferred (cfg : RefreshConfig) (g : ℕ) : List (ℕ × ℕ) :=
  ((List.range cfg.layers).filter cfg.writeBehind).map fun l => (g, l)

/-- The turn of the write in the chain of its key: the fence is checked. -/
def start (cfg : RefreshConfig) (s : RefreshingStack K) (g : ℕ) : Option (RefreshingStack K) := do
  let r ← s.refreshes g
  match r.phase with
  | .queued tracked =>
    if s.epochs.isWriteOutdated r.key r.fence then
      some { s.putRefresh g { r with phase := .over } with
        writeBehindQueue := s.writeBehindQueue ++ deferred cfg g }
    else
      some (s.putRefresh g { r with
        phase := .storing tracked ((List.range cfg.layers).filter fun l => !cfg.writeBehind l) })
  | _ => none

def land (s : RefreshingStack K) (g n : ℕ) : Option (RefreshingStack K) := do
  let r ← s.refreshes g
  match r.phase with
  | .storing tracked todo => do
    let l ← todo[n]?
    some { s.putRefresh g { r with phase := .storing tracked (todo.eraseIdx n) } with
      writes := ⟨g, .layer l, s.clock⟩ :: s.writes }
  | _ => none

/-- The second look at the fence. A write that has gone through is recorded in the tag index, unless
the key has been invalidated since `storeEntry` was called. -/
def check (cfg : RefreshConfig) (s : RefreshingStack K) (g : ℕ) : Option (RefreshingStack K) := do
  let r ← s.refreshes g
  match r.phase with
  | .storing tracked [] =>
    some { s.putRefresh g { r with
        phase :=
          if s.epochs.isWriteOutdated r.key r.fence || s.epochs.isWriteOutdated r.key tracked then
            .over
          else .indexing } with
      writeBehindQueue := s.writeBehindQueue ++ deferred cfg g }
  | _ => none

def index (s : RefreshingStack K) (g : ℕ) : Option (RefreshingStack K) := do
  let r ← s.refreshes g
  match r.phase with
  | .indexing =>
    some { s.putRefresh g { r with phase := .over } with
      writes := ⟨g, .tagIndex, s.clock⟩ :: s.writes }
  | _ => none

/-- One write of the queue, under the fence of its refresh. -/
def flush (s : RefreshingStack K) (n : ℕ) : Option (RefreshingStack K) := do
  let (g, l) ← s.writeBehindQueue[n]?
  let r ← s.refreshes g
  some { s with
    writeBehindQueue := s.writeBehindQueue.eraseIdx n
    writes :=
      if s.epochs.isWriteOutdated r.key r.fence then s.writes
      else ⟨g, .layer l, s.clock⟩ :: s.writes }

/-- `finally`: the promise settles, and its slot is given up. -/
def release (s : RefreshingStack K) (g : ℕ) (r : BackgroundRefresh K) : RefreshingStack K :=
  { s.putRefresh g { r with pending := false } with
    backgroundRefreshes :=
      if s.backgroundRefreshes r.key = some g then
        Function.update s.backgroundRefreshes r.key none
      else s.backgroundRefreshes }

def settle (s : RefreshingStack K) (g : ℕ) : Option (RefreshingStack K) := do
  let r ← s.refreshes g
  if r.pending && decide (r.phase = .over) then some (s.release g r) else none

/-- The coordinator rejects, be it with the error of the task, and the task is run again. -/
def degrade (s : RefreshingStack K) (g : ℕ) : Option (RefreshingStack K) := do
  let r ← s.refreshes g
  if r.pending && r.retriable && decide (r.phase = .over) then
    some (s.putRefresh g { r with phase := .waiting, retriable := false })
  else none

/-- The stampede guard's entry times out: the promise rejects, and the key is fenced off. The task
goes on. -/
def releaseTimedOut (s : RefreshingStack K) (g : ℕ) : Option (RefreshingStack K) := do
  let r ← s.refreshes g
  if r.pending && decide (r.phase ≠ .over) then
    some { s.release g r with epochs := s.epochs.bumpKeyEpochs [r.key] }
  else none

/-- `backgroundRefreshTimeoutMs` have passed, and the promise has not settled. -/
def timeout (s : RefreshingStack K) (g : ℕ) : Option (RefreshingStack K) := do
  let r ← s.refreshes g
  if r.pending && r.timedOut.isNone then
    some (s.putRefresh g { r with timedOut := some s.clock })
  else none

def disconnect (s : RefreshingStack K) : Option (RefreshingStack K) :=
  some { s with isDisconnecting := true }

/-- Every refresh under way has settled or has been waited for long enough. -/
def resolve (s : RefreshingStack K) : Option (RefreshingStack K) :=
  if s.isDisconnecting && s.disconnected.isNone then some { s with disconnected := some s.clock }
  else none

inductive Action (K : Type*)
  | invalidate (target : Target K)
  | scheduleBackgroundRefresh (key : K) (joins : Bool)
  | fetch (g : ℕ)
  | skip (g : ℕ)
  | fetched (g : ℕ) (stores : Bool)
  | start (g : ℕ)
  | land (g n : ℕ)
  | check (g : ℕ)
  | index (g : ℕ)
  | flush (n : ℕ)
  | settle (g : ℕ)
  | degrade (g : ℕ)
  | releaseTimedOut (g : ℕ)
  | timeout (g : ℕ)
  | disconnect
  | resolve
deriving DecidableEq

def act (cfg : RefreshConfig) (s : RefreshingStack K) : Action K → Option (RefreshingStack K)
  | .invalidate target => s.invalidate target
  | .scheduleBackgroundRefresh key joins => s.scheduleBackgroundRefresh cfg key joins
  | .fetch g => s.fetch g
  | .skip g => s.skip g
  | .fetched g stores => s.fetched g stores
  | .start g => s.start cfg g
  | .land g n => s.land g n
  | .check g => s.check cfg g
  | .index g => s.index g
  | .flush n => s.flush n
  | .settle g => s.settle g
  | .degrade g => s.degrade g
  | .releaseTimedOut g => s.releaseTimedOut g
  | .timeout g => s.timeout g
  | .disconnect => s.disconnect
  | .resolve => s.resolve

def step (cfg : RefreshConfig) (s : RefreshingStack K) (a : Action K) :
    Option (RefreshingStack K) :=
  (s.act cfg a).map fun s' => { s' with clock := s.clock + 1 }

end RefreshingStack

/-- The task has no fetch under way and starts none by itself. -/
def RefreshPhase.isSilent : RefreshPhase → Bool
  | .joined | .over => true
  | _ => false

/-- The task has no fetch under way: once the rate limiter has been disposed, it starts none. -/
def RefreshPhase.isHeld (phase : RefreshPhase) : Bool :=
  phase.isSilent || decide (phase = .waiting)

namespace RefreshingStack

variable {K : Type}

/-- Timers go off, and the stack disconnects, when no fetch of theirs is under way and none of its
writes is queued; a refresh that has timed out is not run again; and the stampede guard does not
time out. -/
def Punctual (s : RefreshingStack K) : Action K → Prop
  | .timeout g =>
    (∀ r ∈ s.refreshes g, r.phase.isSilent = true) ∧ ∀ p ∈ s.writeBehindQueue, p.1 ≠ g
  | .resolve =>
    (∀ g < s.clock, ∀ r ∈ s.refreshes g, r.phase.isHeld = true) ∧ s.writeBehindQueue = []
  | .degrade g => ∀ r ∈ s.refreshes g, r.timedOut = none
  | .releaseTimedOut _ => False
  | _ => True

instance (s : RefreshingStack K) (a : Action K) : Decidable (Punctual s a) := by
  cases a <;> unfold Punctual <;> infer_instance

/-- A key has at most one refresh under way, its slot is held as long as the promise of its refresh
has not settled, which is after the fetch, and no fetch writes after its refresh has timed out or
the stack has disconnected. -/
structure StaysAborted (s : RefreshingStack K) : Prop where
  single : ∀ g g' r r', s.refreshes g = some r → s.refreshes g' = some r' → r.key = r'.key →
    r.phase ≠ .over → r'.phase ≠ .over → g = g'
  slot : ∀ g r, s.refreshes g = some r →
    (s.backgroundRefreshes r.key = some g ↔ r.pending = true) ∧
      (r.phase ≠ .over → r.pending = true)
  timedOut : ∀ w ∈ s.writes, ∀ r ∈ s.refreshes w.refresh, ∀ p ∈ r.timedOut, w.step < p
  disconnected : ∀ w ∈ s.writes, ∀ p ∈ s.disconnected, w.step < p

structure Inv (s : RefreshingStack K) : Prop where
  lt_clock : ∀ g r, s.refreshes g = some r → g < s.clock
  slot : ∀ key g, s.backgroundRefreshes key = some g →
    ∃ r, s.refreshes g = some r ∧ r.key = key ∧ r.pending = true
  held : ∀ g r, s.refreshes g = some r → r.pending = true → s.backgroundRefreshes r.key = some g
  pending : ∀ g r, s.refreshes g = some r → r.phase ≠ .over → r.pending = true
  timedOut : ∀ g r, s.refreshes g = some r → r.timedOut.isSome = true →
    r.phase.isSilent = true ∧ ∀ p ∈ s.writeBehindQueue, p.1 ≠ g
  disconnected : s.disconnected.isSome = true → s.isDisconnecting = true ∧
    s.writeBehindQueue = [] ∧ ∀ g r, s.refreshes g = some r → r.phase.isHeld = true
  writes : ∀ w ∈ s.writes, w.step < s.clock ∧
    (∀ r ∈ s.refreshes w.refresh, ∀ p ∈ r.timedOut, w.step < p) ∧
      ∀ p ∈ s.disconnected, w.step < p

theorem Inv.staysAborted {s : RefreshingStack K} (h : Inv s) : StaysAborted s where
  single := fun g g' r r' hr hr' hkey hphase hphase' => by
    have hslot := h.held g r hr (h.pending g r hr hphase)
    have hslot' := h.held g' r' hr' (h.pending g' r' hr' hphase')
    rw [hkey, hslot'] at hslot
    exact (Option.some.inj hslot).symm
  slot := fun g r hr => by
    refine ⟨⟨fun hslot => ?_, h.held g r hr⟩, h.pending g r hr⟩
    obtain ⟨r', hr', -, hpending⟩ := h.slot r.key g hslot
    obtain rfl : r = r' := Option.some.inj (hr.symm.trans hr')
    exact hpending
  timedOut := fun w hw => (h.writes w hw).2.1
  disconnected := fun w hw => (h.writes w hw).2.2

variable {cfg : RefreshConfig} {s s' : RefreshingStack K} {g : ℕ} {r : BackgroundRefresh K}

theorem inv_initial : Inv (initial : RefreshingStack K) where
  lt_clock := fun g r hr => by cases hr
  slot := fun key g hslot => by cases hslot
  held := fun g r hr => by cases hr
  pending := fun g r hr => by cases hr
  timedOut := fun g r hr => by cases hr
  disconnected := fun h => by cases h
  writes := fun w hw => by cases hw

theorem putRefresh_eq_some {r' r'' : BackgroundRefresh K} {g' : ℕ} :
    (s.putRefresh g r').refreshes g' = some r'' ↔
      g' = g ∧ r'' = r' ∨ g' ≠ g ∧ s.refreshes g' = some r'' := by
  by_cases heq : g' = g
  · subst heq
    simp [putRefresh, eq_comm]
  · simp [putRefresh, heq]

theorem Inv.timedOut_eq_none (h : Inv s) (hr : s.refreshes g = some r)
    (hactive : r.phase.isSilent = false) : r.timedOut = none := by
  by_contra hsome
  have hsilent := (h.timedOut g r hr (by simpa [Option.isSome_iff_ne_none] using hsome)).1
  rw [hactive] at hsilent
  cases hsilent

theorem Inv.disconnected_eq_none (h : Inv s) (hr : s.refreshes g = some r)
    (hactive : r.phase.isSilent = false) (hwaiting : r.phase ≠ .waiting) :
    s.disconnected = none := by
  by_contra hsome
  have hheld := (h.disconnected (by simpa [Option.isSome_iff_ne_none] using hsome)).2.2 g r hr
  simp [RefreshPhase.isHeld, hactive, hwaiting] at hheld

/-- A task moves on, from where it is under way with its fetch if it is to write or to queue
something. -/
theorem Inv.advance (h : Inv s) (hr : s.refreshes g = some r) (r' : BackgroundRefresh K)
    (queue : List (ℕ × ℕ)) (writes : List RefreshWrite) (hkey : r'.key = r.key)
    (hpending : r.pending = true) (hpending' : r'.pending = true)
    (htimedOut : r'.timedOut = r.timedOut)
    (hsilent : r.timedOut.isSome = true → r.phase.isSilent = true → r'.phase.isSilent = true)
    (hheld : s.disconnected.isSome = true → r.phase.isHeld = true → r'.phase.isHeld = true)
    (hqueue : ∀ p ∈ queue, p ∈ s.writeBehindQueue ∨
      p.1 = g ∧ r.phase.isSilent = false ∧ r.phase ≠ .waiting)
    (hwrites : ∀ w ∈ writes, w ∈ s.writes ∨
      w.refresh = g ∧ w.step = s.clock ∧ r.phase.isSilent = false ∧ r.phase ≠ .waiting) :
    Inv { s.putRefresh g r' with
      writeBehindQueue := queue
      writes
      clock := s.clock + 1 } := by
  constructor
  · intro g' r'' hr''
    obtain ⟨rfl, rfl⟩ | ⟨-, hr''⟩ := putRefresh_eq_some.mp hr''
    · exact Nat.lt_succ_of_lt (h.lt_clock _ r hr)
    · exact Nat.lt_succ_of_lt (h.lt_clock _ r'' hr'')
  · intro key g' hslot
    obtain ⟨r'', hr'', hkey'', hpending''⟩ := h.slot key g' hslot
    by_cases heq : g' = g
    · subst heq
      obtain rfl : r = r'' := Option.some.inj (hr.symm.trans hr'')
      exact ⟨r', putRefresh_eq_some.mpr (.inl ⟨rfl, rfl⟩), hkey.trans hkey'', hpending'⟩
    · exact ⟨r'', putRefresh_eq_some.mpr (.inr ⟨heq, hr''⟩), hkey'', hpending''⟩
  · intro g' r'' hr'' hpending''
    obtain ⟨rfl, rfl⟩ | ⟨-, hr''⟩ := putRefresh_eq_some.mp hr''
    · rw [hkey]
      exact h.held _ r hr hpending
    · exact h.held _ r'' hr'' hpending''
  · intro g' r'' hr'' hphase
    obtain ⟨rfl, rfl⟩ | ⟨-, hr''⟩ := putRefresh_eq_some.mp hr''
    · exact hpending'
    · exact h.pending _ r'' hr'' hphase
  · intro g' r'' hr'' htimer
    obtain ⟨rfl, rfl⟩ | ⟨hne, hr''⟩ := putRefresh_eq_some.mp hr''
    · rw [htimedOut] at htimer
      obtain ⟨hquiet, hnone⟩ := h.timedOut _ r hr htimer
      refine ⟨hsilent htimer hquiet, fun p hp => ?_⟩
      obtain hmem | ⟨-, hactive, -⟩ := hqueue p hp
      · exact hnone p hmem
      · rw [hquiet] at hactive
        cases hactive
    · obtain ⟨hquiet, hnone⟩ := h.timedOut _ r'' hr'' htimer
      refine ⟨hquiet, fun p hp => ?_⟩
      obtain hmem | ⟨heq, -⟩ := hqueue p hp
      · exact hnone p hmem
      · rw [heq]
        exact hne.symm
  · intro hdisconnected
    obtain ⟨hdisconnecting, hempty, hall⟩ := h.disconnected hdisconnected
    refine ⟨hdisconnecting, List.eq_nil_iff_forall_not_mem.mpr fun p hp => ?_,
      fun g' r'' hr'' => ?_⟩
    · obtain hmem | ⟨-, hactive, hwaiting⟩ := hqueue p hp
      · rw [hempty] at hmem
        cases hmem
      · have hnone := h.disconnected_eq_none hr hactive hwaiting
        change s.disconnected.isSome = true at hdisconnected
        simp [hnone] at hdisconnected
    · obtain ⟨rfl, rfl⟩ | ⟨-, hr''⟩ := putRefresh_eq_some.mp hr''
      · exact hheld hdisconnected (hall _ r hr)
      · exact hall _ r'' hr''
  · intro w hw
    obtain hmem | ⟨rfl, hstep, hactive, hwaiting⟩ := hwrites w hw
    · obtain ⟨hlt, htimer, hdisconnected⟩ := h.writes w hmem
      refine ⟨Nat.lt_succ_of_lt hlt, fun r'' hr'' => ?_, hdisconnected⟩
      obtain ⟨heq, rfl⟩ | ⟨-, hr''⟩ := putRefresh_eq_some.mp hr''
      · rw [htimedOut]
        exact htimer r (heq ▸ hr)
      · exact htimer r'' hr''
    · refine ⟨by rw [hstep]; exact Nat.lt_succ_self _, fun r'' hr'' p hp => ?_, fun p hp => ?_⟩
      · obtain ⟨-, rfl⟩ | ⟨hne, -⟩ := putRefresh_eq_some.mp hr''
        · have hnone := h.timedOut_eq_none hr hactive
          simp only [Option.mem_def] at hp
          rw [htimedOut, hnone] at hp
          cases hp
        · exact absurd rfl hne
      · have hnone := h.disconnected_eq_none hr hactive hwaiting
        change p ∈ s.disconnected at hp
        rw [hnone] at hp
        cases hp

theorem Inv.tick (h : Inv s) (epochs : Epochs K) :
    Inv { s with epochs, clock := s.clock + 1 } where
  lt_clock := fun g r hr => Nat.lt_succ_of_lt (h.lt_clock g r hr)
  slot := h.slot
  held := h.held
  pending := h.pending
  timedOut := h.timedOut
  disconnected := h.disconnected
  writes := fun w hw => ⟨Nat.lt_succ_of_lt (h.writes w hw).1, (h.writes w hw).2⟩

section

variable [DecidableEq K]

theorem Inv.scheduleBackgroundRefresh (h : Inv s) {key : K} {joins : Bool}
    (hstep : s.scheduleBackgroundRefresh cfg key joins = some s') :
    Inv { s' with clock := s.clock + 1 } := by
  unfold RefreshingStack.scheduleBackgroundRefresh at hstep
  split at hstep
  next =>
    cases hstep
    exact h.tick s.epochs
  next hrefused =>
    cases hstep
    obtain ⟨hconnected, hfree⟩ : s.isDisconnecting = false ∧ s.backgroundRefreshes key = none := by
      simpa using hrefused
    have hfresh : ∀ g r, s.refreshes g = some r → g ≠ s.clock := fun g r hr =>
      (h.lt_clock g r hr).ne
    have hother : ∀ key' g, s.backgroundRefreshes key' = some g → key' ≠ key := by
      rintro key' g hslot rfl
      rw [hfree] at hslot
      cases hslot
    constructor
    · intro g r hr
      obtain ⟨rfl, -⟩ | ⟨-, hr⟩ := putRefresh_eq_some.mp hr
      · exact Nat.lt_succ_self _
      · exact Nat.lt_succ_of_lt (h.lt_clock g r hr)
    · intro key' g hslot
      by_cases heq : key' = key
      · subst heq
        simp only [Function.update_self, Option.some.injEq] at hslot
        exact ⟨_, putRefresh_eq_some.mpr (.inl ⟨hslot.symm, rfl⟩), rfl, rfl⟩
      · simp only [Function.update_of_ne heq] at hslot
        obtain ⟨r, hr, hkey, hpending⟩ := h.slot key' g hslot
        exact ⟨r, putRefresh_eq_some.mpr (.inr ⟨hfresh g r hr, hr⟩), hkey, hpending⟩
    · intro g r hr hpending
      obtain ⟨rfl, rfl⟩ | ⟨-, hr⟩ := putRefresh_eq_some.mp hr
      · exact Function.update_self ..
      · have hslot := h.held g r hr hpending
        exact (Function.update_of_ne (hother _ g hslot) _ _).trans hslot
    · intro g r hr hphase
      obtain ⟨rfl, rfl⟩ | ⟨-, hr⟩ := putRefresh_eq_some.mp hr
      · rfl
      · exact h.pending g r hr hphase
    · intro g r hr htimedOut
      obtain ⟨rfl, rfl⟩ | ⟨-, hr⟩ := putRefresh_eq_some.mp hr
      · cases htimedOut
      · exact h.timedOut g r hr htimedOut
    · intro hdisconnected
      have hdisconnecting := (h.disconnected hdisconnected).1
      rw [hconnected] at hdisconnecting
      cases hdisconnecting
    · intro w hw
      obtain ⟨hlt, htimedOut, hdisconnected⟩ := h.writes w hw
      refine ⟨Nat.lt_succ_of_lt hlt, fun r hr p hp => ?_, hdisconnected⟩
      obtain ⟨-, rfl⟩ | ⟨-, hr⟩ := putRefresh_eq_some.mp hr
      · cases hp
      · exact htimedOut r hr p hp

theorem Inv.settle (h : Inv s) (hstep : s.settle g = some s') :
    Inv { s' with clock := s.clock + 1 } := by
  simp only [RefreshingStack.settle, Option.bind_eq_bind, Option.bind_eq_some_iff] at hstep
  obtain ⟨r, hr, hstep⟩ := hstep
  split_ifs at hstep with hover
  cases hstep
  obtain ⟨hpending, hphase⟩ : r.pending = true ∧ r.phase = .over := by simpa using hover
  have hheld := h.held g r hr hpending
  have hslots : (s.release g r).backgroundRefreshes =
      Function.update s.backgroundRefreshes r.key none := if_pos hheld
  constructor
  · intro g' r' hr'
    obtain ⟨rfl, -⟩ | ⟨-, hr'⟩ := putRefresh_eq_some.mp hr'
    · exact Nat.lt_succ_of_lt (h.lt_clock _ r hr)
    · exact Nat.lt_succ_of_lt (h.lt_clock _ r' hr')
  · intro key g' hslot
    change (s.release g r).backgroundRefreshes key = some g' at hslot
    rw [hslots] at hslot
    by_cases heq : key = r.key
    · subst heq
      simp at hslot
    · rw [Function.update_of_ne heq] at hslot
      obtain ⟨r', hr', hkey, hpending'⟩ := h.slot key g' hslot
      refine ⟨r', putRefresh_eq_some.mpr (.inr ⟨?_, hr'⟩), hkey, hpending'⟩
      rintro rfl
      obtain rfl : r = r' := Option.some.inj (hr.symm.trans hr')
      exact heq hkey.symm
  · intro g' r' hr' hpending'
    obtain ⟨rfl, rfl⟩ | ⟨hne, hr'⟩ := putRefresh_eq_some.mp hr'
    · cases hpending'
    · change (s.release g r).backgroundRefreshes r'.key = some g'
      have hslot := h.held g' r' hr' hpending'
      have hkey : r'.key ≠ r.key := by
        intro heq
        rw [heq, hheld] at hslot
        exact hne (Option.some.inj hslot).symm
      rw [hslots, Function.update_of_ne hkey, hslot]
  · intro g' r' hr' hphase'
    obtain ⟨rfl, rfl⟩ | ⟨-, hr'⟩ := putRefresh_eq_some.mp hr'
    · exact absurd hphase hphase'
    · exact h.pending g' r' hr' hphase'
  · intro g' r' hr' htimedOut
    obtain ⟨rfl, rfl⟩ | ⟨-, hr'⟩ := putRefresh_eq_some.mp hr'
    · exact h.timedOut _ r hr htimedOut
    · exact h.timedOut g' r' hr' htimedOut
  · intro hdisconnected
    obtain ⟨hdisconnecting, hempty, hall⟩ := h.disconnected hdisconnected
    refine ⟨hdisconnecting, hempty, fun g' r' hr' => ?_⟩
    obtain ⟨rfl, rfl⟩ | ⟨-, hr'⟩ := putRefresh_eq_some.mp hr'
    · exact hall _ r hr
    · exact hall g' r' hr'
  · intro w hw
    obtain ⟨hlt, htimedOut, hdisconnected⟩ := h.writes w hw
    refine ⟨Nat.lt_succ_of_lt hlt, fun r' hr' => ?_, hdisconnected⟩
    obtain ⟨heq, rfl⟩ | ⟨-, hr'⟩ := putRefresh_eq_some.mp hr'
    · exact htimedOut r (heq ▸ hr)
    · exact htimedOut r' hr'

end

theorem Inv.timeout (h : Inv s) (hpunctual : Punctual s (.timeout g))
    (hstep : s.timeout g = some s') : Inv { s' with clock := s.clock + 1 } := by
  simp only [RefreshingStack.timeout, Option.bind_eq_bind, Option.bind_eq_some_iff] at hstep
  obtain ⟨r, hr, hstep⟩ := hstep
  split_ifs at hstep with hpending
  cases hstep
  constructor
  · intro g' r' hr'
    obtain ⟨rfl, -⟩ | ⟨-, hr'⟩ := putRefresh_eq_some.mp hr'
    · exact Nat.lt_succ_of_lt (h.lt_clock _ r hr)
    · exact Nat.lt_succ_of_lt (h.lt_clock _ r' hr')
  · intro key g' hslot
    obtain ⟨r', hr', hkey, hpending'⟩ := h.slot key g' hslot
    by_cases heq : g' = g
    · subst heq
      obtain rfl : r = r' := Option.some.inj (hr.symm.trans hr')
      exact ⟨_, putRefresh_eq_some.mpr (.inl ⟨rfl, rfl⟩), hkey, hpending'⟩
    · exact ⟨r', putRefresh_eq_some.mpr (.inr ⟨heq, hr'⟩), hkey, hpending'⟩
  · intro g' r' hr' hpending'
    obtain ⟨rfl, rfl⟩ | ⟨-, hr'⟩ := putRefresh_eq_some.mp hr'
    · exact h.held _ r hr hpending'
    · exact h.held g' r' hr' hpending'
  · intro g' r' hr' hphase'
    obtain ⟨rfl, rfl⟩ | ⟨-, hr'⟩ := putRefresh_eq_some.mp hr'
    · exact h.pending _ r hr hphase'
    · exact h.pending g' r' hr' hphase'
  · intro g' r' hr' htimedOut
    obtain ⟨rfl, rfl⟩ | ⟨-, hr'⟩ := putRefresh_eq_some.mp hr'
    · exact ⟨hpunctual.1 r hr, hpunctual.2⟩
    · exact h.timedOut g' r' hr' htimedOut
  · intro hdisconnected
    obtain ⟨hdisconnecting, hempty, hall⟩ := h.disconnected hdisconnected
    refine ⟨hdisconnecting, hempty, fun g' r' hr' => ?_⟩
    obtain ⟨rfl, rfl⟩ | ⟨-, hr'⟩ := putRefresh_eq_some.mp hr'
    · exact hall _ r hr
    · exact hall g' r' hr'
  · intro w hw
    obtain ⟨hlt, htimedOut, hdisconnected⟩ := h.writes w hw
    refine ⟨Nat.lt_succ_of_lt hlt, fun r' hr' p hp => ?_, hdisconnected⟩
    obtain ⟨-, rfl⟩ | ⟨-, hr'⟩ := putRefresh_eq_some.mp hr'
    · cases hp
      exact hlt
    · exact htimedOut r' hr' p hp

theorem Inv.resolve (h : Inv s) (hpunctual : Punctual s .resolve)
    (hstep : s.resolve = some s') : Inv { s' with clock := s.clock + 1 } := by
  unfold RefreshingStack.resolve at hstep
  split_ifs at hstep with hdisconnecting
  cases hstep
  simp only [Bool.and_eq_true] at hdisconnecting
  have htick := h.tick s.epochs
  refine ⟨htick.lt_clock, h.slot, h.held, h.pending, h.timedOut, fun _ => ?_, fun w hw => ?_⟩
  · exact ⟨hdisconnecting.1, hpunctual.2, fun g r hr => hpunctual.1 g (h.lt_clock g r hr) r hr⟩
  · obtain ⟨hlt, htimedOut, -⟩ := h.writes w hw
    refine ⟨Nat.lt_succ_of_lt hlt, htimedOut, fun p hp => ?_⟩
    cases hp
    exact hlt

theorem Inv.fetch (h : Inv s) (hstep : s.fetch g = some s') :
    Inv { s' with clock := s.clock + 1 } := by
  simp only [RefreshingStack.fetch, Option.bind_eq_bind, Option.bind_eq_some_iff] at hstep
  obtain ⟨r, hr, hstep⟩ := hstep
  split at hstep
  next hphase =>
    split_ifs at hstep with hdisposed
    cases hstep
    have hpending := h.pending g r hr (by simp [hphase])
    refine h.advance hr { r with phase := .fetching } s.writeBehindQueue s.writes rfl hpending
      hpending rfl (by simp [hphase, RefreshPhase.isSilent]) (fun hdisconnected => ?_)
      (fun p hp => .inl hp) fun w hw => .inl hw
    exact absurd hdisconnected hdisposed
  next => cases hstep

theorem Inv.skip (h : Inv s) (hstep : s.skip g = some s') :
    Inv { s' with clock := s.clock + 1 } := by
  simp only [RefreshingStack.skip, Option.bind_eq_bind, Option.bind_eq_some_iff] at hstep
  obtain ⟨r, hr, hstep⟩ := hstep
  split at hstep
  next hphase =>
    cases hstep
    have hpending := h.pending g r hr (by simp [hphase])
    exact h.advance hr { r with phase := .over } s.writeBehindQueue s.writes rfl hpending
      hpending rfl (fun _ _ => rfl) (fun _ _ => rfl) (fun p hp => .inl hp) fun w hw => .inl hw
  next hphase =>
    cases hstep
    have hpending := h.pending g r hr (by simp [hphase])
    exact h.advance hr { r with phase := .over } s.writeBehindQueue s.writes rfl hpending
      hpending rfl (fun _ _ => rfl) (fun _ _ => rfl) (fun p hp => .inl hp) fun w hw => .inl hw
  next => cases hstep

/-- A task that is run again waits for its fetch, which a rate limiter that has been disposed does
not let through. -/
theorem Inv.degrade (h : Inv s) (hpunctual : Punctual s (.degrade g))
    (hstep : s.degrade g = some s') : Inv { s' with clock := s.clock + 1 } := by
  simp only [RefreshingStack.degrade, Option.bind_eq_bind, Option.bind_eq_some_iff] at hstep
  obtain ⟨r, hr, hstep⟩ := hstep
  split_ifs at hstep with hretried
  cases hstep
  obtain ⟨⟨hpending, -⟩, -⟩ : (r.pending = true ∧ r.retriable = true) ∧ r.phase = .over := by
    simpa using hretried
  have hnone : r.timedOut = none := hpunctual r hr
  exact h.advance hr { r with phase := .waiting, retriable := false } s.writeBehindQueue s.writes
    rfl hpending hpending rfl (by simp [hnone]) (fun _ _ => rfl) (fun p hp => .inl hp)
    fun w hw => .inl hw

theorem Inv.proceed (h : Inv s) (hr : s.refreshes g = some r)
    (hactive : r.phase.isSilent = false) (hwaiting : r.phase ≠ .waiting) (phase : RefreshPhase)
    {queue : List (ℕ × ℕ)} {writes : List RefreshWrite}
    (hqueue : ∀ p ∈ queue, p ∈ s.writeBehindQueue ∨ p.1 = g)
    (hwrites : ∀ w ∈ writes, w ∈ s.writes ∨ w.refresh = g ∧ w.step = s.clock) :
    Inv { s.putRefresh g { r with phase } with
      writeBehindQueue := queue
      writes
      clock := s.clock + 1 } := by
  have hpending : r.pending = true := by
    apply h.pending g r hr
    rintro hover
    simp [hover, RefreshPhase.isSilent] at hactive
  apply h.advance hr { r with phase } queue writes rfl hpending hpending rfl
  · intro _ hsilent
    rw [hactive] at hsilent
    cases hsilent
  · intro _ hheld
    simp [RefreshPhase.isHeld, hactive, hwaiting] at hheld
  · exact fun p hp => (hqueue p hp).imp_right fun heq => ⟨heq, hactive, hwaiting⟩
  · exact fun w hw => (hwrites w hw).imp_right fun ⟨heq, hstep⟩ => ⟨heq, hstep, hactive, hwaiting⟩

theorem mem_queue_append {queue : List (ℕ × ℕ)} {p : ℕ × ℕ} (h : p ∈ queue ++ deferred cfg g) :
    p ∈ queue ∨ p.1 = g := by
  obtain hmem | hmem := List.mem_append.mp h
  · exact .inl hmem
  · obtain ⟨l, -, rfl⟩ := List.mem_map.mp hmem
    exact .inr rfl

theorem mem_writes_cons {writes : List RefreshWrite} {place : Place} {n : ℕ} {w : RefreshWrite}
    (h : w ∈ ⟨g, place, n⟩ :: writes) : w ∈ writes ∨ w.refresh = g ∧ w.step = n := by
  obtain rfl | hmem := List.mem_cons.mp h
  · exact .inr ⟨rfl, rfl⟩
  · exact .inl hmem

variable [DecidableEq K]

theorem Inv.fetched (h : Inv s) {stores : Bool} (hstep : s.fetched g stores = some s') :
    Inv { s' with clock := s.clock + 1 } := by
  simp only [RefreshingStack.fetched, Option.bind_eq_bind, Option.bind_eq_some_iff] at hstep
  obtain ⟨r, hr, hstep⟩ := hstep
  split at hstep
  next hphase =>
    cases hstep
    exact h.proceed hr (by simp [hphase, RefreshPhase.isSilent]) (by simp [hphase]) _
      (fun p hp => .inl hp) fun w hw => .inl hw
  next => cases hstep

theorem Inv.start (h : Inv s) (hstep : s.start cfg g = some s') :
    Inv { s' with clock := s.clock + 1 } := by
  simp only [RefreshingStack.start, Option.bind_eq_bind, Option.bind_eq_some_iff] at hstep
  obtain ⟨r, hr, hstep⟩ := hstep
  split at hstep
  next tracked hphase =>
    have hactive : r.phase.isSilent = false := by simp [hphase, RefreshPhase.isSilent]
    split_ifs at hstep
    · cases hstep
      exact h.proceed hr hactive (by simp [hphase]) _ (fun p hp => mem_queue_append hp)
        fun w hw => .inl hw
    · cases hstep
      exact h.proceed hr hactive (by simp [hphase]) _ (fun p hp => .inl hp) fun w hw => .inl hw
  next => cases hstep

omit [DecidableEq K] in
theorem Inv.land (h : Inv s) {n : ℕ} (hstep : s.land g n = some s') :
    Inv { s' with clock := s.clock + 1 } := by
  simp only [RefreshingStack.land, Option.bind_eq_bind, Option.bind_eq_some_iff] at hstep
  obtain ⟨r, hr, hstep⟩ := hstep
  split at hstep
  next tracked todo hphase =>
    simp only [Option.bind_eq_some_iff] at hstep
    obtain ⟨l, -, hstep⟩ := hstep
    cases hstep
    exact h.proceed hr (by simp [hphase, RefreshPhase.isSilent]) (by simp [hphase]) _
      (fun p hp => .inl hp) fun w hw => mem_writes_cons hw
  next => cases hstep

theorem Inv.check (h : Inv s) (hstep : s.check cfg g = some s') :
    Inv { s' with clock := s.clock + 1 } := by
  simp only [RefreshingStack.check, Option.bind_eq_bind, Option.bind_eq_some_iff] at hstep
  obtain ⟨r, hr, hstep⟩ := hstep
  split at hstep
  next tracked hphase =>
    cases hstep
    exact h.proceed hr (by simp [hphase, RefreshPhase.isSilent]) (by simp [hphase]) _
      (fun p hp => mem_queue_append hp) fun w hw => .inl hw
  next => cases hstep

omit [DecidableEq K] in
theorem Inv.index (h : Inv s) (hstep : s.index g = some s') :
    Inv { s' with clock := s.clock + 1 } := by
  simp only [RefreshingStack.index, Option.bind_eq_bind, Option.bind_eq_some_iff] at hstep
  obtain ⟨r, hr, hstep⟩ := hstep
  split at hstep
  next hphase =>
    cases hstep
    exact h.proceed hr (by simp [hphase, RefreshPhase.isSilent]) (by simp [hphase]) _
      (fun p hp => .inl hp) fun w hw => mem_writes_cons hw
  next => cases hstep

/-- What is queued belongs to a refresh that has not timed out, on a stack that has not
disconnected. -/
theorem Inv.flush (h : Inv s) {n : ℕ} (hstep : s.flush n = some s') :
    Inv { s' with clock := s.clock + 1 } := by
  simp only [RefreshingStack.flush, Option.bind_eq_bind, Option.bind_eq_some_iff] at hstep
  obtain ⟨⟨g, l⟩, hqueued, r, hr, hstep⟩ := hstep
  cases hstep
  have hmem : (g, l) ∈ s.writeBehindQueue := List.mem_of_getElem? hqueued
  have hsub := (List.eraseIdx_sublist s.writeBehindQueue n).subset
  have htick := h.tick s.epochs
  refine ⟨htick.lt_clock, h.slot, h.held, h.pending, fun g r hr htimedOut => ?_,
    fun hdisconnected => ?_, fun w hw => ?_⟩
  · obtain ⟨hsilent, hnone⟩ := h.timedOut g r hr htimedOut
    exact ⟨hsilent, fun p hp => hnone p (hsub hp)⟩
  · have hempty := (h.disconnected hdisconnected).2.1
    rw [hempty] at hmem
    cases hmem
  · have hwrite : w ∈ s.writes ∨ w.refresh = g ∧ w.step = s.clock := by
      change w ∈ (if _ then _ else _) at hw
      split at hw
      · exact .inl hw
      · exact mem_writes_cons hw
    obtain hold | ⟨hrefresh, hclock⟩ := hwrite
    · exact htick.writes w hold
    · refine ⟨by rw [hclock]; exact Nat.lt_succ_self _, fun r' hr' p hp => ?_, fun p hp => ?_⟩
      · rw [hrefresh] at hr'
        have hnone := (h.timedOut g r' hr' (Option.isSome_of_mem hp)).2
        exact absurd rfl (hnone _ hmem)
      · have hempty := (h.disconnected (Option.isSome_of_mem hp)).2.1
        rw [hempty] at hmem
        cases hmem

theorem inv_step {a : Action K} (h : Inv s) (hpunctual : Punctual s a)
    (hstep : step cfg s a = some s') : Inv s' := by
  obtain ⟨s₁, hact, rfl⟩ := Option.map_eq_some_iff.mp hstep
  cases a with
  | invalidate target => cases target <;> cases hact <;> exact h.tick _
  | scheduleBackgroundRefresh key joins => exact h.scheduleBackgroundRefresh hact
  | fetch g => exact h.fetch hact
  | skip g => exact h.skip hact
  | fetched g stores => exact h.fetched hact
  | start g => exact h.start hact
  | land g n => exact h.land hact
  | check g => exact h.check hact
  | index g => exact h.index hact
  | flush n => exact h.flush hact
  | settle g => exact h.settle hact
  | degrade g => exact h.degrade hpunctual hact
  | releaseTimedOut g => exact hpunctual.elim
  | timeout g => exact h.timeout hpunctual hact
  | disconnect =>
    cases hact
    have htick := h.tick s.epochs
    exact ⟨htick.lt_clock, h.slot, h.held, h.pending, h.timedOut,
      fun hdisconnected => ⟨rfl, (h.disconnected hdisconnected).2⟩, htick.writes⟩
  | resolve => exact h.resolve hpunctual hact

/-- While timers and `disconnect` are punctual, aborted refreshes stay aborted. -/
theorem staysAborted_of_punctual (cfg : RefreshConfig) (s : RefreshingStack K)
    (hrun : Reaches (step cfg) Punctual initial s) : StaysAborted s :=
  (hrun.invariant (fun _ _ _ h hpunctual hstep => inv_step h hpunctual hstep)
    inv_initial).staysAborted

/-- One memory layer, and a coordinator whose errors are degraded. -/
def oneLayer : RefreshConfig := ⟨1, fun _ => false, true⟩

/-- The coordinator fails with the first fetch of a refresh. The second one stores its value before
the stack disconnects; the timer of a refresh that has joined another caller's task goes off. -/
theorem staysAborted_of_punctual_at_disconnect :
    ∃ s : RefreshingStack ℕ, s.disconnected = some 17 ∧ s.backgroundRefreshes 0 = none ∧
      s.writes = [⟨1, .tagIndex, 13⟩, ⟨1, .layer 0, 11⟩] ∧ StaysAborted s := by
  obtain ⟨s, hs, hdisconnected, hslot, hwrites⟩ : ∃ s ∈ run (step oneLayer) initial
      [.scheduleBackgroundRefresh 0 false, .fetch 1, .scheduleBackgroundRefresh 1 true,
        .scheduleBackgroundRefresh 0 false, .fetched 1 false, .degrade 1, .fetch 1, .timeout 3,
        .fetched 1 true, .start 1, .land 1 0, .check 1, .index 1, .settle 1, .skip 3, .disconnect,
        .resolve],
      s.disconnected = some 17 ∧ s.backgroundRefreshes 0 = none ∧
        s.writes = [⟨1, .tagIndex, 13⟩, ⟨1, .layer 0, 11⟩] := by
    decide +kernel
  exact ⟨s, hdisconnected, hslot, hwrites,
    staysAborted_of_punctual oneLayer s (reaches_of_run _ hs (by decide +kernel))⟩

/-- A fetcher that takes longer than the timeout of its refresh still has its value stored. -/
theorem timedOut_refresh_writes :
    ∃ s : RefreshingStack ℕ, Reaches (step oneLayer) (fun _ _ => True) initial s ∧
      ¬StaysAborted s := by
  obtain ⟨s, hs, w, hw, r, hr, p, hp, hle⟩ : ∃ s ∈ run (step oneLayer) initial
      [.scheduleBackgroundRefresh 0 false, .fetch 1, .timeout 1, .fetched 1 true, .start 1,
        .land 1 0],
      ∃ w ∈ s.writes, ∃ r ∈ s.refreshes w.refresh, ∃ p ∈ r.timedOut, p ≤ w.step := by
    decide +kernel
  exact ⟨s, reaches_of_run _ hs (by decide +kernel), fun h =>
    absurd (h.timedOut w hw r hr p hp) (not_lt.mpr hle)⟩

end RefreshingStack

end LayerCache
