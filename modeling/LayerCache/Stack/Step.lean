import LayerCache.Stack.Get
import LayerCache.Stack.Invalidate
import LayerCache.Transition.Run

/-! # The steps of a stack

The actions are the atomic steps between two awaits and the moments at which layer
operations take effect. Any interleaving of any number of operations is a list of
actions.
-/

namespace LayerCache

variable {K V T : Type}

inductive StoreAction
  | tick (d : Millis)
  | start (order : ℕ)
  | land (order strand i : ℕ)
  | check (order strand : ℕ)
  | wipe (order strand i : ℕ)
  | settle (order : ℕ)
  | erase (removal i : ℕ)
deriving DecidableEq

inductive FaultAction
  | degrade (layer : ℕ)
  | recover (layer : ℕ)
  | landFail (order strand i : ℕ)
  | wipeFail (order strand i : ℕ)
  | eraseFail (removal i : ℕ)
  | loadFail (reader : ℕ)
  | failRead (reader : ℕ)
  | slideFail (get : ℕ)
deriving DecidableEq

inductive ReadAction (K : Type)
  | read (key : K)
  | load (reader : ℕ)
  | resume (reader : ℕ)
  | purge (reader : ℕ)
  | backfill (reader : ℕ) (ttls : ℕ → Option Millis)
  | refuse (reader : ℕ)
  | backfilled (reader : ℕ)
  | unindex (reader : ℕ)

inductive WriteAction (K V T : Type)
  | set (key : K) (write : WriteValue V) (tags : Option (List T))
  | mset (entries : List (Entry K T × WriteValue V))
  | enqueue (writer : ℕ)
  | verify (writer : ℕ)
  | track (writer : ℕ)
  | announce (writer : ℕ)
  | flush
  | flushNext

inductive InvalidateAction (K : Type)
  | delete (keys : List K) (operation : Operation)
  | clear
  | handle (message : Message K)
  | bump (invalidation : ℕ)
  | removed (invalidation : ℕ)
  | forget (invalidation : ℕ)
  | publish (invalidation : ℕ)
deriving DecidableEq

inductive GetAction (K V T : Type)
  | get (key : K) (options : GetOptions)
  | conclude (get : ℕ)
  | slide (get : ℕ)
  | enter (get : ℕ)
  | leave (get : ℕ)
  | recheck (task : ℕ)
  | rechecked (task : ℕ)
  | fetch (task : ℕ)
  | fetched (task : ℕ) (outcome : Outcome V T)
  | stored (task : ℕ)
  | giveUp (task : ℕ)
  | settle (task : ℕ)

inductive Action (K V T : Type)
  | store (a : StoreAction)
  | fault (a : FaultAction)
  | read (a : ReadAction K)
  | write (a : WriteAction K V T)
  | invalidate (a : InvalidateAction K)
  | get (a : GetAction K V T)

namespace Stack

section

variable [DecidableEq K]

def storeChange (s : Stack K V T) : StoreAction → Option (Store K V)
  | .tick d => if 0 ≤ d then some (s.store.tick d) else none
  | .start t => s.store.start s.degraded t
  | .land t n i => s.store.land t n i
  | .check t n => s.store.check t n
  | .wipe t n i => s.store.wipe t n i
  | .settle t => s.store.settle t
  | .erase b i => s.store.erase b i

def storeStep (s : Stack K V T) (a : StoreAction) : Option (Stack K V T) :=
  (s.storeChange a).map fun store => { s with store }

def faultStep (s : Stack K V T) : FaultAction → Option (Stack K V T)
  | .degrade l => some { s with degraded := Function.update s.degraded l true }
  | .recover l => some { s with degraded := Function.update s.degraded l false }
  | .landFail t n i => (s.store.landFail t n i).map fun store => { s with store }
  | .wipeFail t n i => (s.store.wipeFail t n i).map fun store => { s with store }
  | .eraseFail b i => (s.store.eraseFail b i).map fun store => { s with store }
  | .loadFail r => s.loadFail r
  | .failRead r => s.failRead r
  | .slideFail g => s.slideFail g

variable [DecidableEq T]

def readStep (cfg : Config) (s : Stack K V T) : ReadAction K → Option (Stack K V T)
  | .read key => s.read key
  | .load r => s.load r
  | .resume r => s.resume cfg r
  | .purge r => s.purge cfg r
  | .backfill r ttls => s.backfill r ttls
  | .refuse r => s.refuse r
  | .backfilled r => s.backfilled r
  | .unindex r => s.unindex r

def writeStep (cfg : Config) (s : Stack K V T) : WriteAction K V T → Option (Stack K V T)
  | .set key write tags => s.set cfg key write tags
  | .mset entries => s.mset cfg entries
  | .enqueue w => s.enqueue w
  | .verify w => s.verify w
  | .track w => s.track w
  | .announce w => s.announce cfg w
  | .flush => s.flush cfg
  | .flushNext => s.flushNext

def invalidateStep (cfg : Config) (s : Stack K V T) : InvalidateAction K → Option (Stack K V T)
  | .delete keys operation => s.delete keys operation
  | .clear => s.clear
  | .handle message => s.handle message
  | .bump d => s.bump cfg d
  | .removed d => s.removed d
  | .forget d => s.forget d
  | .publish d => s.publish d

def getStep (cfg : Config) (s : Stack K V T) : GetAction K V T → Option (Stack K V T)
  | .get key options => s.get key options
  | .conclude g => s.conclude g
  | .slide g => s.slide g
  | .enter g => s.enter cfg g
  | .leave g => s.leave g
  | .recheck i => s.recheck cfg i
  | .rechecked i => s.rechecked i
  | .fetch i => s.fetch cfg i
  | .fetched i outcome => s.fetched cfg i outcome
  | .stored i => s.stored i
  | .giveUp i => s.giveUp i
  | .settle i => s.settleTask i

def act (cfg : Config) (s : Stack K V T) : Action K V T → Option (Stack K V T)
  | .store a => s.storeStep a
  | .fault a => s.faultStep a
  | .read a => s.readStep cfg a
  | .write a => s.writeStep cfg a
  | .invalidate a => s.invalidateStep cfg a
  | .get a => s.getStep cfg a

def step (cfg : Config) (s : Stack K V T) (a : Action K V T) : Option (Stack K V T) :=
  (s.act cfg a).map fun s' => { s' with clock := s.clock + 1 }

end

section

variable [DecidableEq K] {cfg : Config} {s s' : Stack K V T}

theorem storeStep_spec {a : StoreAction} (h : s.storeStep a = some s') :
    ∃ store, s.storeChange a = some store ∧ s' = { s with store } := by
  simp only [storeStep, Option.map_eq_some_iff] at h
  obtain ⟨store, hs, rfl⟩ := h
  exact ⟨store, hs, rfl⟩

theorem scheduleBackgroundRefresh_frame (s : Stack K V T) (key : K) (options : GetOptions) :
    ∃ gets backgroundRefreshes, s.scheduleBackgroundRefresh key options =
      { s with gets, backgroundRefreshes } := by
  rcases scheduleBackgroundRefresh_cases s key options with h | ⟨-, h⟩ <;> rw [h]
  · exact ⟨_, _, rfl⟩
  · exact ⟨_, _, rfl⟩

theorem scheduleBackgroundRefresh_store (s : Stack K V T) (key : K) (options : GetOptions) :
    (s.scheduleBackgroundRefresh key options).store = s.store := by
  obtain ⟨gets, refreshes, h⟩ := scheduleBackgroundRefresh_frame s key options
  rw [h]

variable [DecidableEq T]

theorem readStep_frame {a : ReadAction K} (h : s.readStep cfg a = some s') :
    ∃ readers index store, s' = { s with readers, index, store } := by
  cases a with
  | read key => cases h; exact ⟨_, _, _, rfl⟩
  | load r => obtain ⟨reader, -, -, rfl⟩ := load_spec h; exact ⟨_, _, _, rfl⟩
  | resume r =>
    obtain ⟨reader, reader', index, -, -, -, rfl⟩ := resume_spec h
    exact ⟨_, _, _, rfl⟩
  | purge r => obtain ⟨reader, -, -, rfl⟩ := purge_spec h; exact ⟨_, _, _, rfl⟩
  | backfill r ttls =>
    obtain ⟨reader, hit, -, -, ⟨-, rfl⟩ | ⟨-, rfl⟩⟩ := backfill_spec h <;> exact ⟨_, _, _, rfl⟩
  | refuse r => obtain ⟨reader, hit, -, -, rfl⟩ := refuse_spec h; exact ⟨_, _, _, rfl⟩
  | backfilled r =>
    obtain ⟨reader, hit, order, -, -, -, rfl⟩ := backfilled_spec h
    exact ⟨_, _, _, rfl⟩
  | unindex r => obtain ⟨reader, -, -, rfl⟩ := unindex_spec h; exact ⟨_, _, _, rfl⟩

theorem writeStep_frame {a : WriteAction K V T} (h : s.writeStep cfg a = some s') :
    ∃ writers index store writeBehindQueue flushing outbox,
      s' = { s with writers, index, store, writeBehindQueue, flushing, outbox } := by
  cases a with
  | set key write tags => cases h; exact ⟨_, _, _, _, _, _, rfl⟩
  | mset entries => cases h; exact ⟨_, _, _, _, _, _, rfl⟩
  | enqueue w => obtain ⟨writer, -, -, -, rfl⟩ := enqueue_spec h; exact ⟨_, _, _, _, _, _, rfl⟩
  | verify w =>
    obtain ⟨writer, order, phase, -, -, -, -, -, rfl⟩ := verify_spec h
    exact ⟨_, _, _, _, _, _, rfl⟩
  | track w =>
    obtain ⟨writer, -, ⟨-, rfl⟩ | ⟨entry, rest, -, -, rfl⟩ | ⟨entry, rest, -, -, rfl⟩⟩ :=
      track_spec h <;> exact ⟨_, _, _, _, _, _, rfl⟩
  | announce w =>
    obtain ⟨writer, outbox, -, -, -, rfl⟩ := announce_spec h
    exact ⟨_, _, _, _, _, _, rfl⟩
  | flush => obtain ⟨-, rfl⟩ := flush_spec h; exact ⟨_, _, _, _, _, _, rfl⟩
  | flushNext =>
    obtain ⟨batch, running, -, -, ⟨-, rfl⟩ | ⟨d, rest, -, rfl⟩⟩ := flushNext_spec h <;>
      exact ⟨_, _, _, _, _, _, rfl⟩

theorem invalidateStep_frame {a : InvalidateAction K} (h : s.invalidateStep cfg a = some s') :
    ∃ invalidations index store writeBehindQueue outbox,
      s' = { s with invalidations, index, store, writeBehindQueue, outbox } := by
  cases a with
  | delete keys operation | clear | handle message => cases h; exact ⟨_, _, _, _, _, rfl⟩
  | bump d => obtain ⟨inv, queue, -, -, -, rfl⟩ := bump_spec h; exact ⟨_, _, _, _, _, rfl⟩
  | removed d => obtain ⟨inv, b, r, -, -, -, -, rfl⟩ := removed_spec h; exact ⟨_, _, _, _, _, rfl⟩
  | forget d =>
    obtain ⟨inv, -, ⟨-, rfl⟩ | ⟨key, rest, -, rfl⟩ | ⟨-, rfl⟩⟩ := forget_spec h <;>
      exact ⟨_, _, _, _, _, rfl⟩
  | publish d => obtain ⟨inv, outbox, -, -, -, rfl⟩ := publish_spec h; exact ⟨_, _, _, _, _, rfl⟩

omit [DecidableEq T] in
theorem getStep_frame {a : GetAction K V T} (h : s.getStep cfg a = some s') :
    ∃ readers writers gets tasks inFlight backgroundRefreshes store,
      (writers = s.writers ∨ ∃ i outcome, a = .fetched i outcome) ∧
      s' = { s with readers, writers, gets, tasks, inFlight, backgroundRefreshes, store } := by
  cases a with
  | get key options => cases h; exact ⟨_, _, _, _, _, _, _, .inl rfl, rfl⟩
  | conclude g =>
    obtain ⟨get, reader, -, -, -, hconcl⟩ := conclude_spec h
    cases hconcl with
    | refresh hit hr hstate =>
      obtain ⟨gets, refreshes, he⟩ := scheduleBackgroundRefresh_frame
        (s.putGet g { get with phase := .done hit.answer }) get.key get.options
      exact ⟨_, _, _, _, _, _, _, .inl rfl, he⟩
    | failed | miss | absent | fresh | stale | staleIfError | fallback =>
      exact ⟨_, _, _, _, _, _, _, .inl rfl, rfl⟩
  | slide g =>
    obtain ⟨get, answer, todo, stored, ttl, ahead, -, -, ⟨-, rfl | ⟨-, rfl⟩⟩ |
      ⟨l, rest, -, rfl | rfl⟩⟩ := slide_spec h
    · exact ⟨_, _, _, _, _, _, _, .inl rfl, rfl⟩
    · obtain ⟨gets, refreshes, he⟩ := scheduleBackgroundRefresh_frame
        (s.putGet g { get with phase := .done answer }) get.key get.options
      exact ⟨_, _, _, _, _, _, _, .inl rfl, he⟩
    · exact ⟨_, _, _, _, _, _, _, .inl rfl, rfl⟩
    · exact ⟨_, _, _, _, _, _, _, .inl rfl, rfl⟩
  | enter g =>
    obtain ⟨get, fallback, -, -, ⟨i, joined, -, -, -, rfl⟩ | ⟨inFlight, -, rfl⟩⟩ :=
      enter_spec h <;> exact ⟨_, _, _, _, _, _, _, .inl rfl, rfl⟩
  | leave g =>
    obtain ⟨get, i, fallback, task, result, phase, inFlight, refreshes, -, -, -, -, -, -, rfl⟩ :=
      leave_spec h
    exact ⟨_, _, _, _, _, _, _, .inl rfl, rfl⟩
  | recheck i =>
    obtain ⟨task, missed, -, -, -, rfl⟩ := recheck_spec h
    exact ⟨_, _, _, _, _, _, _, .inl rfl, rfl⟩
  | rechecked i =>
    obtain ⟨task, r, reader, phase, -, -, -, -, rfl⟩ := rechecked_spec h
    exact ⟨_, _, _, _, _, _, _, .inl rfl, rfl⟩
  | fetch i =>
    obtain ⟨task, missed, -, -, -, rfl⟩ := fetch_spec h
    exact ⟨_, _, _, _, _, _, _, .inl rfl, rfl⟩
  | fetched i outcome =>
    obtain ⟨task, born, hi, -, ⟨result, -, -, rfl⟩ | ⟨write, tags, -, -, rfl⟩⟩ :=
      fetched_spec h <;> exact ⟨_, _, _, _, _, _, _, .inr ⟨i, outcome, rfl⟩, rfl⟩
  | stored i =>
    obtain ⟨task, w, answer, writer, -, -, -, -, rfl⟩ := stored_spec h
    exact ⟨_, _, _, _, _, _, _, .inl rfl, rfl⟩
  | giveUp i =>
    obtain ⟨task, missed, -, -, rfl⟩ := giveUp_spec h
    exact ⟨_, _, _, _, _, _, _, .inl rfl, rfl⟩
  | settle i =>
    obtain ⟨task, result, inFlight, -, -, -, -, rfl⟩ := settleTask_spec h
    exact ⟨_, _, _, _, _, _, _, .inl rfl, rfl⟩

theorem step_spec {a : Action K V T} (h : s.step cfg a = some s') :
    ∃ s₁, s.act cfg a = some s₁ ∧ s' = { s₁ with clock := s.clock + 1 } := by
  simp only [step, Option.map_eq_some_iff] at h
  obtain ⟨s₁, hact, rfl⟩ := h
  exact ⟨s₁, hact, rfl⟩

end

end Stack

end LayerCache
