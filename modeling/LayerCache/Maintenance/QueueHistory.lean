import LayerCache.Maintenance.WriteBehind

/-! # What becomes of the operations in the write-behind queue

The queue with clears and with batches that reject, and beside it what has been accepted,
handed to the runner, and dropped by a clear. Whatever the order of the calls, operations are
handed over in the order in which they were accepted, each at most once, one batch at a time,
and only a clear drops one.
-/

namespace LayerCache

open Transition

structure CacheWriteBehindOptions where
  batchSize : Option ℕ
  maxQueueSize : Option ℕ

def CacheWriteBehindOptions.resolve (options : CacheWriteBehindOptions) : WriteBehindOptions :=
  let batchSize := options.batchSize.getD 100
  ⟨batchSize, options.maxQueueSize.getD (batchSize * 10)⟩

/-- The history that goes with a queue: operations in the order of their acceptance, batches in
the order in which they were handed over, the numbers of those still running, and the dropped
operations, each with the clear that dropped it. -/
structure QueueHistory where
  core : WriteBehind
  accepted : List ℕ
  handed : List (List ℕ)
  running : List ℕ
  clears : List ℕ
  dropped : List (ℕ × ℕ)

inductive QueueAction
  | enqueue
  /-- An explicit flush, or one of the timer. -/
  | flush
  | settle
  | finish
  | reject
  | resume (flush : ℕ)
  | clear
deriving DecidableEq

namespace WriteBehind

/-- The runner has rejected, and with it the flush that took the batch. The queue stays. -/
def rejectBatch (s : WriteBehind) : Option WriteBehind :=
  if s.writeBehindFlush.isSome then some { s with writeBehindFlush := none } else none

def beginClearEpoch (s : WriteBehind) : WriteBehind := { s with writeBehindQueue := [] }

def push (s : WriteBehind) : WriteBehind :=
  { s with
    writeBehindQueue := s.writeBehindQueue ++ [s.clock]
    operations := Function.update s.operations s.clock (some false) }

theorem enqueueWriteBehind_eq (options : WriteBehindOptions) (s : WriteBehind) :
    s.enqueueWriteBehind options =
      if options.maxQueueSize ≤ s.writeBehindQueue.length then none
      else some (if options.flushesAt s.push.writeBehindQueue.length
        then s.push.flushWriteBehindQueue options s.clock else s.push) := rfl

end WriteBehind

namespace QueueHistory

def initial : QueueHistory := ⟨.initial, [], [], [], [], []⟩

/-- A batch that carries the number of this step has just been handed over. -/
def record (s : QueueHistory) (core : WriteBehind) : QueueHistory :=
  match core.writeBehindFlush with
  | some batch =>
    if batch.number = core.clock then
      { s with
        core := core
        handed := s.handed ++ [batch.todo]
        running := s.running ++ [batch.number] }
    else { s with core := core }
  | none => { s with core := core }

def settled (s : QueueHistory) : QueueHistory :=
  { s with running := s.running.filter fun number =>
      s.core.writeBehindFlush.all fun batch => batch.number ≠ number }

def enqueue (options : WriteBehindOptions) (s : QueueHistory) : Except String QueueHistory :=
  match s.core.enqueueWriteBehind options with
  | some core => .ok ({ s with accepted := s.accepted ++ [s.core.clock] }.record core)
  | none => .error
      ("Write-behind queue limit (" ++ toString options.maxQueueSize ++ ") exceeded.")

def beginClearEpoch (s : QueueHistory) : QueueHistory :=
  { s with
    core := s.core.beginClearEpoch
    clears := s.clears ++ [s.core.clock]
    dropped := s.dropped ++ s.core.writeBehindQueue.map fun o => (o, s.core.clock) }

def act (options : WriteBehindOptions) (s : QueueHistory) : QueueAction → Option QueueHistory
  | .enqueue =>
    match s.enqueue options with
    | .ok s' => some s'
    | .error _ => some s
  | .flush => some (s.record (s.core.flushWriteBehindQueue options s.core.clock))
  | .settle => s.core.settleOperation.map fun core => { s with core := core }
  | .finish => (s.core.finishBatch options).map fun core => s.settled.record core
  | .reject => s.core.rejectBatch.map fun core => { s.settled with core := core }
  | .resume f => (s.core.resumeFlush f).map fun core => { s with core := core }
  | .clear => some s.beginClearEpoch

def tick (s : QueueHistory) : QueueHistory :=
  { s with core := { s.core with clock := s.core.clock + 1 } }

def step (options : WriteBehindOptions) (s : QueueHistory) (a : QueueAction) :
    Option QueueHistory :=
  (s.act options a).map tick

/-- The bound, the order and the whereabouts of the accepted operations. -/
structure Disciplined (options : WriteBehindOptions) (s : QueueHistory) : Prop where
  bounded : s.core.writeBehindQueue.length ≤ options.maxQueueSize
  batch_le : ∀ batch ∈ s.handed, batch.length ≤ options.batchSize
  one_running : s.running.length ≤ 1
  in_order : (s.handed.flatten ++ s.core.writeBehindQueue).Sublist s.accepted
  once : s.accepted.Nodup
  whereabouts : s.accepted.Perm
    (s.handed.flatten ++ s.core.writeBehindQueue ++ s.dropped.map Prod.fst)
  cleared : ∀ drop ∈ s.dropped, drop.2 ∈ s.clears ∧ drop.1 < drop.2

/-- What the steps keep beside: the flag names the batch that is running. -/
structure Tracked (options : WriteBehindOptions) (n : ℕ) (s : QueueHistory) : Prop extends
    Disciplined options s where
  accepted_lt : ∀ o ∈ s.accepted, o < n
  running_eq : s.running = s.core.writeBehindFlush.toList.map Batch.number

/-- Batches are numbered below `n`. -/
def NumberedBelow (n : ℕ) (core : WriteBehind) : Prop :=
  ∀ batch ∈ core.writeBehindFlush, batch.number < n

variable {options : WriteBehindOptions} {s s' : QueueHistory} {m n f : ℕ}

theorem record_of_number_ne (core : WriteBehind) (hbelow : NumberedBelow core.clock core) :
    s.record core = { s with core := core } := by
  rw [record]
  split
  case h_1 batch hbatch => rw [if_neg (hbelow batch hbatch).ne]
  case h_2 => rfl

theorem Tracked.congr (h : s.Tracked options m) {core : WriteBehind}
    (hqueue : core.writeBehindQueue = s.core.writeBehindQueue)
    (hflush : core.writeBehindFlush.toList.map Batch.number =
      s.core.writeBehindFlush.toList.map Batch.number) :
    Tracked options m { s with core := core } where
  bounded := hqueue ▸ h.bounded
  batch_le := h.batch_le
  one_running := h.one_running
  in_order := hqueue ▸ h.in_order
  once := h.once
  whereabouts := hqueue ▸ h.whereabouts
  cleared := h.cleared
  accepted_lt := h.accepted_lt
  running_eq := h.running_eq.trans hflush.symm

theorem Tracked.hand (h : s.Tracked options m) (hnone : s.core.writeBehindFlush = none)
    (f : ℕ) :
    Tracked options m { s with
      core := { s.core.putFlush f .draining with
        writeBehindFlush := some ⟨s.core.clock, f, s.core.writeBehindQueue.take options.batchSize⟩
        writeBehindQueue := s.core.writeBehindQueue.drop options.batchSize }
      handed := s.handed ++ [s.core.writeBehindQueue.take options.batchSize]
      running := s.running ++ [s.core.clock] } := by
  have hrunning : s.running = [] := by rw [h.running_eq, hnone]; rfl
  have hflat : (s.handed ++ [s.core.writeBehindQueue.take options.batchSize]).flatten ++
      s.core.writeBehindQueue.drop options.batchSize =
        s.handed.flatten ++ s.core.writeBehindQueue := by
    rw [List.flatten_append, List.flatten_singleton, List.append_assoc, List.take_append_drop]
  constructor
  · constructor
    · exact (List.drop_sublist _ _).length_le.trans h.bounded
    · rw [List.forall_mem_append, List.forall_mem_singleton]
      exact ⟨h.batch_le, List.length_take_le _ _⟩
    · simp [hrunning]
    · simp only [hflat]
      exact h.in_order
    · exact h.once
    · simp only [hflat]
      exact h.whereabouts
    · exact h.cleared
  · exact h.accepted_lt
  · simp [hrunning]

theorem Tracked.flush (h : s.Tracked options m) (hbelow : NumberedBelow s.core.clock s.core)
    (f : ℕ) :
    (s.record (s.core.flushWriteBehindQueue options f)).Tracked options m := by
  rw [WriteBehind.flushWriteBehindQueue]
  split
  case h_1 batch hbatch =>
    rw [record_of_number_ne (s.core.putFlush f (.joined batch.number)) hbelow]
    exact h.congr rfl rfl
  case h_2 hnone =>
    split
    · rw [record_of_number_ne (s.core.putFlush f .resolved) hbelow]
      exact h.congr rfl rfl
    · simp only [record, WriteBehind.putFlush, if_true]
      exact h.hand hnone f

theorem numberedBelow_flush {core : WriteBehind} (hbelow : NumberedBelow core.clock core) (f : ℕ) :
    NumberedBelow (core.clock + 1) (core.flushWriteBehindQueue options f) := by
  rw [WriteBehind.flushWriteBehindQueue]
  have hmono : NumberedBelow (core.clock + 1) core := fun batch hbatch =>
    (hbelow batch hbatch).trans (Nat.lt_succ_self _)
  split
  · exact hmono
  · split
    · exact hmono
    · rintro batch ⟨⟩
      exact Nat.lt_succ_self _

theorem record_core (core : WriteBehind) : (s.record core).core = core := by
  rw [record]
  split
  · split <;> rfl
  · rfl

theorem Tracked.push (h : s.Tracked options s.core.clock)
    (hroom : s.core.writeBehindQueue.length < options.maxQueueSize) :
    Tracked options (s.core.clock + 1) { s with
      core := s.core.push
      accepted := s.accepted ++ [s.core.clock] } where
  bounded := by simpa [WriteBehind.push] using Nat.succ_le_of_lt hroom
  batch_le := h.batch_le
  one_running := h.one_running
  in_order := by
    rw [WriteBehind.push, ← List.append_assoc]
    exact h.in_order.append (.refl _)
  once := by
    apply h.once.append (List.nodup_singleton _)
    rintro o ho hclock
    cases List.mem_singleton.mp hclock
    exact absurd (h.accepted_lt _ ho) (lt_irrefl _)
  whereabouts := by
    have hperm := h.whereabouts.append_right [s.core.clock]
    refine hperm.trans ?_
    rw [WriteBehind.push, List.append_assoc, List.append_assoc, List.append_assoc,
      List.append_assoc]
    apply List.Perm.append_left
    apply List.Perm.append_left
    exact List.perm_append_comm
  cleared := h.cleared
  accepted_lt := by
    rw [List.forall_mem_append, List.forall_mem_singleton]
    exact ⟨fun o ho => (h.accepted_lt o ho).trans (Nat.lt_succ_self _), Nat.lt_succ_self _⟩
  running_eq := h.running_eq

theorem Tracked.clear (h : s.Tracked options s.core.clock) :
    s.beginClearEpoch.Tracked options s.core.clock where
  bounded := Nat.zero_le _
  batch_le := h.batch_le
  one_running := h.one_running
  in_order := by
    have hnil : s.beginClearEpoch.core.writeBehindQueue = [] := rfl
    rw [hnil, List.append_nil]
    exact (List.sublist_append_left _ _).trans h.in_order
  once := h.once
  whereabouts := by
    have hdropped : s.beginClearEpoch.dropped.map Prod.fst =
        s.dropped.map Prod.fst ++ s.core.writeBehindQueue := by
      simp [beginClearEpoch, Function.comp_def]
    have hnil : s.beginClearEpoch.core.writeBehindQueue = [] := rfl
    have hhanded : s.beginClearEpoch.handed = s.handed := rfl
    rw [hdropped, hnil, hhanded, List.append_nil]
    refine h.whereabouts.trans ?_
    rw [List.append_assoc]
    exact List.perm_append_comm.append_left _
  cleared := by
    rw [beginClearEpoch, List.forall_mem_append]
    constructor
    · intro drop hdrop
      obtain ⟨hclear, hlt⟩ := h.cleared drop hdrop
      exact ⟨List.mem_append_left _ hclear, hlt⟩
    · intro drop hdrop
      obtain ⟨o, ho, rfl⟩ := List.mem_map.mp hdrop
      refine ⟨List.mem_append_right _ List.mem_cons_self, h.accepted_lt o ?_⟩
      exact h.in_order.subset (List.mem_append_right _ ho)
  accepted_lt := h.accepted_lt
  running_eq := h.running_eq

theorem Tracked.settled (h : s.Tracked options m) :
    Tracked options m { s.settled with core := { s.core with writeBehindFlush := none } } := by
  have hrunning : s.settled.running = [] := by
    rw [QueueHistory.settled, h.running_eq]
    cases s.core.writeBehindFlush <;> simp
  constructor
  · exact {
      bounded := h.bounded
      batch_le := h.batch_le
      one_running := by simp [hrunning]
      in_order := h.in_order
      once := h.once
      whereabouts := h.whereabouts
      cleared := h.cleared }
  · exact h.accepted_lt
  · exact hrunning

def Kept (options : WriteBehindOptions) (s : QueueHistory) : Prop :=
  s.Tracked options s.core.clock ∧ NumberedBelow s.core.clock s.core

theorem Tracked.tick (h : s.Tracked options m) (hm : m ≤ s.core.clock + 1) :
    s.tick.Tracked options s.tick.core.clock :=
  { h.congr rfl rfl with accepted_lt := fun o ho => (h.accepted_lt o ho).trans_le hm }

theorem kept_initial : Kept options initial := by
  constructor
  · constructor
    · constructor <;> simp [initial, WriteBehind.initial]
    · simp [initial]
    · simp [initial, WriteBehind.initial]
  · rintro batch ⟨⟩

theorem flush_clock (core : WriteBehind) (f : ℕ) :
    (core.flushWriteBehindQueue options f).clock = core.clock := by
  rw [WriteBehind.flushWriteBehindQueue]
  split
  · rfl
  · split <;> rfl

theorem Kept.enqueue (h : Kept options s) (hs : s.enqueue options = .ok s') :
    s'.Tracked options (s.core.clock + 1) ∧ NumberedBelow (s.core.clock + 1) s'.core ∧
      s'.core.clock = s.core.clock := by
  obtain ⟨h, hbelow⟩ := h
  rw [QueueHistory.enqueue, WriteBehind.enqueueWriteBehind_eq] at hs
  split at hs
  case h_2 => cases hs
  case h_1 core hcore =>
    split at hcore
    case isTrue => cases hcore
    case isFalse hroom =>
      have hpush := h.push (Nat.lt_of_not_le hroom)
      have hbelow : NumberedBelow s.core.push.clock s.core.push := hbelow
      have hmono : NumberedBelow (s.core.clock + 1) s.core.push := fun batch hbatch =>
        (hbelow batch hbatch).trans (Nat.lt_succ_self _)
      cases hs
      rw [Option.some.injEq] at hcore
      subst hcore
      split
      case isTrue =>
        refine ⟨hpush.flush hbelow s.core.clock, ?_, ?_⟩
        · rw [record_core]
          exact numberedBelow_flush hbelow _
        · rw [record_core]
          exact flush_clock _ _
      case isFalse =>
        rw [record_of_number_ne _ hbelow]
        exact ⟨hpush, hmono, rfl⟩

theorem Kept.act (h : Kept options s) {a : QueueAction} (hs : s.act options a = some s') :
    s'.Tracked options (s.core.clock + 1) ∧ NumberedBelow (s.core.clock + 1) s'.core ∧
      s'.core.clock = s.core.clock := by
  have htracked : s.Tracked options (s.core.clock + 1) :=
    { h.1 with accepted_lt := fun o ho => (h.1.accepted_lt o ho).trans (Nat.lt_succ_self _) }
  have hbelow : NumberedBelow (s.core.clock + 1) s.core := fun batch hbatch =>
    (h.2 batch hbatch).trans (Nat.lt_succ_self _)
  cases a with
  | enqueue =>
    simp only [QueueHistory.act] at hs
    split at hs
    case h_1 s₁ hok =>
      cases hs
      exact h.enqueue hok
    case h_2 =>
      cases hs
      exact ⟨htracked, hbelow, rfl⟩
  | flush =>
    cases hs
    refine ⟨htracked.flush h.2 s.core.clock, ?_, ?_⟩
    · rw [record_core]
      exact numberedBelow_flush h.2 _
    · rw [record_core]
      exact flush_clock _ _
  | settle =>
    simp only [QueueHistory.act, Option.map_eq_some_iff] at hs
    obtain ⟨core, hcore, rfl⟩ := hs
    rw [WriteBehind.settleOperation] at hcore
    split at hcore
    case h_1 number owner o rest hbatch =>
      cases hcore
      refine ⟨?_, ?_, rfl⟩
      · exact htracked.congr rfl (by simp [hbatch])
      · rintro batch ⟨⟩
        exact hbelow ⟨number, owner, o :: rest⟩ hbatch
    case h_2 => cases hcore
  | finish =>
    simp only [QueueHistory.act, Option.map_eq_some_iff] at hs
    obtain ⟨core, hcore, rfl⟩ := hs
    rw [WriteBehind.finishBatch] at hcore
    split at hcore
    case h_1 number owner hbatch =>
      cases hcore
      have hnone : NumberedBelow s.core.clock { s.core with writeBehindFlush := none } := by
        rintro batch ⟨⟩
      refine ⟨htracked.settled.flush hnone owner, ?_, ?_⟩
      · rw [record_core]
        exact numberedBelow_flush hnone _
      · rw [record_core]
        exact flush_clock _ _
    case h_2 => cases hcore
  | reject =>
    simp only [QueueHistory.act, Option.map_eq_some_iff] at hs
    obtain ⟨core, hcore, rfl⟩ := hs
    rw [WriteBehind.rejectBatch] at hcore
    split at hcore
    · cases hcore
      refine ⟨htracked.settled, ?_, rfl⟩
      rintro batch ⟨⟩
    · cases hcore
  | resume f =>
    simp only [QueueHistory.act, Option.map_eq_some_iff] at hs
    obtain ⟨core, hcore, rfl⟩ := hs
    rw [WriteBehind.resumeFlush] at hcore
    split at hcore
    · split at hcore
      · cases hcore
      · cases hcore
        exact ⟨htracked.congr rfl rfl, hbelow, rfl⟩
    · cases hcore
  | clear =>
    cases hs
    have hclear := h.1.clear
    exact ⟨{ hclear with
      accepted_lt := fun o ho => (hclear.accepted_lt o ho).trans (Nat.lt_succ_self _) },
    hbelow, rfl⟩

theorem Kept.step (h : Kept options s) {a : QueueAction} (hs : s.step options a = some s') :
    Kept options s' := by
  simp only [QueueHistory.step, Option.map_eq_some_iff] at hs
  obtain ⟨s₁, hact, rfl⟩ := hs
  obtain ⟨htracked, hbelow, hclock⟩ := h.act hact
  rw [← hclock] at htracked hbelow
  exact ⟨htracked.tick le_rfl, hbelow⟩

/-- In every run of enqueues, flushes, batches and clears the queue keeps its bound, hands its
operations over in order, each at most once, one batch at a time, and loses none but to a later
clear; and a full queue rejects an operation and stays as it is. -/
theorem backlogDisciplined (options : CacheWriteBehindOptions)
    (hrun : Reaches (step options.resolve) (fun _ _ => True) initial s) :
    s.Disciplined options.resolve ∧
      (options.resolve.maxQueueSize ≤ s.core.writeBehindQueue.length →
        (∃ message, s.enqueue options.resolve = .error message) ∧
          s.act options.resolve .enqueue = some s) := by
  have hkept : Kept options.resolve s :=
    Reaches.invariant (P := Kept options.resolve) hrun (fun _ _ _ h _ hs => h.step hs) kept_initial
  refine ⟨hkept.1.toDisciplined, fun hfull => ?_⟩
  have hreject : s.core.enqueueWriteBehind options.resolve = none := by
    rw [WriteBehind.enqueueWriteBehind, if_pos hfull]
  simp [act, QueueHistory.enqueue, hreject]

theorem backlogDisciplined_cleared :
    ∃ s ∈ run (step ⟨1, 2⟩) initial [.enqueue, .enqueue, .enqueue, .clear, .settle, .finish],
      s.handed = [[0]] ∧ s.dropped = [(1, 3), (2, 3)] ∧ s.Disciplined ⟨1, 2⟩ := by
  obtain ⟨s, hs, hhanded, hdropped⟩ : ∃ s ∈ run (step ⟨1, 2⟩) initial
      [.enqueue, .enqueue, .enqueue, .clear, .settle, .finish],
      s.handed = [[0]] ∧ s.dropped = [(1, 3), (2, 3)] := by decide +kernel
  have hrun := reaches_of_run (fun _ _ => True) hs (by decide +kernel)
  exact ⟨s, hs, hhanded, hdropped, (backlogDisciplined ⟨some 1, some 2⟩ hrun).1⟩

end QueueHistory

end LayerCache
