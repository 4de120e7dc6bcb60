import LayerCache.Transition.Run
import Mathlib.Data.List.Nodup
import Mathlib.Data.Nat.Basic
import Mathlib.Logic.Function.Basic
import Mathlib.Order.Basic

/-! # The write-behind queue

Operations wait in the queue until a flush takes a batch of them and runs it, one
operation after the other. One batch runs at a time. The flush that took it goes on
until the queue is empty; any other flush only waits for the batch that it finds.
Operations and flush calls are numbered by the step that made them.
-/

namespace LayerCache

open Transition

structure WriteBehindOptions where
  batchSize : ℕ
  maxQueueSize : ℕ

def WriteBehindOptions.flushesAt (options : WriteBehindOptions) (size : ℕ) : Bool :=
  options.maxQueueSize ≤ size || options.batchSize ≤ size

/-- A batch under way, with the flush call that waits for it to take the next one. -/
structure Batch where
  number : ℕ
  owner : ℕ
  todo : List ℕ
deriving DecidableEq

inductive FlushPhase
  | draining
  | joined (batch : ℕ)
  | resolved
deriving DecidableEq

/-- `operations` says of every operation that was enqueued whether it has settled. -/
structure WriteBehind where
  clock : ℕ
  writeBehindQueue : List ℕ
  writeBehindFlush : Option Batch
  operations : ℕ → Option Bool
  flushes : ℕ → Option FlushPhase

inductive WriteBehindAction
  | enqueue
  | flush
  | settle
  | finish
  | resume (flush : ℕ)
deriving DecidableEq

namespace WriteBehind

def initial : WriteBehind where
  clock := 0
  writeBehindQueue := []
  writeBehindFlush := none
  operations := fun _ => none
  flushes := fun _ => none

def putFlush (s : WriteBehind) (f : ℕ) (phase : FlushPhase) : WriteBehind :=
  { s with flushes := Function.update s.flushes f (some phase) }

/-- A flush takes the next batch, unless one is under way or there is nothing to take. -/
def flushWriteBehindQueue (options : WriteBehindOptions) (s : WriteBehind) (f : ℕ) : WriteBehind :=
  match s.writeBehindFlush with
  | some batch => s.putFlush f (.joined batch.number)
  | none =>
    if s.writeBehindQueue.isEmpty then s.putFlush f .resolved
    else
      { s.putFlush f .draining with
        writeBehindFlush := some ⟨s.clock, f, s.writeBehindQueue.take options.batchSize⟩
        writeBehindQueue := s.writeBehindQueue.drop options.batchSize }

def enqueueWriteBehind (options : WriteBehindOptions) (s : WriteBehind) : Option WriteBehind :=
  if options.maxQueueSize ≤ s.writeBehindQueue.length then none
  else
    let s' := { s with
      writeBehindQueue := s.writeBehindQueue ++ [s.clock]
      operations := Function.update s.operations s.clock (some false) }
    some (if options.flushesAt s'.writeBehindQueue.length
      then s'.flushWriteBehindQueue options s.clock else s')

/-- The operation at the head of the batch has run, whether it failed or not. -/
def settleOperation (s : WriteBehind) : Option WriteBehind :=
  match s.writeBehindFlush with
  | some ⟨number, owner, o :: rest⟩ => some { s with
      writeBehindFlush := some ⟨number, owner, rest⟩
      operations := Function.update s.operations o (some true) }
  | _ => none

/-- The batch is through: its owner looks at the queue again. -/
def finishBatch (options : WriteBehindOptions) (s : WriteBehind) : Option WriteBehind :=
  match s.writeBehindFlush with
  | some ⟨_, owner, []⟩ =>
    some (flushWriteBehindQueue options { s with writeBehindFlush := none } owner)
  | _ => none

/-- A flush that has waited for another's batch is over with that batch. -/
def resumeFlush (s : WriteBehind) (f : ℕ) : Option WriteBehind :=
  match s.flushes f with
  | some (.joined b) =>
    if s.writeBehindFlush.any fun batch => batch.number = b then none
    else some (s.putFlush f .resolved)
  | _ => none

def act (options : WriteBehindOptions) (s : WriteBehind) : WriteBehindAction → Option WriteBehind
  | .enqueue => s.enqueueWriteBehind options
  | .flush => some (s.flushWriteBehindQueue options s.clock)
  | .settle => s.settleOperation
  | .finish => s.finishBatch options
  | .resume f => s.resumeFlush f

def step (options : WriteBehindOptions) (s : WriteBehind) (a : WriteBehindAction) :
    Option WriteBehind :=
  (s.act options a).map fun s' => { s' with clock := s.clock + 1 }

/-- A flush is called while a batch is under way and more operations are waiting. -/
def JoinsBacklog (options : WriteBehindOptions) (s : WriteBehind) : WriteBehindAction → Prop
  | .flush => s.writeBehindFlush.isSome = true ∧ s.writeBehindQueue ≠ []
  | .enqueue => s.writeBehindFlush.isSome = true ∧
      options.flushesAt (s.writeBehindQueue.length + 1) = true
  | _ => False

instance (options : WriteBehindOptions) (s : WriteBehind) :
    DecidablePred (s.JoinsBacklog options) := fun a => by
  unfold JoinsBacklog
  split <;> infer_instance

/-- The operations that are yet to settle, in the order in which they will. -/
def pending (s : WriteBehind) : List ℕ :=
  (s.writeBehindFlush.elim [] Batch.todo) ++ s.writeBehindQueue

/-- Every operation enqueued up to step `n` has settled. -/
def SettledUpTo (s : WriteBehind) (n : ℕ) : Prop := ∀ o ≤ n, o ∉ s.pending

/-- What the steps keep: the operations that have not settled are those of the queue and of the
batch, and a flush that waits for a batch only has operations of that batch to wait for.
Operations are numbered below `m`, batches and flushes below `n`. -/
structure Flushing (m n : ℕ) (s : WriteBehind) : Prop where
  unsettled : ∀ o, s.operations o = some false ↔ o ∈ s.pending
  lt : ∀ o ∈ s.pending, o < m
  nodup : s.pending.Nodup
  batch_lt : ∀ batch ∈ s.writeBehindFlush, batch.number < n ∧ batch.owner < n
  flush_lt : ∀ f phase, s.flushes f = some phase → f < n
  joined : ∀ f b, s.flushes f = some (.joined b) →
    (∃ batch ∈ s.writeBehindFlush, batch.number = b ∧ ∀ o ≤ f, o ∉ s.writeBehindQueue) ∨
      ((∀ batch ∈ s.writeBehindFlush, batch.number ≠ b) ∧ b < n ∧ s.SettledUpTo f)
  resolved : ∀ f, s.flushes f = some .resolved → s.SettledUpTo f

variable {options : WriteBehindOptions} {s s' : WriteBehind} {m n f : ℕ}

theorem putFlush_eq_some {phase phase' : FlushPhase} {f' : ℕ}
    (h : (s.putFlush f phase).flushes f' = some phase') :
    (f' = f ∧ phase' = phase) ∨ s.flushes f' = some phase' := by
  by_cases hf : f' = f
  · subst hf
    simp only [putFlush, Function.update_self, Option.some.injEq] at h
    exact .inl ⟨rfl, h.symm⟩
  · exact .inr (by simpa [putFlush, hf] using h)

/-- Taking the next batch leaves the order of the operations as it is. -/
theorem flush_pending (options : WriteBehindOptions) (h : s.writeBehindFlush = none) (f : ℕ) :
    (s.flushWriteBehindQueue options f).pending = s.pending := by
  unfold flushWriteBehindQueue
  rw [h]
  dsimp only
  split
  · rfl
  · simp [pending, h]

theorem flush_operations (s : WriteBehind) (f : ℕ) :
    (s.flushWriteBehindQueue options f).operations = s.operations := by
  unfold flushWriteBehindQueue
  split
  · rfl
  · split <;> rfl

theorem flush_cases (options : WriteBehindOptions) (h : s.writeBehindFlush = none) (f : ℕ) :
    (s.pending = [] ∧ s.flushWriteBehindQueue options f = s.putFlush f .resolved) ∨
    s.flushWriteBehindQueue options f = { s.putFlush f .draining with
      writeBehindFlush := some ⟨s.clock, f, s.writeBehindQueue.take options.batchSize⟩
      writeBehindQueue := s.writeBehindQueue.drop options.batchSize } := by
  unfold flushWriteBehindQueue
  rw [h]
  dsimp only
  split
  · refine .inl ⟨?_, rfl⟩
    simpa [pending, h] using ‹s.writeBehindQueue.isEmpty = true›
  · exact .inr rfl

theorem Flushing.take (h : s.Flushing m n) (hclock : s.clock = n)
    (hnone : s.writeBehindFlush = none) (hf : f ≤ n) :
    (s.flushWriteBehindQueue options f).Flushing m (n + 1) := by
  have hpending := flush_pending options hnone f
  have hupto : ∀ {k}, s.SettledUpTo k → (s.flushWriteBehindQueue options f).SettledUpTo k := by
    intro k hk
    simpa only [SettledUpTo, hpending] using hk
  -- nobody waits for a batch any more, and the new batch has a number of its own
  have hwait : ∀ {f' b}, s.flushes f' = some (.joined b) → b < n ∧ s.SettledUpTo f' := by
    intro f' b hj
    rcases h.joined f' b hj with ⟨batch, hbatch, -⟩ | ⟨-, hb⟩
    · simp [hnone] at hbatch
    · exact hb
  constructor
  · rw [flush_operations, hpending]
    exact h.unsettled
  · rw [hpending]
    exact h.lt
  · rw [hpending]
    exact h.nodup
  · rcases flush_cases options hnone f with ⟨-, he⟩ | he <;> rw [he]
    · simp [putFlush, hnone]
    · rintro batch ⟨⟩
      exact ⟨hclock ▸ Nat.lt_succ_self _, Nat.lt_succ_of_le hf⟩
  · intro f' phase hf'
    have hcases : f' = f ∨ s.flushes f' = some phase := by
      rcases flush_cases options hnone f with ⟨-, he⟩ | he <;> rw [he] at hf'
      · exact (putFlush_eq_some hf').imp_left And.left
      · exact (putFlush_eq_some hf').imp_left And.left
    rcases hcases with rfl | hold
    · exact Nat.lt_succ_of_le hf
    · exact (h.flush_lt f' phase hold).trans (Nat.lt_succ_self n)
  · intro f' b hj
    right
    rcases flush_cases options hnone f with ⟨-, he⟩ | he
    · rw [he] at hj
      rcases putFlush_eq_some hj with ⟨-, hne⟩ | hold
      · cases hne
      obtain ⟨hb, hs⟩ := hwait hold
      refine ⟨?_, hb.trans (Nat.lt_succ_self n), hupto hs⟩
      simp [he, putFlush, hnone]
    · rw [he] at hj
      rcases putFlush_eq_some hj with ⟨-, hne⟩ | hold
      · cases hne
      obtain ⟨hb, hs⟩ := hwait hold
      refine ⟨?_, hb.trans (Nat.lt_succ_self n), hupto hs⟩
      rw [he]
      rintro batch ⟨⟩
      simp only [hclock]
      omega
  · intro f' hr
    rcases flush_cases options hnone f with ⟨hempty, he⟩ | he
    · intro o _ ho
      rw [hpending, hempty] at ho
      cases ho
    · rw [he] at hr
      rcases putFlush_eq_some hr with ⟨-, hne⟩ | hold
      · cases hne
      · exact hupto (h.resolved f' hold)

/-- A flush that finds a batch under way and an empty queue waits for all there is. -/
theorem Flushing.join (h : s.Flushing m n) {batch : Batch}
    (hbatch : s.writeBehindFlush = some batch) (hqueue : s.writeBehindQueue = []) (hf : f ≤ n) :
    (s.putFlush f (.joined batch.number)).Flushing m (n + 1) where
  unsettled := h.unsettled
  lt := h.lt
  nodup := h.nodup
  batch_lt b hb := (h.batch_lt b hb).imp (fun hlt => hlt.trans (Nat.lt_succ_self n))
    fun hlt => hlt.trans (Nat.lt_succ_self n)
  flush_lt f' phase hf' := by
    rcases putFlush_eq_some hf' with ⟨rfl, -⟩ | hold
    · exact Nat.lt_succ_of_le hf
    · exact (h.flush_lt f' phase hold).trans (Nat.lt_succ_self n)
  joined f' b hj := by
    rcases putFlush_eq_some hj with ⟨rfl, he⟩ | hold
    · cases he
      refine .inl ⟨batch, hbatch, rfl, fun o _ ho => ?_⟩
      have : o ∈ s.writeBehindQueue := ho
      simp [hqueue] at this
    · exact (h.joined f' b hold).imp_right fun ⟨hne, hb, hs⟩ =>
        ⟨hne, hb.trans (Nat.lt_succ_self n), hs⟩
  resolved f' hr := by
    rcases putFlush_eq_some hr with ⟨-, hne⟩ | hold
    · cases hne
    · exact h.resolved f' hold

theorem Flushing.push (h : s.Flushing n n) :
    Flushing (n + 1) n { s with
      writeBehindQueue := s.writeBehindQueue ++ [n]
      operations := Function.update s.operations n (some false) } := by
  have hpending : pending { s with
      writeBehindQueue := s.writeBehindQueue ++ [n]
      operations := Function.update s.operations n (some false) } = s.pending ++ [n] := by
    simp [pending]
  have hnew : n ∉ s.pending := fun ho => lt_irrefl n (h.lt n ho)
  have hupto : ∀ {k}, k < n → s.SettledUpTo k → SettledUpTo { s with
      writeBehindQueue := s.writeBehindQueue ++ [n]
      operations := Function.update s.operations n (some false) } k := by
    intro k hk hs o ho
    rw [hpending, List.mem_append, List.mem_singleton, not_or]
    exact ⟨hs o ho, by omega⟩
  constructor
  · intro o
    rw [hpending, List.mem_append, List.mem_singleton]
    by_cases ho : o = n
    · simp [ho]
    · simp [ho, h.unsettled o]
  · intro o ho
    rw [hpending, List.mem_append, List.mem_singleton] at ho
    rcases ho with ho | rfl
    · exact (h.lt o ho).trans (Nat.lt_succ_self n)
    · exact Nat.lt_succ_self o
  · rw [hpending]
    exact List.nodup_append.mpr ⟨h.nodup, List.nodup_singleton n, by
      rintro a ha b hb rfl
      exact hnew (List.mem_singleton.mp hb ▸ ha)⟩
  · exact h.batch_lt
  · exact h.flush_lt
  · intro f b hj
    have hf : f < n := h.flush_lt f _ hj
    rcases h.joined f b hj with ⟨batch, hbatch, hb, hq⟩ | ⟨hne, hb, hs⟩
    · refine .inl ⟨batch, hbatch, hb, fun o ho => ?_⟩
      rw [List.mem_append, List.mem_singleton, not_or]
      exact ⟨hq o ho, by omega⟩
    · exact .inr ⟨hne, hb, hupto hf hs⟩
  · intro f hr
    exact hupto (h.flush_lt f _ hr) (h.resolved f hr)

theorem Flushing.settle (h : s.Flushing m n) (hs : s.settleOperation = some s') :
    s'.Flushing m n := by
  unfold settleOperation at hs
  split at hs
  · rename_i number owner o rest hbatch
    cases hs
    have hpending : s.pending = o :: (rest ++ s.writeBehindQueue) := by
      simp [pending, hbatch]
    have hnodup := h.nodup
    rw [hpending, List.nodup_cons] at hnodup
    have hupto : ∀ {k}, s.SettledUpTo k → ∀ q ≤ k, q ∉ rest ++ s.writeBehindQueue := by
      intro k hk q hq hmem
      exact hk q hq (hpending ▸ List.mem_cons_of_mem o hmem)
    constructor
    · intro q
      by_cases hq : q = o
      · subst hq
        simpa [pending] using hnodup.1
      · have := h.unsettled q
        rw [hpending] at this
        simpa [pending, hq] using this
    · intro q hq
      exact h.lt q (hpending ▸ List.mem_cons_of_mem o hq)
    · exact hnodup.2
    · rintro batch ⟨⟩
      exact h.batch_lt ⟨number, owner, o :: rest⟩ hbatch
    · exact h.flush_lt
    · intro f b hj
      rcases h.joined f b hj with ⟨batch, hb, hnum, hq⟩ | ⟨hne, hb, hs⟩
      · rw [hbatch] at hb
        cases hb
        exact .inl ⟨_, rfl, hnum, hq⟩
      · refine .inr ⟨?_, hb, hupto hs⟩
        rintro batch ⟨⟩
        exact hne ⟨number, owner, o :: rest⟩ hbatch
    · intro f hr
      exact hupto (h.resolved f hr)
  · cases hs

theorem Flushing.through (h : s.Flushing m n) {number owner : ℕ}
    (hbatch : s.writeBehindFlush = some ⟨number, owner, []⟩) :
    Flushing m n { s with writeBehindFlush := none } := by
  have hpending : pending { s with writeBehindFlush := none } = s.pending := by
    simp [pending, hbatch]
  constructor
  · rw [hpending]
    exact h.unsettled
  · rw [hpending]
    exact h.lt
  · rw [hpending]
    exact h.nodup
  · rintro batch ⟨⟩
  · exact h.flush_lt
  · intro f b hj
    right
    rcases h.joined f b hj with ⟨batch, hb, rfl, hq⟩ | ⟨-, hb, hs⟩
    · refine ⟨by rintro batch ⟨⟩, (h.batch_lt batch hb).1, fun o ho hmem => ?_⟩
      rw [hpending] at hmem
      simp only [pending, hbatch, Option.elim_some, List.nil_append] at hmem
      exact hq o ho hmem
    · refine ⟨by rintro batch ⟨⟩, hb, fun o ho hmem => ?_⟩
      exact hs o ho (hpending ▸ hmem)
  · intro f hr o ho hmem
    exact h.resolved f hr o ho (hpending ▸ hmem)

theorem Flushing.resume (h : s.Flushing m n) (hs : s.resumeFlush f = some s') :
    s'.Flushing m n := by
  unfold resumeFlush at hs
  split at hs
  · rename_i b hj
    split at hs
    · cases hs
    rename_i hover
    cases hs
    have hsettled : s.SettledUpTo f := by
      rcases h.joined f b hj with ⟨batch, hbatch, hb, -⟩ | ⟨-, -, hs⟩
      · simp [Option.mem_def.mp hbatch, hb] at hover
      · exact hs
    refine { h with flush_lt := ?_, joined := ?_, resolved := ?_ }
    · intro f' phase hf'
      rcases putFlush_eq_some hf' with ⟨rfl, -⟩ | hold
      · exact h.flush_lt f' _ hj
      · exact h.flush_lt f' phase hold
    · intro f' b' hj'
      rcases putFlush_eq_some hj' with ⟨-, he⟩ | hold
      · cases he
      · exact h.joined f' b' hold
    · intro f' hr
      rcases putFlush_eq_some hr with ⟨rfl, -⟩ | hold
      · exact hsettled
      · exact h.resolved f' hold
  · cases hs

theorem Flushing.mono (h : s.Flushing m n) {m' n' : ℕ} (hm : m ≤ m') (hn : n ≤ n') :
    s.Flushing m' n' where
  __ := h
  lt o ho := (h.lt o ho).trans_le hm
  batch_lt batch hb := (h.batch_lt batch hb).imp (fun hlt => hlt.trans_le hn)
    fun hlt => hlt.trans_le hn
  flush_lt f phase hf := (h.flush_lt f phase hf).trans_le hn
  joined f b hj := (h.joined f b hj).imp_right fun ⟨hne, hb, hs⟩ => ⟨hne, hb.trans_le hn, hs⟩

theorem Flushing.step (h : s.Flushing s.clock s.clock) {a : WriteBehindAction}
    (hok : ¬ s.JoinsBacklog options a) (hs : s.step options a = some s') :
    s'.Flushing s'.clock s'.clock := by
  simp only [WriteBehind.step, Option.map_eq_some_iff] at hs
  obtain ⟨s₁, hact, rfl⟩ := hs
  suffices hnext : s₁.Flushing (s.clock + 1) (s.clock + 1) from { hnext with }
  cases a with
  | enqueue =>
    simp only [act, enqueueWriteBehind] at hact
    split at hact
    · cases hact
    simp only [Option.some.injEq] at hact
    subst hact
    split
    · rename_i hflushes
      have hnone : s.writeBehindFlush = none := by
        by_contra hne
        refine hok ⟨Option.isSome_iff_ne_none.mpr hne, ?_⟩
        simpa using hflushes
      exact h.push.take rfl hnone le_rfl
    · exact h.push.mono le_rfl (Nat.le_succ _)
  | flush =>
    cases hact
    cases hbatch : s.writeBehindFlush with
    | none => exact (h.take rfl hbatch le_rfl).mono (Nat.le_succ _) le_rfl
    | some batch =>
      have hqueue : s.writeBehindQueue = [] := by
        by_contra hne
        exact hok ⟨by simp [hbatch], hne⟩
      unfold flushWriteBehindQueue
      rw [hbatch]
      exact (h.join hbatch hqueue le_rfl).mono (Nat.le_succ _) le_rfl
  | settle => exact (h.settle hact).mono (Nat.le_succ _) (Nat.le_succ _)
  | finish =>
    simp only [act, finishBatch] at hact
    split at hact
    · rename_i number owner hbatch
      cases hact
      have howner : owner < s.clock := (h.batch_lt _ hbatch).2
      exact ((h.through hbatch).take rfl rfl howner.le).mono (Nat.le_succ _) le_rfl
    · cases hact
  | resume f => exact (h.resume hact).mono (Nat.le_succ _) (Nat.le_succ _)

theorem flushing_initial : initial.Flushing initial.clock initial.clock := by
  constructor <;> simp [initial, pending]

/-- A flush that has resolved has seen every operation settle that was enqueued before it was
called, as long as no flush is called on top of a batch with more operations waiting. -/
theorem flush_settles
    (hrun : Reaches (step options) (fun s a => ¬ s.JoinsBacklog options a) initial s)
    (hresolved : s.flushes f = some .resolved) {o : ℕ} {settled : Bool}
    (ho : s.operations o = some settled) (hle : o ≤ f) : settled = true := by
  have h : s.Flushing s.clock s.clock :=
    Reaches.invariant (P := fun s => s.Flushing s.clock s.clock) hrun
      (fun _ _ _ h hok hs => h.step hok hs) flushing_initial
  cases settled with
  | true => rfl
  | false => exact absurd ((h.unsettled o).mp ho) (h.resolved f hresolved o hle)

theorem flush_settles_at_twoBatches :
    ∃ s ∈ run (step ⟨2, 20⟩) initial [.enqueue, .enqueue, .settle, .enqueue, .settle, .finish,
        .flush, .settle, .finish, .resume 6],
      ∀ o ≤ 6, ∀ settled, s.operations o = some settled → settled = true := by
  obtain ⟨s, hs, hresolved⟩ : ∃ s ∈ run (step ⟨2, 20⟩) initial [.enqueue, .enqueue, .settle,
      .enqueue, .settle, .finish, .flush, .settle, .finish, .resume 6],
      s.flushes 6 = some .resolved := by decide +kernel
  have hrun := reaches_of_run (fun s a => ¬ s.JoinsBacklog ⟨2, 20⟩ a) hs (by decide +kernel)
  exact ⟨s, hs, fun o hle settled ho => flush_settles hrun hresolved ho hle⟩

/-- A batch of one is under way and a second operation is waiting when the queue is flushed: the
flush resolves with the first operation. -/
theorem flush_leaves_backlog :
    ∃ s, Reaches (step ⟨100, 1000⟩) (fun _ _ => True) initial s ∧
      s.flushes 3 = some .resolved ∧ s.operations 2 = some false := by
  obtain ⟨s, hs, h⟩ : ∃ s ∈ run (step ⟨100, 1000⟩) initial [.enqueue, .flush, .enqueue, .flush,
      .settle, .finish, .resume 3],
      s.flushes 3 = some .resolved ∧ s.operations 2 = some false := by decide +kernel
  exact ⟨s, reaches_of_run _ hs (by decide +kernel), h⟩

/-- Once the operations of a batch have settled, the queue and the flushes are as before. -/
theorem settle_todo (options : WriteBehindOptions) {number owner : ℕ} {todo : List ℕ}
    (hnodup : s.pending.Nodup) (hbatch : s.writeBehindFlush = some ⟨number, owner, todo⟩) : ∃ s',
      Reaches (step options) (fun _ _ => True) s s' ∧ s.clock ≤ s'.clock ∧
      s'.writeBehindFlush = some ⟨number, owner, []⟩ ∧
      s'.writeBehindQueue = s.writeBehindQueue ∧ s'.flushes = s.flushes ∧
      ∀ o ∈ s.writeBehindQueue, s'.operations o = s.operations o := by
  induction todo generalizing s with
  | nil => exact ⟨s, .refl, le_rfl, hbatch, rfl, rfl, fun _ _ => rfl⟩
  | cons o rest ih =>
    have hpending : s.pending = o :: (rest ++ s.writeBehindQueue) := by simp [pending, hbatch]
    rw [hpending, List.nodup_cons] at hnodup
    obtain ⟨s', hrun, hclock, hb, hq, hf, hops⟩ := ih (s := { s with
        clock := s.clock + 1
        writeBehindFlush := some ⟨number, owner, rest⟩
        operations := Function.update s.operations o (some true) })
      hnodup.2 rfl
    refine ⟨s', .head ⟨.settle, trivial, ?_⟩ hrun, Nat.le_of_succ_le hclock, hb, hq, hf, ?_⟩
    · simp [step, act, settleOperation, hbatch]
    · intro q hmem
      have hne : q ≠ o := by
        rintro rfl
        exact hnodup.1 (List.mem_append_right _ hmem)
      rw [hops q hmem]
      simp [hne]

/-- A flush that is called on top of a batch with more operations waiting can resolve before
one of them has settled. -/
theorem joinsBacklog_leaves_unsettled (h : s.Flushing s.clock s.clock)
    (hjoins : s.JoinsBacklog options .flush) : ∃ s₁ s₂, s.step options .flush = some s₁ ∧
      Reaches (step options) (fun _ _ => True) s₁ s₂ ∧
      s₂.flushes s.clock = some .resolved ∧ ∃ o ≤ s.clock, s₂.operations o = some false := by
  obtain ⟨hsome, hqueue⟩ := hjoins
  obtain ⟨⟨number, owner, todo⟩, hbatch⟩ := Option.isSome_iff_exists.mp hsome
  obtain ⟨hnumber, howner⟩ := h.batch_lt _ hbatch
  have hjoin : s.step options .flush =
      some { s.putFlush s.clock (.joined number) with clock := s.clock + 1 } := by
    simp [step, act, flushWriteBehindQueue, hbatch]
  obtain ⟨s', hrun, hclock, hb, hq, hf, hops⟩ := settle_todo options
    (s := { s.putFlush s.clock (.joined number) with clock := s.clock + 1 }) h.nodup hbatch
  obtain ⟨o, rest, hcons⟩ := List.exists_cons_of_ne_nil hqueue
  have ho : o ∈ s.pending := by simp [pending, hcons]
  have hlate : number ≠ s'.clock := Nat.ne_of_lt (hnumber.trans_le (Nat.le_of_succ_le hclock))
  -- the owner of the batch takes the next one, and the flush that has joined is over
  have hfinish : s'.step options .finish = some { s'.putFlush owner .draining with
      clock := s'.clock + 1
      writeBehindFlush := some ⟨s'.clock, owner, s'.writeBehindQueue.take options.batchSize⟩
      writeBehindQueue := s'.writeBehindQueue.drop options.batchSize } := by
    have hne : s'.writeBehindQueue.isEmpty = false := by
      rw [hq]
      simp [putFlush, hcons]
    simp [step, act, finishBatch, hb, flushWriteBehindQueue, hne, putFlush]
  have hjoined : s'.flushes s.clock = some (.joined number) := by
    rw [hf]
    simp [putFlush]
  have hopen : s'.operations o = some false := by
    rw [hops o (by simp [putFlush, hcons])]
    exact (h.unsettled o).mpr ho
  have hother : s.clock ≠ owner := Nat.ne_of_gt howner
  have hresume : ∀ s₁ : WriteBehind, s₁.flushes s.clock = some (.joined number) →
      (s₁.writeBehindFlush.any fun batch => batch.number = number) = false →
      s₁.step options (.resume s.clock) =
        some { s₁.putFlush s.clock .resolved with clock := s₁.clock + 1 } := by
    intro s₁ hj hover
    simp [step, act, resumeFlush, hj, hover]
  refine ⟨_, _, hjoin, (hrun.tail ⟨.finish, trivial, hfinish⟩).tail
    ⟨.resume s.clock, trivial, hresume _ ?_ ?_⟩, ?_, o, (h.lt o ho).le, hopen⟩
  · simpa [putFlush, hother] using hjoined
  · simpa using hlate.symm
  · simp [putFlush]

end WriteBehind

end LayerCache
