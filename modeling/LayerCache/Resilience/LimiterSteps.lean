import LayerCache.Resilience.LimiterInvariant

/-! # What a step of the limiter can do

Most steps leave the queues and the running tasks as they are, or schedule a drain. The others
are those of a drain, which ends with another drain or with a timer if a queue is left.
-/

namespace LayerCache.FetchRateLimiter

open Transition Counting

variable {s s' : FetchRateLimiter} {key : BucketKey} {item : QueueItem} {i b : ℕ}

/-- Nothing has changed in what waits, runs and has started, nor in the drains to come. -/
structure Calm (s s' : FetchRateLimiter) : Prop where
  now : s'.now = s.now
  starts : s'.starts = s.starts
  isDisposed : s'.isDisposed = s.isDisposed
  queue : ∀ key, s'.queue key = s.queue key
  runningUnder : ∀ key, s'.runningUnder key = s.runningUnder key
  drainTimer : s'.drainTimer = s.drainTimer
  drainScheduled : s'.drainScheduled = s.drainScheduled
  drain : s'.drain = s.drain

structure Wakes (s s' : FetchRateLimiter) : Prop where
  now : s'.now = s.now
  starts : s'.starts = s.starts
  isDisposed : s'.isDisposed = s.isDisposed
  drainScheduled : s.isDisposed = false → s'.drainScheduled = true

structure Starting (s s' : FetchRateLimiter) (act : LimiterAction) (item : QueueItem) (b : ℕ) :
    Prop where
  visit : act = .visit
  drain : ∃ drain todo, s.drain = some drain ∧ drain.todo = item.bucketKey :: todo ∧
    ∃ queue, s.queue item.bucketKey = item :: queue ∧
      s' = { s.startTask b (waitTime (s.bucketAt b) s.now item.options).2 item queue with
        drain := some { drain with todo, startedWork := true } }
  live : s.isDisposed = false
  bucket : s.buckets.get item.bucketKey = some b
  waitTime : (waitTime (s.bucketAt b) s.now item.options).1 ≤ 0

/-- The head of a queue that a drain has visited has to wait. -/
structure Waiting (s s' : FetchRateLimiter) (item : QueueItem) (b : ℕ) : Prop where
  drain : ∃ drain todo, s.drain = some drain ∧ drain.todo = item.bucketKey :: todo ∧
    let (waitMs, bucket) := waitTime (s.bucketAt b) s.now item.options
    0 < waitMs ∧ s' = { s.putBucket b bucket with
      drain := some { drain with
        todo, nextWaitMs := some (drain.nextWaitMs.elim waitMs (min · waitMs)) } }
  head : (s.queue item.bucketKey).head? = some item
  live : s.isDisposed = false
  bucket : s.buckets.get item.bucketKey = some b

inductive Outcome (s : FetchRateLimiter) (act : LimiterAction) (s' : FetchRateLimiter) : Prop
  | tick (hdrain : s.drain = none) (hs : s' = { s with now := s.now + 1 })
  | calm (h : Calm s s')
  | wakes (h : Wakes s s')
  | begin (scheduled : Bool) (hs : s' = { s with
      drainTimer := none
      drainScheduled := scheduled
      drain := some ⟨s.pendingBuckets, none, false⟩ })
  | skip (drain : Drain) (key : BucketKey) (todo : List BucketKey) (hdrain : s.drain = some drain)
      (htodo : drain.todo = key :: todo) (hqueue : s.queue key = [])
      (hs : s' = { s with
        pendingBuckets := s.pendingBuckets.filter (· ≠ key)
        queuesByBucket := s.queuesByBucket.delete key
        drain := some { drain with todo } })
  | wait (item : QueueItem) (b : ℕ) (h : Waiting s s' item b)
  | start (item : QueueItem) (b : ℕ) (h : Starting s s' act item b)
  | finish (drain : Drain) (hdrain : s.drain = some drain) (htodo : drain.todo = [])
      (hs : s' = if s.pendingBuckets = [] then { s with drain := none }
        else { s with drain := none }.scheduleDrain
          (if drain.startedWork then some 0 else drain.nextWaitMs))
  | dispose (hs : s' = s.dispose)

theorem Wakes.scheduleDrain (hnow : s'.now = s.now) (hstarts : s'.starts = s.starts)
    (hdisposed : s'.isDisposed = s.isDisposed) : Wakes s (s'.scheduleDrain (some 0)) := by
  obtain ⟨timer, scheduled, hs⟩ := scheduleDrain_spec s' (some 0)
  refine ⟨by rw [hs, ← hnow], by rw [hs, ← hstarts], by rw [hs, ← hdisposed], fun hlive => ?_⟩
  unfold FetchRateLimiter.scheduleDrain
  simp [hdisposed, hlive]

theorem runsUnder_eq_zero {task : Option TaskState} (h : ∀ item b, task ≠ some (.running item b))
    (key : BucketKey) : runsUnder key task = 0 := by
  cases task with
  | none => rfl
  | some task =>
    cases task with
    | running item b => exact absurd rfl (h item b)
    | _ => rfl

theorem runningUnder_schedule {task : Option TaskState} {nextTask : ℕ}
    {tasks : ℕ → Option TaskState}
    (hnext : nextTask = s.nextTask + 1) (htasks : tasks = Function.update s.tasks s.nextTask task)
    (htask : ∀ item b, task ≠ some (.running item b)) (key : BucketKey) :
    total nextTask tasks (runsUnder key) = s.runningUnder key := by
  subst hnext htasks
  rw [total_succ_update, runsUnder_eq_zero htask]
  rfl

theorem Inv.schedule_cases (h : s.Inv) (options : Option CacheRateLimitOptions)
    (context : ScheduleContext) :
    Calm s (s.schedule options context) ∨ Wakes s (s.schedule options context) := by
  have hcalm : ∀ {t : FetchRateLimiter} {task : TaskState},
      Same { s with nextTask := s.nextTask + 1 } t → (task = .free ∨ task = .rejected) →
      Calm s (t.putTask s.nextTask task) := by
    intro t task hsame htask
    refine ⟨hsame.now, hsame.starts, hsame.isDisposed, hsame.queue, fun key => ?_,
      hsame.drainTimer, hsame.drainScheduled, hsame.drain⟩
    apply runningUnder_schedule hsame.nextTask
    · exact congrArg (Function.update · s.nextTask (some task)) hsame.tasks
    · rcases htask with rfl | rfl <;> simp
  cases h.scheduled options context with
  | free t bypasses _ hsame hs =>
    rw [hs]
    exact .inl { hcalm hsame (.inl rfl) with }
  | reject t _ hsame hs =>
    rw [hs]
    exact .inl { hcalm hsame (.inr rfl) with }
  | enqueue t item b _ hsame _ _ _ hs =>
    rw [hs]
    exact .inr (.scheduleDrain hsame.now hsame.starts hsame.isDisposed)

theorem cleanupBucket_frame (intervalMs : Option Millis) :
    (s.cleanupBucket key b intervalMs).now = s.now ∧
      (s.cleanupBucket key b intervalMs).starts = s.starts ∧
      (s.cleanupBucket key b intervalMs).isDisposed = s.isDisposed := by
  unfold FetchRateLimiter.cleanupBucket
  simp only
  split
  · exact ⟨rfl, rfl, rfl⟩
  · split
    · exact ⟨rfl, rfl, rfl⟩
    · split
      · exact ⟨rfl, rfl, rfl⟩
      · exact ⟨rfl, rfl, rfl⟩

theorem Inv.settle_cases (h : s.Inv) (hs : s.settle i = some s') : Calm s s' ∨ Wakes s s' := by
  unfold FetchRateLimiter.settle at hs
  cases htask : s.tasks i with
  | none =>
    rw [htask] at hs
    cases hs
  | some task =>
    rw [htask] at hs
    cases task with
    | running item b =>
      cases hs
      right
      apply Wakes.scheduleDrain
      · rw [(cleanupBucket_frame _).1]
        split <;> rfl
      · rw [(cleanupBucket_frame _).2.1]
        split <;> rfl
      · rw [(cleanupBucket_frame _).2.2]
        split <;> rfl
    | free =>
      cases hs
      refine .inl ⟨rfl, rfl, rfl, fun _ => rfl, fun key => ?_, rfl, rfl, rfl⟩
      have hsum := total_update (h.numbered i (by simp [htask])) s.tasks (some .settled)
        (runsUnder key)
      rw [htask] at hsum
      exact hsum
    | _ => cases hs

theorem fireCleanup_calm (hs : s.fireCleanup b = some s') : Calm s s' := by
  obtain ⟨⟨key, intervalMs⟩, -, rfl⟩ := Option.map_eq_some_iff.mp hs
  simp only
  split
  · rename_i hidle
    refine ⟨rfl, rfl, rfl, fun k => ?_, fun _ => rfl, rfl, rfl, rfl⟩
    exact queue_delete_of_nil hidle.2.2 k
  · exact ⟨rfl, rfl, rfl, fun _ => rfl, fun _ => rfl, rfl, rfl, rfl⟩

theorem Inv.visit_cases (h : s.Inv) (hs : s.visit = some s') :
    (∃ drain key todo, s.drain = some drain ∧ drain.todo = key :: todo ∧ s.queue key = [] ∧
      s' = { s with
        pendingBuckets := s.pendingBuckets.filter (· ≠ key)
        queuesByBucket := s.queuesByBucket.delete key
        drain := some { drain with todo } }) ∨
      (∃ item b, Waiting s s' item b) ∨ ∃ item b, Starting s s' .visit item b := by
  unfold FetchRateLimiter.visit at hs
  cases hdrain : s.drain with
  | none =>
    rw [hdrain] at hs
    cases hs
  | some drain =>
    rw [hdrain, Option.bind_some] at hs
    cases htodo : drain.todo with
    | nil =>
      rw [htodo] at hs
      cases hs
    | cons key todo =>
      rw [htodo] at hs
      cases hs
      rcases h.visitBucket_cases drain key todo with ⟨hqueue, hs⟩ | ⟨item, queue, b, hqueue, rfl,
        hlive, hb, hs⟩
      · exact .inl ⟨drain, key, todo, rfl, htodo, hqueue, hs⟩
      · rcases hs with ⟨hwait, hs⟩ | ⟨hwait, hs⟩
        · exact .inr (.inl ⟨item, b, ⟨drain, todo, hdrain, htodo, hwait, hs⟩, by simp [hqueue],
            hlive,
            hb⟩)
        · exact .inr (.inr ⟨item, b, rfl, ⟨drain, todo, hdrain, htodo, queue, hqueue, hs⟩, hlive,
            hb,
            not_lt.mp hwait⟩)

theorem endDrain_cases (hs : s.endDrain = some s') :
    ∃ drain, s.drain = some drain ∧ drain.todo = [] ∧
      s' = if s.pendingBuckets = [] then { s with drain := none }
        else { s with drain := none }.scheduleDrain
          (if drain.startedWork then some 0 else drain.nextWaitMs) := by
  unfold FetchRateLimiter.endDrain at hs
  cases hdrain : s.drain with
  | none =>
    rw [hdrain] at hs
    cases hs
  | some drain =>
    rw [hdrain, Option.bind_some] at hs
    cases htodo : drain.todo with
    | nil =>
      rw [htodo] at hs
      cases hs
      exact ⟨drain, rfl, htodo, rfl⟩
    | cons key todo =>
      rw [htodo] at hs
      cases hs

theorem Inv.step_cases {act : LimiterAction} (h : s.Inv) (hs : s.step act = some s') :
    Outcome s act s' := by
  cases act with
  | tick =>
    simp only [FetchRateLimiter.step] at hs
    split at hs
    · rename_i hdrain
      cases hs
      exact .tick (Option.isNone_iff_eq_none.mp hdrain) rfl
    · cases hs
  | schedule options context =>
    cases hs
    rcases h.schedule_cases options context with hcalm | hwakes
    · exact .calm hcalm
    · exact .wakes hwakes
  | runDrain =>
    simp only [FetchRateLimiter.step] at hs
    split at hs
    · cases hs
      exact .begin false rfl
    · cases hs
  | fireTimer =>
    simp only [FetchRateLimiter.step] at hs
    split at hs
    · cases hs
      exact .begin s.drainScheduled rfl
    · cases hs
  | visit =>
    rcases h.visit_cases hs with ⟨drain, key, todo, hdrain, htodo, hqueue, hs⟩ |
      ⟨item, b, hwaiting⟩ |
      ⟨item, b, hstart⟩
    · exact .skip drain key todo hdrain htodo hqueue hs
    · exact .wait item b hwaiting
    · exact .start item b hstart
  | endDrain =>
    obtain ⟨drain, hdrain, htodo, hs⟩ := endDrain_cases hs
    exact .finish drain hdrain htodo hs
  | settle i =>
    simp only [FetchRateLimiter.step] at hs
    split at hs
    · rcases h.settle_cases hs with hcalm | hwakes
      · exact .calm hcalm
      · exact .wakes hwakes
    · cases hs
  | fireCleanup b =>
    simp only [FetchRateLimiter.step] at hs
    split at hs
    · exact .calm (fireCleanup_calm hs)
    · cases hs
  | dispose =>
    cases hs
    exact .dispose rfl

theorem Starting.starts {act : LimiterAction} (h : Starting s s' act item b) :
    s'.starts = s.starts ++ [⟨item, s.now⟩] := by
  obtain ⟨-, -, -, -, -, -, rfl⟩ := h.drain
  rfl

theorem Starting.now {act : LimiterAction} (h : Starting s s' act item b) : s'.now = s.now := by
  obtain ⟨-, -, -, -, -, -, rfl⟩ := h.drain
  rfl

/-- Only the visit of a bucket starts a task, and disposing is for good. -/
theorem Inv.starts_step {act : LimiterAction} (h : s.Inv) (hs : s.step act = some s') :
    s'.starts = s.starts ∧ s.now ≤ s'.now ∧ (s.isDisposed = true → s'.isDisposed = true) ∨
      ∃ item b, Starting s s' act item b := by
  cases h.step_cases hs with
  | tick hdrain hs =>
    subst hs
    exact .inl ⟨rfl, Nat.le_succ _, id⟩
  | calm hcalm => exact .inl ⟨hcalm.starts, hcalm.now.ge, (hcalm.isDisposed.trans ·)⟩
  | wakes hwakes => exact .inl ⟨hwakes.starts, hwakes.now.ge, (hwakes.isDisposed.trans ·)⟩
  | begin scheduled hs =>
    subst hs
    exact .inl ⟨rfl, Nat.le_refl _, id⟩
  | skip drain key todo hdrain htodo hqueue hs =>
    subst hs
    exact .inl ⟨rfl, Nat.le_refl _, id⟩
  | wait item b hwaiting =>
    obtain ⟨drain, todo, -, -, -, rfl⟩ := hwaiting.drain
    exact .inl ⟨rfl, Nat.le_refl _, id⟩
  | start item b hstart => exact .inr ⟨item, b, hstart⟩
  | finish drain hdrain htodo hs =>
    subst hs
    split
    · exact .inl ⟨rfl, Nat.le_refl _, id⟩
    · obtain ⟨timer, scheduled, hs⟩ := scheduleDrain_spec { s with drain := none }
        (if drain.startedWork then some 0 else drain.nextWaitMs)
      rw [hs]
      exact .inl ⟨rfl, Nat.le_refl _, id⟩
  | dispose hs =>
    subst hs
    exact .inl ⟨rfl, Nat.le_refl _, fun _ => rfl⟩

/-- How a step can change a task that has been scheduled. -/
inductive TaskStep : Option TaskState → Option TaskState → Prop
  | same (task : Option TaskState) : TaskStep task task
  | started (item : QueueItem) (b : ℕ) : TaskStep (some (.queued item)) (some (.running item b))
  | rejected (item : QueueItem) : TaskStep (some (.queued item)) (some .rejected)
  | settled (task : Option TaskState) : TaskStep task (some .settled)

theorem tasks_scheduleDrain (delayMs : Option Millis) :
    (s.scheduleDrain delayMs).tasks = s.tasks := by
  obtain ⟨timer, scheduled, hs⟩ := scheduleDrain_spec s delayMs
  rw [hs]

theorem Inv.tasks_schedule (h : s.Inv) (options : Option CacheRateLimitOptions)
    (context : ScheduleContext) (hi : i ≠ s.nextTask) :
    (s.schedule options context).tasks i = s.tasks i := by
  have hput : ∀ {t : FetchRateLimiter} {task : TaskState},
      Same { s with nextTask := s.nextTask + 1 } t →
      Function.update t.tasks s.nextTask (some task) i = s.tasks i :=
    fun hsame => (Function.update_of_ne hi _ _).trans (congrFun hsame.tasks i)
  cases h.scheduled options context with
  | free t bypasses _ hsame hs =>
    rw [hs]
    exact hput hsame
  | reject t _ hsame hs =>
    rw [hs]
    exact hput hsame
  | enqueue t item b _ hsame _ htask _ hs =>
    rw [hs, FetchRateLimiter.enqueue, tasks_scheduleDrain, htask]
    exact hput hsame

theorem tasks_cleanupBucket (intervalMs : Option Millis) :
    (s.cleanupBucket key b intervalMs).tasks = s.tasks := by
  unfold FetchRateLimiter.cleanupBucket
  simp only
  split
  · rfl
  · split
    · rfl
    · split <;> rfl

theorem taskStep_settle {j : ℕ} (hs : s.settle j = some s') :
    TaskStep (s.tasks i) (s'.tasks i) := by
  have hput : ∀ {tasks : ℕ → Option TaskState},
      tasks = Function.update s.tasks j (some .settled) → TaskStep (s.tasks i) (tasks i) := by
    rintro _ rfl
    by_cases hij : i = j
    · subst hij
      rw [Function.update_self]
      exact .settled _
    · rw [Function.update_of_ne hij]
      exact .same _
  unfold FetchRateLimiter.settle at hs
  split at hs
  · cases hs
    apply hput
    rw [tasks_scheduleDrain, tasks_cleanupBucket]
    split <;> rfl
  · cases hs
    exact hput rfl
  · cases hs

theorem Inv.taskStep {act : LimiterAction} (h : s.Inv)
    (hact : ∀ options context, act ≠ .schedule options context) (hs : s.step act = some s') :
    TaskStep (s.tasks i) (s'.tasks i) := by
  cases act with
  | tick =>
    simp only [FetchRateLimiter.step] at hs
    split at hs
    · cases hs
      exact .same _
    · cases hs
  | schedule options context => exact absurd rfl (hact options context)
  | runDrain =>
    simp only [FetchRateLimiter.step] at hs
    split at hs
    · cases hs
      exact .same _
    · cases hs
  | fireTimer =>
    simp only [FetchRateLimiter.step] at hs
    split at hs
    · cases hs
      exact .same _
    · cases hs
  | visit =>
    rcases h.visit_cases hs with ⟨drain, key, todo, -, -, -, rfl⟩ | ⟨item, b, hwaiting⟩ |
      ⟨item, b, hstart⟩
    · exact .same _
    · obtain ⟨-, -, -, -, -, rfl⟩ := hwaiting.drain
      exact .same _
    · obtain ⟨-, -, -, -, queue, hqueue, rfl⟩ := hstart.drain
      have hqueued := (h.queued _ item (hqueue ▸ List.mem_cons_self)).2
      change TaskStep (s.tasks i) (Function.update s.tasks item.task (some (.running item b)) i)
      by_cases hi : i = item.task
      · subst hi
        rw [hqueued, Function.update_self]
        exact .started item b
      · rw [Function.update_of_ne hi]
        exact .same _
  | endDrain =>
    obtain ⟨drain, -, -, rfl⟩ := endDrain_cases hs
    split
    · exact .same _
    · rw [tasks_scheduleDrain]
      exact .same _
  | settle j =>
    simp only [FetchRateLimiter.step] at hs
    split at hs
    · exact taskStep_settle hs
    · cases hs
  | fireCleanup c =>
    simp only [FetchRateLimiter.step] at hs
    split at hs
    · obtain ⟨⟨key, intervalMs⟩, -, rfl⟩ := Option.map_eq_some_iff.mp hs
      simp only
      split <;> exact .same _
    · cases hs
  | dispose =>
    cases hs
    by_cases hqueued : ∃ item, s.tasks i = some (.queued item)
    · obtain ⟨item, hitem⟩ := hqueued
      rw [hitem, h.tasks_dispose_of_queued hitem]
      exact .rejected item
    · rw [h.tasks_dispose_of_ne (not_exists.mp hqueued)]
      exact .same _

end LayerCache.FetchRateLimiter
