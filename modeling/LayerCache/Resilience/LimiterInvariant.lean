import LayerCache.Collections.Counting
import LayerCache.Resilience.FetchRateLimiter
import Mathlib.Data.List.TakeWhile

/-! # What holds of a limiter in all runs

The queues have the queued tasks in order, the buckets count the running ones, and the start
times that a bucket still has are the last of those that its key ever had.
-/

namespace LayerCache.FetchRateLimiter

open Transition Counting

def runsIn (b : ℕ) : Option TaskState → ℕ
  | some (.running _ b') => if b' = b then 1 else 0
  | _ => 0

def runsUnder (key : BucketKey) : Option TaskState → ℕ
  | some (.running item _) => if item.bucketKey = key then 1 else 0
  | _ => 0

/-- The running tasks of a bucket object, and of a bucket by its key. -/
def runningIn (s : FetchRateLimiter) (b : ℕ) : ℕ := total s.nextTask s.tasks (runsIn b)

def runningUnder (s : FetchRateLimiter) (key : BucketKey) : ℕ :=
  total s.nextTask s.tasks (runsUnder key)

/-- A start that counts towards the interval limit of the bucket. -/
def Start.counts (key : BucketKey) (e : Start) : Bool :=
  e.item.bucketKey = key && e.item.options.interval.isSome

def times (s : FetchRateLimiter) (key : BucketKey) : List ℕ :=
  (s.starts.filter (Start.counts key)).map Start.time

structure Inv (s : FetchRateLimiter) : Prop where
  queue_ne : ∀ key, s.queuesByBucket.get key ≠ some []
  queued : ∀ key, ∀ item ∈ s.queue key,
    item.bucketKey = key ∧ s.tasks item.task = some (.queued item)
  enqueued : ∀ i item, s.tasks i = some (.queued item) →
    item.task = i ∧ item ∈ s.queue item.bucketKey
  sorted : ∀ key, (s.queue key).Pairwise fun a b => a.task < b.task
  pending : ∀ key, s.queue key ≠ [] → key ∈ s.pendingBuckets
  numbered : ∀ i, s.tasks i ≠ none → i < s.nextTask
  running : ∀ i item b, s.tasks i = some (.running item b) →
    item.task = i ∧ b < s.nextBucket ∧
      (s.isDisposed = false → s.buckets.get item.bucketKey = some b)
  bucket_lt : ∀ key b, s.buckets.get key = some b → b < s.nextBucket
  bucket_inj : ∀ key key' b, s.buckets.get key = some b → s.buckets.get key' = some b → key = key'
  queue_bucket : ∀ key, s.queue key ≠ [] → ∃ b, s.buckets.get key = some b
  active : ∀ b, (s.bucketAt b).active = s.runningIn b
  cleanup : ∀ b key intervalMs, (s.bucketAt b).cleanupTimer = some (key, intervalMs) →
    (s.bucketAt b).startedAt ≠ [] ∧ (s.isDisposed = false → s.buckets.get key = some b)
  disposed : s.isDisposed = true → ∀ key, s.queue key = [] ∧ s.buckets.get key = none
  started_at : ∀ e ∈ s.starts, e.time ≤ s.now
  chronological : s.starts.Pairwise fun a b => a.time ≤ b.time
  ordered : s.starts.Pairwise fun a b =>
    a.item.bucketKey = b.item.bucketKey → a.item.task < b.item.task
  once : (s.starts.map fun e => e.item.task).Nodup
  started : ∀ e ∈ s.starts, (∃ b, s.tasks e.item.task = some (.running e.item b)) ∨
    s.tasks e.item.task = some .settled
  recorded : ∀ i item b, s.tasks i = some (.running item b) → ∃ e ∈ s.starts, e.item = item
  started_before : ∀ e ∈ s.starts, ∀ item ∈ s.queue e.item.bucketKey, e.item.task < item.task
  rejected : ∀ i, i ∈ s.rejections ↔ s.tasks i = some .rejected
  rejections_nodup : s.rejections.Nodup
  window : ∀ key b, s.buckets.get key = some b → (s.bucketAt b).startedAt <:+ s.times key

theorem inv_initial (now : ℕ) : (initial now).Inv where
  queue_ne _ := by simp [initial]
  queued _ _ h := nomatch h
  enqueued _ _ h := nomatch h
  sorted _ := .nil
  pending _ h := absurd rfl h
  numbered _ h := absurd rfl h
  running _ _ _ h := nomatch h
  bucket_lt _ _ h := nomatch h
  bucket_inj _ _ _ h := nomatch h
  queue_bucket _ h := absurd rfl h
  active _ := rfl
  cleanup _ _ _ h := nomatch h
  disposed h := nomatch h
  started_at _ h := nomatch h
  chronological := .nil
  ordered := .nil
  once := .nil
  started _ h := nomatch h
  recorded _ _ _ h := nomatch h
  started_before _ h := nomatch h
  rejected _ := by simp [initial]
  rejections_nodup := .nil
  window _ _ h := nomatch h

variable {s s' : FetchRateLimiter} {key : BucketKey} {item : QueueItem} {i b : ℕ}

theorem queue_delete_of_nil (h : s.queue key = []) (k : BucketKey) :
    ((s.queuesByBucket.delete key).get k).getD [] = s.queue k := by
  by_cases hk : k = key
  · subst hk
    rw [OrderedMap.get_delete_self, h]
    rfl
  · rw [OrderedMap.get_delete_of_ne hk]
    rfl

theorem scheduleDrain_spec (s : FetchRateLimiter) (delayMs : Option Millis) :
    ∃ timer scheduled, s.scheduleDrain delayMs =
      { s with drainTimer := timer, drainScheduled := scheduled } := by
  unfold scheduleDrain
  split
  · exact ⟨_, _, rfl⟩
  · split
    · exact ⟨_, _, rfl⟩
    · split
      · exact ⟨_, _, rfl⟩
      · split
        · exact ⟨_, _, rfl⟩
        · simp only
          split
          · exact ⟨_, _, rfl⟩
          · exact ⟨_, _, rfl⟩

theorem Inv.scheduleDrain (h : s.Inv) (delayMs : Option Millis) :
    (s.scheduleDrain delayMs).Inv := by
  obtain ⟨timer, scheduled, hs⟩ := scheduleDrain_spec s delayMs
  rw [hs]
  exact { h with }

theorem Inv.addPending (h : s.Inv) (key : BucketKey) : (s.addPending key).Inv where
  __ := h
  pending k hk := by
    have hmem := h.pending k hk
    unfold FetchRateLimiter.addPending
    simp only
    split
    · exact hmem
    · exact List.mem_append_left _ hmem

theorem Inv.dropQueue (h : s.Inv) (hqueue : s.queue key = []) :
    Inv { s with
      pendingBuckets := s.pendingBuckets.filter (· ≠ key)
      queuesByBucket := s.queuesByBucket.delete key } := by
  have hq : ∀ k, ((s.queuesByBucket.delete key).get k).getD [] = s.queue k :=
    queue_delete_of_nil hqueue
  exact {
    h with
    queue_ne := fun k => by
      by_cases hk : k = key
      · subst hk
        simp
      · simp only [OrderedMap.get_delete_of_ne hk]
        exact h.queue_ne k
    queued := fun k item hitem => h.queued k item (hq k ▸ hitem)
    enqueued := fun i item hi => by
      rw [queue, hq]
      exact h.enqueued i item hi
    sorted := fun k => by
      rw [queue, hq]
      exact h.sorted k
    pending := fun k hk => by
      rw [queue, hq] at hk
      refine List.mem_filter.mpr ⟨h.pending k hk, ?_⟩
      simp only [decide_eq_true_eq]
      rintro rfl
      exact hk hqueue
    queue_bucket := fun k hk => by
      rw [queue, hq] at hk
      exact h.queue_bucket k hk
    disposed := fun hdisposed k => by
      rw [queue, hq]
      exact h.disposed hdisposed k
    started_before := fun e he item hitem => h.started_before e he item (hq _ ▸ hitem) }

theorem Inv.dropBucket (h : s.Inv) (hqueue : s.queue key = [])
    (hidle : ∀ b, s.buckets.get key = some b →
      (s.bucketAt b).active = 0 ∧ (s.bucketAt b).startedAt = []) :
    (s.dropBucket key).Inv := by
  have hget : ∀ {k b}, (s.buckets.delete key).get k = some b →
      k ≠ key ∧ s.buckets.get k = some b := by
    intro k b hk
    by_cases hkey : k = key
    · subst hkey
      rw [OrderedMap.get_delete_self] at hk
      cases hk
    · rw [OrderedMap.get_delete_of_ne hkey] at hk
      exact ⟨hkey, hk⟩
  have hold : ∀ {k b}, k ≠ key → s.buckets.get k = some b →
      (s.buckets.delete key).get k = some b := by
    intro k b hkey hk
    rwa [OrderedMap.get_delete_of_ne hkey]
  have hdropped := h.dropQueue hqueue
  exact {
    hdropped with
    running := fun i item b hrun => by
      have hi : s.tasks i = some (.running item b) := hrun
      obtain ⟨htask, hlt, hbucket⟩ := h.running i item b hi
      refine ⟨htask, hlt, fun hlive => hold ?_ (hbucket hlive)⟩
      rintro rfl
      have hle := le_total (g := s.tasks) (h.numbered i (by simp [hi])) (runsIn b)
      have hzero := (hidle b (hbucket hlive)).1
      rw [h.active b] at hzero
      simp only [hi, runsIn, if_true] at hle
      unfold runningIn at hzero
      omega
    bucket_lt := fun k b hk => h.bucket_lt k b (hget hk).2
    bucket_inj := fun k k' b hk hk' => h.bucket_inj k k' b (hget hk).2 (hget hk').2
    queue_bucket := fun k hk => by
      obtain ⟨b, hb⟩ := hdropped.queue_bucket k hk
      refine ⟨b, hold ?_ hb⟩
      rintro rfl
      exact hk ((queue_delete_of_nil hqueue k).trans hqueue)
    cleanup := fun b k intervalMs hb => by
      obtain ⟨hstarted, hbucket⟩ := h.cleanup b k intervalMs hb
      refine ⟨hstarted, fun hlive => hold ?_ (hbucket hlive)⟩
      rintro rfl
      exact hstarted (hidle b (hbucket hlive)).2
    disposed := fun hdisposed k => by
      refine ⟨(hdropped.disposed hdisposed k).1, ?_⟩
      by_cases hk : k = key
      · subst hk
        exact OrderedMap.get_delete_self
      · exact (OrderedMap.get_delete_of_ne hk).trans (h.disposed hdisposed k).2
    window := fun k b hk => h.window k b (hget hk).2 }

theorem prune_suffix (startedAt : List ℕ) (now : ℕ) (intervalMs : Millis) :
    prune startedAt now intervalMs <:+ startedAt :=
  List.dropWhile_suffix _

theorem Inv.times_sorted (h : s.Inv) (key : BucketKey) : (s.times key).Pairwise (· ≤ ·) :=
  List.pairwise_map.mpr (h.chronological.sublist List.filter_sublist)

/-- What is kept of a bucket are its running tasks and the last of its start times. -/
theorem Inv.putBucket (h : s.Inv) {bucket : BucketState}
    (hactive : bucket.active = (s.bucketAt b).active)
    (hstarted : bucket.startedAt <:+ (s.bucketAt b).startedAt)
    (hcleanup : ∀ key intervalMs, bucket.cleanupTimer = some (key, intervalMs) →
      bucket.startedAt ≠ [] ∧ (s.isDisposed = false → s.buckets.get key = some b)) :
    (s.putBucket b bucket).Inv where
  __ := h
  active c := by
    by_cases hc : c = b
    · subst hc
      simp only [FetchRateLimiter.putBucket, Function.update_self]
      exact hactive.trans (h.active c)
    · simp only [FetchRateLimiter.putBucket, Function.update_of_ne hc]
      exact h.active c
  cleanup c k intervalMs hc := by
    by_cases hcb : c = b
    · subst hcb
      simp only [FetchRateLimiter.putBucket, Function.update_self] at hc ⊢
      exact hcleanup k intervalMs hc
    · simp only [FetchRateLimiter.putBucket, Function.update_of_ne hcb] at hc ⊢
      exact h.cleanup c k intervalMs hc
  window k c hk := by
    by_cases hc : c = b
    · subst hc
      simp only [FetchRateLimiter.putBucket, Function.update_self]
      exact hstarted.trans (h.window k c hk)
    · simp only [FetchRateLimiter.putBucket, Function.update_of_ne hc]
      exact h.window k c hk

theorem Inv.runningIn_of_le (h : s.Inv) (hb : s.nextBucket ≤ b) : s.runningIn b = 0 := by
  apply total_eq_zero
  intro i hi
  cases htask : s.tasks i with
  | none => rfl
  | some task =>
    cases task with
    | running item b' =>
      have hlt := (h.running i item b' htask).2.1
      rw [runsIn, if_neg (by omega)]
    | _ => rfl

theorem Inv.newBucket (h : s.Inv) (hlive : s.isDisposed = false)
    (hget : s.buckets.get key = none) : (s.newBucket key).2.Inv := by
  have hold : ∀ {k b}, s.buckets.get k = some b →
      (s.buckets.set key s.nextBucket).get k = some b := by
    intro k b hk
    have hne : k ≠ key := by
      rintro rfl
      rw [hget] at hk
      cases hk
    rwa [OrderedMap.get_set_of_ne hne]
  have hcases : ∀ {k b}, (s.buckets.set key s.nextBucket).get k = some b →
      k = key ∧ b = s.nextBucket ∨ s.buckets.get k = some b := by
    intro k b hk
    by_cases hkey : k = key
    · subst hkey
      rw [OrderedMap.get_set_self] at hk
      exact .inl ⟨rfl, (Option.some.inj hk).symm⟩
    · rw [OrderedMap.get_set_of_ne hkey] at hk
      exact .inr hk
  exact {
    h with
    running := fun i item b hi => by
      obtain ⟨htask, hlt, hbucket⟩ := h.running i item b hi
      exact ⟨htask, Nat.lt_succ_of_lt hlt, fun hdisposed => hold (hbucket hdisposed)⟩
    bucket_lt := fun k b hk => by
      rcases hcases hk with ⟨-, rfl⟩ | hk
      · exact Nat.lt_succ_self _
      · exact Nat.lt_succ_of_lt (h.bucket_lt k b hk)
    bucket_inj := fun k k' b hk hk' => by
      rcases hcases hk with ⟨rfl, rfl⟩ | hold
      · rcases hcases hk' with ⟨rfl, -⟩ | hold'
        · rfl
        · exact absurd (h.bucket_lt k' _ hold') (Nat.lt_irrefl _)
      · rcases hcases hk' with ⟨rfl, rfl⟩ | hold'
        · exact absurd (h.bucket_lt k _ hold) (Nat.lt_irrefl _)
        · exact h.bucket_inj k k' b hold hold'
    queue_bucket := fun k hk => by
      obtain ⟨b, hb⟩ := h.queue_bucket k hk
      exact ⟨b, hold hb⟩
    active := fun c => by
      by_cases hc : c = s.nextBucket
      · subst hc
        simp only [FetchRateLimiter.newBucket, Function.update_self]
        exact (h.runningIn_of_le (Nat.le_refl _)).symm
      · simp only [FetchRateLimiter.newBucket, Function.update_of_ne hc]
        exact h.active c
    cleanup := fun c k intervalMs hc => by
      by_cases hcb : c = s.nextBucket
      · subst hcb
        simp only [FetchRateLimiter.newBucket, Function.update_self] at hc
        cases hc
      · simp only [FetchRateLimiter.newBucket, Function.update_of_ne hcb] at hc ⊢
        obtain ⟨hstarted, hbucket⟩ := h.cleanup c k intervalMs hc
        exact ⟨hstarted, fun hlive => hold (hbucket hlive)⟩
    disposed := fun hdisposed => by
      have hdisposed : s.isDisposed = true := hdisposed
      rw [hlive] at hdisposed
      cases hdisposed
    window := fun k b hk => by
      rcases hcases hk with ⟨rfl, rfl⟩ | hk
      · simp only [FetchRateLimiter.newBucket, Function.update_self]
        exact List.nil_suffix
      · have hne : b ≠ s.nextBucket := Nat.ne_of_lt (h.bucket_lt k b hk)
        simp only [FetchRateLimiter.newBucket, Function.update_of_ne hne]
        exact h.window k b hk }

structure Same (s s' : FetchRateLimiter) : Prop where
  now : s'.now = s.now
  nextTask : s'.nextTask = s.nextTask
  tasks : s'.tasks = s.tasks
  starts : s'.starts = s.starts
  rejections : s'.rejections = s.rejections
  queue : ∀ key, s'.queue key = s.queue key
  isDisposed : s'.isDisposed = s.isDisposed
  drain : s'.drain = s.drain
  drainTimer : s'.drainTimer = s.drainTimer
  drainScheduled : s'.drainScheduled = s.drainScheduled

theorem Same.refl (s : FetchRateLimiter) : Same s s := ⟨rfl, rfl, rfl, rfl, rfl, fun _ => rfl, rfl,
  rfl, rfl, rfl⟩

theorem Same.trans {s₁ s₂ s₃ : FetchRateLimiter} (h : Same s₁ s₂) (h' : Same s₂ s₃) :
    Same s₁ s₃ where
  now := h'.now.trans h.now
  nextTask := h'.nextTask.trans h.nextTask
  tasks := h'.tasks.trans h.tasks
  starts := h'.starts.trans h.starts
  rejections := h'.rejections.trans h.rejections
  queue key := (h'.queue key).trans (h.queue key)
  isDisposed := h'.isDisposed.trans h.isDisposed
  drain := h'.drain.trans h.drain
  drainTimer := h'.drainTimer.trans h.drainTimer
  drainScheduled := h'.drainScheduled.trans h.drainScheduled

theorem same_dropBucket (hqueue : s.queue key = []) : Same s (s.dropBucket key) := ⟨rfl, rfl, rfl,
  rfl, rfl, queue_delete_of_nil hqueue, rfl, rfl, rfl, rfl⟩

theorem queue_of_not_mem (h : key ∉ s.queuesByBucket.keys) : s.queue key = [] := by
  rw [queue, OrderedMap.get_eq_none_iff.mpr h]
  rfl

/-- Eviction drops buckets that are idle, and changes nothing else. -/
theorem Inv.evictIdleBuckets (h : s.Inv) :
    s.evictIdleBuckets.Inv ∧ Same s s.evictIdleBuckets ∧
      s.evictIdleBuckets.bucketAt = s.bucketAt ∧
      ∀ key b, s.evictIdleBuckets.buckets.get key = some b → s.buckets.get key = some b := by
  refine List.foldlRecOn (motive := fun s₁ => s₁.Inv ∧ Same s s₁ ∧ s₁.bucketAt = s.bucketAt ∧
    ∀ key b, s₁.buckets.get key = some b → s.buckets.get key = some b) _ _
    ⟨h, .refl s, rfl, fun _ _ hb => hb⟩ ?_
  rintro s₁ ⟨hinv, hsame, hat, hget⟩ ⟨key, b⟩ hentry
  simp only
  split
  · exact ⟨hinv, hsame, hat, hget⟩
  · split
    · rename_i hidle
      obtain ⟨hactive, hstarted, hqueue⟩ := hidle
      have hb : s.buckets.get key = some b := OrderedMap.get_eq_some_iff.mpr hentry
      have hnil := queue_of_not_mem hqueue
      refine ⟨hinv.dropBucket hnil ?_, hsame.trans (same_dropBucket hnil), hat, ?_⟩
      · intro b' hb'
        cases (hget key b' hb').symm.trans hb
        exact ⟨hactive, hstarted⟩
      · intro k b' hb'
        by_cases hk : k = key
        · subst hk
          simp only [FetchRateLimiter.dropBucket, OrderedMap.get_delete_self] at hb'
          cases hb'
        · simp only [FetchRateLimiter.dropBucket, OrderedMap.get_delete_of_ne hk] at hb'
          exact hget k b' hb'
    · exact ⟨hinv, hsame, hat, hget⟩

theorem same_newBucket : Same s (s.newBucket key).2 := ⟨rfl, rfl, rfl, rfl, rfl, fun _ => rfl, rfl,
  rfl, rfl, rfl⟩

theorem Inv.bucketState (h : s.Inv) (key : BucketKey) :
    (s.bucketState key).2.Inv ∧ Same s (s.bucketState key).2 ∧
      (∀ b, (s.bucketState key).1 = some b → (s.bucketState key).2.buckets.get key = some b) ∧
      (∀ b, s.isDisposed = false → s.buckets.get key = some b →
        s.bucketState key = (some b, s)) := by
  unfold FetchRateLimiter.bucketState
  split
  · rename_i hdisposed
    refine ⟨h, .refl s, fun b hb => (nomatch hb), fun b hlive => ?_⟩
    rw [hdisposed] at hlive
    cases hlive
  · rename_i hlive
    cases hget : s.buckets.get key with
    | some b =>
      refine ⟨h, .refl s, fun b' hb' => ?_, fun b' _ hb' => ?_⟩
      · cases hb'
        exact hget
      · cases hb'
        rfl
    | none =>
      simp only
      have hroom : ∃ s₁, s₁ = (if MAX_BUCKETS ≤ s.buckets.size then s.evictIdleBuckets else s) ∧
          s₁.Inv ∧ Same s s₁ ∧ s₁.buckets.get key = none := by
        refine ⟨_, rfl, ?_⟩
        split
        · obtain ⟨hinv, hsame, -, hsub⟩ := h.evictIdleBuckets
          refine ⟨hinv, hsame, ?_⟩
          cases hb : s.evictIdleBuckets.buckets.get key with
          | none => rfl
          | some b =>
            rw [hsub key b hb] at hget
            cases hget
        · exact ⟨h, .refl s, hget⟩
      obtain ⟨s₁, hs₁, hinv, hsame, hnone⟩ := hroom
      rw [← hs₁]
      split
      · exact ⟨hinv, hsame, fun b hb => (nomatch hb), fun b _ hb => (nomatch hb)⟩
      · have hlive := hsame.isDisposed.trans (Bool.not_eq_true _ ▸ hlive)
        refine ⟨hinv.newBucket hlive hnone, hsame.trans same_newBucket, fun b hb => ?_,
          fun b _ hb => (nomatch hb)⟩
        cases hb
        exact OrderedMap.get_set_self

theorem tasks_putTask {task task' : TaskState} {j : ℕ}
    (h : (s.putTask i task).tasks j = some task') :
    j = i ∧ task' = task ∨ j ≠ i ∧ s.tasks j = some task' := by
  by_cases hj : j = i
  · subst hj
    simp only [putTask, Function.update_self, Option.some.injEq] at h
    exact .inl ⟨rfl, h.symm⟩
  · simp only [putTask, Function.update_of_ne hj] at h
    exact .inr ⟨hj, h⟩

theorem Inv.nextTask_fresh (h : s.Inv) : s.tasks s.nextTask = none := by
  by_contra hne
  exact absurd (h.numbered _ hne) (Nat.lt_irrefl _)

theorem Inv.numberTask (h : s.Inv) : Inv { s with nextTask := s.nextTask + 1 } where
  __ := h
  numbered i hi := Nat.lt_succ_of_lt (h.numbered i hi)
  active b := by
    refine (h.active b).trans ?_
    change s.runningIn b = total (s.nextTask + 1) s.tasks (runsIn b)
    rw [total_succ, h.nextTask_fresh]
    rfl

theorem Inv.putTask (h : s.Inv) (hi : i < s.nextTask)
    (hfree : s.tasks i = none ∨ s.tasks i = some .free) {task : TaskState}
    (hfree' : task = .free ∨ task = .settled ∨ task = .rejected) {rejections : List ℕ}
    (hrejections : ∀ j, j ∈ rejections ↔ j ∈ s.rejections ∨ j = i ∧ task = .rejected)
    (hnodup : rejections.Nodup) : Inv { s.putTask i task with rejections } := by
  have hold : ∀ {j task'}, s.tasks j = some task' → task' ≠ .free →
      Function.update s.tasks i (some task) j = some task' := by
    intro j task' hj hne
    have hji : j ≠ i := by
      rintro rfl
      rcases hfree with hfree | hfree
      · cases hj.symm.trans hfree
      · exact hne (Option.some.inj (hj.symm.trans hfree))
    rwa [Function.update_of_ne hji]
  exact {
    h with
    queued := fun key item hitem => by
      obtain ⟨hkey, htask⟩ := h.queued key item hitem
      exact ⟨hkey, hold htask nofun⟩
    enqueued := fun j item hj => by
      rcases tasks_putTask hj with ⟨-, rfl⟩ | ⟨-, hj⟩
      · rcases hfree' with hfree' | hfree' | hfree' <;> cases hfree'
      · exact h.enqueued j item hj
    numbered := fun j hj => by
      by_cases hji : j = i
      · exact hji ▸ hi
      · simp only [FetchRateLimiter.putTask, Function.update_of_ne hji] at hj
        exact h.numbered j hj
    running := fun j item b hj => by
      rcases tasks_putTask hj with ⟨-, rfl⟩ | ⟨-, hj⟩
      · rcases hfree' with hfree' | hfree' | hfree' <;> cases hfree'
      · exact h.running j item b hj
    active := fun b => by
      have hsum := total_update hi s.tasks (some task) (runsIn b)
      have hzero : runsIn b (some task) = 0 := by rcases hfree' with rfl | rfl | rfl <;> rfl
      have hzero' : runsIn b (s.tasks i) = 0 := by
        rcases hfree with hfree | hfree <;> rw [hfree] <;> rfl
      rw [hzero, hzero'] at hsum
      exact (h.active b).trans hsum.symm
    started := fun e he => by
      rcases h.started e he with ⟨b, hb⟩ | hb
      · exact .inl ⟨b, hold hb nofun⟩
      · exact .inr (hold hb nofun)
    recorded := fun j item b hj => by
      rcases tasks_putTask hj with ⟨-, rfl⟩ | ⟨-, hj⟩
      · rcases hfree' with hfree' | hfree' | hfree' <;> cases hfree'
      · exact h.recorded j item b hj
    rejected := fun j => by
      simp only [hrejections, h.rejected j]
      by_cases hji : j = i
      · subst hji
        rcases hfree with hfree | hfree
        · simp [FetchRateLimiter.putTask, hfree]
        · simp [FetchRateLimiter.putTask, hfree]
      · simp [FetchRateLimiter.putTask, hji]
    rejections_nodup := hnodup }

theorem Inv.free (h : s.Inv) (hfresh : s.tasks i = none) (hi : i < s.nextTask) :
    (s.putTask i .free).Inv :=
  h.putTask hi (.inl hfresh) (.inl rfl) (fun j => by simp) h.rejections_nodup

theorem Inv.reject (h : s.Inv) (hfresh : s.tasks i = none) (hi : i < s.nextTask) :
    (s.reject i).Inv := by
  apply h.putTask hi (.inl hfresh) (.inr (.inr rfl))
  · simp
  · apply h.rejections_nodup.append (List.nodup_singleton i)
    intro j hj hji
    cases List.mem_singleton.mp hji
    rw [(h.rejected i).mp hj] at hfresh
    cases hfresh

theorem queue_set (queues : OrderedMap BucketKey (List QueueItem)) (key k : BucketKey)
    (queue : List QueueItem) :
    ((queues.set key queue).get k).getD [] = if k = key then queue else (queues.get k).getD [] := by
  by_cases hk : k = key
  · subst hk
    simp
  · rw [OrderedMap.get_set_of_ne hk, if_neg hk]

theorem Inv.enqueue (h : s.Inv) (hfresh : s.tasks item.task = none) (hi : item.task < s.nextTask)
    (hlast : ∀ j, s.tasks j ≠ none → j < item.task) (hlive : s.isDisposed = false)
    (hbucket : s.buckets.get item.bucketKey = some b) : (s.enqueue item).Inv := by
  unfold FetchRateLimiter.enqueue
  apply Inv.scheduleDrain
  have hold : ∀ {j task'}, s.tasks j = some task' →
      Function.update s.tasks item.task (some (.queued item)) j = some task' := by
    intro j task' hj
    have hne : j ≠ item.task := by
      rintro rfl
      rw [hfresh] at hj
      cases hj
    rwa [Function.update_of_ne hne]
  have hq : ∀ k, ((s.queuesByBucket.set item.bucketKey (s.queue item.bucketKey ++ [item])).get
      k).getD [] = if k = item.bucketKey then s.queue item.bucketKey ++ [item] else s.queue k :=
    fun k => queue_set s.queuesByBucket item.bucketKey k _
  have hmem : ∀ {k queued}, queued ∈ ((s.queuesByBucket.set item.bucketKey
      (s.queue item.bucketKey ++ [item])).get k).getD [] →
      queued ∈ s.queue k ∨ k = item.bucketKey ∧ queued = item := by
    intro k queued hqueued
    rw [hq] at hqueued
    split at hqueued
    · rename_i hk
      rcases List.mem_append.mp hqueued with hqueued | hqueued
      · exact .inl (hk ▸ hqueued)
      · exact .inr ⟨hk, List.mem_singleton.mp hqueued⟩
    · exact .inl hqueued
  exact {
    h with
    queue_ne := fun k => by
      by_cases hk : k = item.bucketKey
      · subst hk
        simp [FetchRateLimiter.addPending]
      · simp only [FetchRateLimiter.addPending, OrderedMap.get_set_of_ne hk]
        exact h.queue_ne k
    queued := fun k queued hqueued => by
      rcases hmem hqueued with hqueued | ⟨rfl, rfl⟩
      · obtain ⟨hkey, htask⟩ := h.queued k queued hqueued
        exact ⟨hkey, hold htask⟩
      · exact ⟨rfl, Function.update_self _ _ _⟩
    enqueued := fun j queued hj => by
      rcases tasks_putTask hj with ⟨rfl, hqueued⟩ | ⟨-, hj⟩
      · cases hqueued
        refine ⟨rfl, ?_⟩
        rw [FetchRateLimiter.queue, FetchRateLimiter.addPending, hq, if_pos rfl]
        exact List.mem_append_right _ (List.mem_singleton_self _)
      · obtain ⟨htask, hqueued⟩ := h.enqueued j queued hj
        refine ⟨htask, ?_⟩
        rw [FetchRateLimiter.queue, FetchRateLimiter.addPending, hq]
        split
        · rename_i hk
          exact List.mem_append_left _ (hk ▸ hqueued)
        · exact hqueued
    sorted := fun k => by
      rw [FetchRateLimiter.queue, FetchRateLimiter.addPending, hq]
      split
      · apply List.pairwise_append.mpr
        refine ⟨h.sorted _, List.pairwise_singleton _ _, fun queued hqueued last hl => ?_⟩
        cases List.mem_singleton.mp hl
        exact hlast _ (by simp [(h.queued _ queued hqueued).2])
      · exact h.sorted k
    pending := fun k hk => by
      rw [FetchRateLimiter.queue, FetchRateLimiter.addPending, hq] at hk
      unfold FetchRateLimiter.addPending
      simp only
      split at hk
      · rename_i hkey
        split
        · rename_i hpending
          exact hkey ▸ hpending
        · exact List.mem_append_right _ (hkey ▸ List.mem_singleton_self _)
      · have hold := h.pending k hk
        split
        · exact hold
        · exact List.mem_append_left _ hold
    numbered := fun j hj => by
      by_cases hji : j = item.task
      · exact hji ▸ hi
      · simp only [FetchRateLimiter.addPending, FetchRateLimiter.putTask,
          Function.update_of_ne hji] at hj
        exact h.numbered j hj
    running := fun j running b hj => by
      rcases tasks_putTask hj with ⟨-, hrunning⟩ | ⟨-, hj⟩
      · cases hrunning
      · exact h.running j running b hj
    queue_bucket := fun k hk => by
      rw [FetchRateLimiter.queue, FetchRateLimiter.addPending, hq] at hk
      split at hk
      · rename_i hkey
        exact ⟨b, hkey ▸ hbucket⟩
      · exact h.queue_bucket k hk
    active := fun b => by
      have hsum := total_update hi s.tasks (some (.queued item)) (runsIn b)
      rw [hfresh] at hsum
      exact (h.active b).trans hsum.symm
    disposed := fun hdisposed => by
      have hdisposed : s.isDisposed = true := hdisposed
      rw [hlive] at hdisposed
      cases hdisposed
    started := fun e he => by
      rcases h.started e he with ⟨b, hb⟩ | hb
      · exact .inl ⟨b, hold hb⟩
      · exact .inr (hold hb)
    recorded := fun j running b hj => by
      rcases tasks_putTask hj with ⟨-, hrunning⟩ | ⟨-, hj⟩
      · cases hrunning
      · exact h.recorded j running b hj
    started_before := fun e he queued hqueued => by
      rcases hmem hqueued with hqueued | ⟨-, rfl⟩
      · exact h.started_before e he queued hqueued
      · rcases h.started e he with ⟨b, hb⟩ | hb
        · exact hlast _ (by simp [hb])
        · exact hlast _ (by simp [hb])
    rejected := fun j => by
      rw [show (({ s.putTask item.task (.queued item) with
        queuesByBucket := s.queuesByBucket.set item.bucketKey (s.queue item.bucketKey ++ [item]) } :
          FetchRateLimiter).addPending item.bucketKey).rejections = s.rejections from rfl,
        h.rejected j]
      by_cases hji : j = item.task
      · subst hji
        simp [FetchRateLimiter.addPending, FetchRateLimiter.putTask, hfresh]
      · simp [FetchRateLimiter.addPending, FetchRateLimiter.putTask, hji] }

theorem resolveBucketKey_spec (s : FetchRateLimiter) (options : CacheRateLimitOptions)
    (context : ScheduleContext) :
    ∃ key fetcherBuckets nextFetcherBucketId, s.resolveBucketKey options context =
      (key, { s with fetcherBuckets, nextFetcherBucketId }) := by
  unfold resolveBucketKey
  split
  · exact ⟨_, _, _, rfl⟩
  · split
    · exact ⟨_, _, _, rfl⟩
    · exact ⟨_, _, _, rfl⟩
    · split
      · exact ⟨_, _, _, rfl⟩
      · exact ⟨_, _, _, rfl⟩

/-- A scheduled task starts at once, is rejected or joins the queue of a bucket. Before that it has
only been given its number, and its bucket has been made. -/
inductive Scheduled (s s' : FetchRateLimiter) : Prop
  | free (t : FetchRateLimiter) (bypasses : ℕ) (hinv : t.Inv)
      (hsame : Same { s with nextTask := s.nextTask + 1 } t)
      (hs : s' = { t.putTask s.nextTask .free with rateLimitBypasses := bypasses })
  | reject (t : FetchRateLimiter) (hinv : t.Inv)
      (hsame : Same { s with nextTask := s.nextTask + 1 } t) (hs : s' = t.reject s.nextTask)
  | enqueue (t : FetchRateLimiter) (item : QueueItem) (b : ℕ) (hinv : t.Inv)
      (hsame : Same { s with nextTask := s.nextTask + 1 } t) (hlive : s.isDisposed = false)
      (htask : item.task = s.nextTask) (hbucket : t.buckets.get item.bucketKey = some b)
      (hs : s' = t.enqueue item)

theorem Inv.scheduled (h : s.Inv) (options : Option CacheRateLimitOptions)
    (context : ScheduleContext) : Scheduled s (s.schedule options context) := by
  have hnumbered := h.numberTask
  unfold FetchRateLimiter.schedule
  simp only
  split
  · exact .reject _ hnumbered (.refl _) rfl
  · rename_i hlive
    split
    · exact .free _ s.rateLimitBypasses hnumbered (.refl _) rfl
    · rename_i normalized _
      obtain ⟨key, fetcherBuckets, nextFetcherBucketId, hkey⟩ :=
        resolveBucketKey_spec { s with nextTask := s.nextTask + 1 } normalized context
      rw [hkey]
      simp only
      have hresolved : Inv { s with
        nextTask := s.nextTask + 1, fetcherBuckets, nextFetcherBucketId } := { hnumbered with }
      obtain ⟨hinv, hsame, hbucket, -⟩ := hresolved.bucketState key
      rcases hfound : FetchRateLimiter.bucketState _ key with ⟨_ | b, t⟩
      · rw [hfound] at hinv hsame
        exact .reject t hinv { hsame with } rfl
      · rw [hfound] at hinv hsame hbucket
        simp only
        split
        · split
          · exact .free t _ hinv { hsame with } rfl
          · exact .reject t hinv { hsame with } rfl
        · exact .enqueue t _ b hinv { hsame with } (Bool.not_eq_true _ ▸ hlive) rfl (hbucket b rfl)
            rfl

theorem Inv.schedule (h : s.Inv) (options : Option CacheRateLimitOptions)
    (context : ScheduleContext) : (s.schedule options context).Inv := by
  have hfresh : ∀ {t}, Same { s with nextTask := s.nextTask + 1 } t →
      t.tasks s.nextTask = none ∧ s.nextTask < t.nextTask := fun hsame =>
    ⟨(congrFun hsame.tasks s.nextTask).trans h.nextTask_fresh,
      (Nat.lt_succ_self s.nextTask).trans_eq hsame.nextTask.symm⟩
  cases h.scheduled options context with
  | free t bypasses hinv hsame hs =>
    rw [hs]
    exact { hinv.free (hfresh hsame).1 (hfresh hsame).2 with }
  | reject t hinv hsame hs =>
    rw [hs]
    exact hinv.reject (hfresh hsame).1 (hfresh hsame).2
  | enqueue t item b hinv hsame hlive htask hbucket hs =>
    obtain ⟨hnone, hlt⟩ := hfresh hsame
    rw [← htask] at hnone hlt
    rw [hs]
    apply hinv.enqueue hnone hlt _ (hsame.isDisposed.trans hlive) hbucket
    intro j hj
    rw [hsame.tasks] at hj
    exact htask ▸ h.numbered j hj

theorem waitTime_spec (bucket : BucketState) (now : ℕ) (options : CacheRateLimitOptions) :
    (waitTime bucket now options).2.active = bucket.active ∧
      (waitTime bucket now options).2.startedAt <:+ bucket.startedAt ∧
      (waitTime bucket now options).2.cleanupTimer = bucket.cleanupTimer ∧
      (0 < (waitTime bucket now options).1 → bucket.startedAt ≠ [] →
        (waitTime bucket now options).2.startedAt ≠ []) := by
  unfold waitTime
  split
  · exact ⟨rfl, List.suffix_refl _, rfl, fun _ h => h⟩
  · split
    · exact ⟨rfl, List.suffix_refl _, rfl, fun _ h => h⟩
    · simp only
      split
      · exact ⟨rfl, prune_suffix _ _ _, rfl, fun h => absurd h (lt_irrefl 0)⟩
      · split
        · exact ⟨rfl, prune_suffix _ _ _, rfl, fun h => absurd h (lt_irrefl 0)⟩
        · rename_i intervalMs _ _ _ _ _ holdest
          refine ⟨rfl, prune_suffix _ _ _, rfl, fun _ _ hnil => ?_⟩
          have hnil : prune bucket.startedAt now intervalMs = [] := hnil
          rw [hnil] at holdest
          cases holdest

theorem queue_startTask {bucket : BucketState} {queue : List QueueItem} (k : BucketKey) :
    (s.startTask b bucket item queue).queue k =
      if k = item.bucketKey then queue else s.queue k := by
  unfold FetchRateLimiter.queue startTask
  simp only
  split
  · rename_i hnil
    by_cases hk : k = item.bucketKey
    · subst hk
      simp [hnil]
    · rw [OrderedMap.get_delete_of_ne hk, if_neg hk]
  · exact queue_set _ _ _ _

theorem Inv.startTask (h : s.Inv) {bucket : BucketState} {queue : List QueueItem}
    (hqueue : s.queue item.bucketKey = item :: queue)
    (hbucket : s.buckets.get item.bucketKey = some b)
    (hactive : bucket.active = (s.bucketAt b).active)
    (hstarted : bucket.startedAt <:+ (s.bucketAt b).startedAt) :
    (s.startTask b bucket item queue).Inv := by
  have hhead := (h.queued _ item (hqueue ▸ List.mem_cons_self)).2
  have hlt : item.task < s.nextTask := h.numbered _ (by simp [hhead])
  have hlater : ∀ other ∈ queue, item.task < other.task := by
    have hsorted := h.sorted item.bucketKey
    rw [hqueue] at hsorted
    exact (List.pairwise_cons.mp hsorted).1
  have hsub : ∀ {k other}, other ∈ (s.startTask b bucket item queue).queue k →
      other ∈ s.queue k ∧ other.task ≠ item.task := by
    intro k other hother
    rw [queue_startTask] at hother
    split at hother
    · rename_i hk
      exact ⟨hk ▸ hqueue ▸ List.mem_cons_of_mem _ hother, (hlater other hother).ne'⟩
    · rename_i hk
      refine ⟨hother, fun htask => hk ?_⟩
      obtain ⟨hkey, hqueued⟩ := h.queued k other hother
      rw [htask, hhead] at hqueued
      cases hqueued
      exact hkey.symm
  have htask : ∀ {j task}, (s.startTask b bucket item queue).tasks j = some task →
      j = item.task ∧ task = .running item b ∨ j ≠ item.task ∧ s.tasks j = some task :=
    fun hj => tasks_putTask hj
  have hnew : ∀ e ∈ s.starts, e.item.task ≠ item.task := by
    intro e he heq
    rcases h.started e he with ⟨c, hc⟩ | hc
    · rw [heq, hhead] at hc
      cases hc
    · rw [heq, hhead] at hc
      cases hc
  exact {
    h with
    queue_ne := fun k => by
      unfold FetchRateLimiter.startTask
      simp only
      by_cases hk : k = item.bucketKey
      · subst hk
        split
        · simp
        · simpa
      · split
        · rw [OrderedMap.get_delete_of_ne hk]
          exact h.queue_ne k
        · rw [OrderedMap.get_set_of_ne hk]
          exact h.queue_ne k
    queued := fun k other hother => by
      obtain ⟨hold, hne⟩ := hsub hother
      obtain ⟨hkey, hqueued⟩ := h.queued k other hold
      exact ⟨hkey, (Function.update_of_ne hne _ _).trans hqueued⟩
    enqueued := fun j other hj => by
      rcases htask hj with ⟨-, hrun⟩ | ⟨hne, hj⟩
      · cases hrun
      · obtain ⟨hnumber, hmem⟩ := h.enqueued j other hj
        refine ⟨hnumber, ?_⟩
        rw [queue_startTask]
        split
        · rename_i hk
          rw [hk, hqueue] at hmem
          rcases List.mem_cons.mp hmem with rfl | hmem
          · exact absurd hnumber.symm hne
          · exact hmem
        · exact hmem
    sorted := fun k => by
      rw [queue_startTask]
      split
      · have hsorted := h.sorted item.bucketKey
        rw [hqueue] at hsorted
        exact (List.pairwise_cons.mp hsorted).2
      · exact h.sorted k
    pending := fun k hk => by
      rw [queue_startTask] at hk
      unfold FetchRateLimiter.startTask
      simp only
      split at hk
      · rename_i hkey
        rw [if_neg hk]
        exact h.pending k (by simp [hkey, hqueue])
      · rename_i hkey
        split
        · exact List.mem_filter.mpr ⟨h.pending k hk, by simpa using hkey⟩
        · exact h.pending k hk
    numbered := fun j hj => by
      by_cases hji : j = item.task
      · exact hji ▸ hlt
      · simp only [FetchRateLimiter.startTask, Function.update_of_ne hji] at hj
        exact h.numbered j hj
    running := fun j other c hj => by
      rcases htask hj with ⟨rfl, hrun⟩ | ⟨-, hj⟩
      · cases hrun
        exact ⟨rfl, h.bucket_lt _ _ hbucket, fun _ => hbucket⟩
      · exact h.running j other c hj
    queue_bucket := fun k hk => by
      rw [queue_startTask] at hk
      split at hk
      · rename_i hkey
        exact ⟨b, hkey ▸ hbucket⟩
      · exact h.queue_bucket k hk
    active := fun c => by
      have hsum := total_update hlt s.tasks (some (.running item b)) (runsIn c)
      rw [hhead] at hsum
      have hold := h.active c
      change (Function.update s.bucketAt b _ c).active =
        total s.nextTask (Function.update s.tasks item.task (some (.running item b))) (runsIn c)
      unfold runningIn at hold
      by_cases hc : c = b
      · subst hc
        simp only [Function.update_self, runsIn, if_true] at hsum ⊢
        omega
      · simp only [Function.update_of_ne hc, runsIn, if_neg (Ne.symm hc)] at hsum ⊢
        omega
    cleanup := fun c k intervalMs hc => by
      by_cases hcb : c = b
      · subst hcb
        simp only [FetchRateLimiter.startTask, Function.update_self] at hc
        cases hc
      · simp only [FetchRateLimiter.startTask, Function.update_of_ne hcb] at hc ⊢
        exact h.cleanup c k intervalMs hc
    disposed := fun hdisposed k => by
      have hnil := (h.disposed hdisposed item.bucketKey).1
      rw [hqueue] at hnil
      cases hnil
    started_at := fun e he => by
      rcases List.mem_append.mp he with he | he
      · exact h.started_at e he
      · cases List.mem_singleton.mp he
        exact Nat.le_refl _
    chronological := by
      refine List.pairwise_append.mpr ⟨h.chronological, List.pairwise_singleton _ _, ?_⟩
      intro e he last hl
      cases List.mem_singleton.mp hl
      exact h.started_at e he
    ordered := by
      refine List.pairwise_append.mpr ⟨h.ordered, List.pairwise_singleton _ _, ?_⟩
      intro e he last hl hkey
      cases List.mem_singleton.mp hl
      apply h.started_before e he
      simp only at hkey
      rw [hkey, hqueue]
      exact List.mem_cons_self
    once := by
      rw [show (s.startTask b bucket item queue).starts = s.starts ++ [⟨item, s.now⟩] from rfl,
        List.map_append]
      apply h.once.append (List.nodup_singleton _)
      intro j hj hji
      obtain ⟨e, he, rfl⟩ := List.mem_map.mp hj
      exact hnew e he (List.mem_singleton.mp hji)
    started := fun e he => by
      rcases List.mem_append.mp he with he | he
      · rw [show (s.startTask b bucket item queue).tasks e.item.task = s.tasks e.item.task from
          Function.update_of_ne (hnew e he) _ _]
        exact h.started e he
      · cases List.mem_singleton.mp he
        exact .inl ⟨b, Function.update_self _ _ _⟩
    recorded := fun j other c hj => by
      rcases htask hj with ⟨-, hrun⟩ | ⟨-, hj⟩
      · cases hrun
        exact ⟨⟨item, s.now⟩, List.mem_append_right _ (List.mem_singleton_self _), rfl⟩
      · obtain ⟨e, he, rfl⟩ := h.recorded j other c hj
        exact ⟨e, List.mem_append_left _ he, rfl⟩
    started_before := fun e he other hother => by
      rcases List.mem_append.mp he with he | he
      · exact h.started_before e he other (hsub hother).1
      · cases List.mem_singleton.mp he
        rw [queue_startTask, if_pos rfl] at hother
        exact hlater other hother
    rejected := fun j => by
      refine (h.rejected j).trans ?_
      by_cases hji : j = item.task
      · subst hji
        simp [FetchRateLimiter.startTask, hhead]
      · simp [FetchRateLimiter.startTask, hji]
    window := fun k c hk => by
      have hkept := h.window k c hk
      have htimes : (s.startTask b bucket item queue).times k =
          s.times k ++
            if item.bucketKey = k ∧ item.options.interval.isSome then [s.now] else [] := by
        unfold times FetchRateLimiter.startTask
        simp only [List.filter_append, List.map_append, List.filter_cons, List.filter_nil,
          Start.counts, Bool.and_eq_true, decide_eq_true_eq]
        split <;> rfl
      rw [htimes]
      by_cases hc : c = b
      · subst hc
        cases h.bucket_inj _ _ _ hk hbucket
        simp only [FetchRateLimiter.startTask, Function.update_self, true_and]
        obtain ⟨dropped, hdropped⟩ := hstarted.trans hkept
        refine ⟨dropped, ?_⟩
        split
        · rw [← List.append_assoc, hdropped]
        · rw [hdropped, List.append_nil]
      · have hne : item.bucketKey ≠ k := by
          rintro rfl
          exact hc (Option.some.inj (hk.symm.trans hbucket))
        simp only [FetchRateLimiter.startTask, Function.update_of_ne hc, hne, false_and,
          if_false, List.append_nil]
        exact hkept }

theorem Inv.head_bucket (h : s.Inv) {queue : List QueueItem}
    (hqueue : s.queue key = item :: queue) :
    s.isDisposed = false ∧ item.bucketKey = key ∧
      ∃ b, s.buckets.get key = some b ∧ s.bucketState key = (some b, s) := by
  have hne : s.queue key ≠ [] := by simp [hqueue]
  have hlive : s.isDisposed = false := by
    by_contra hdisposed
    exact hne (h.disposed (Bool.not_eq_false _ ▸ hdisposed) key).1
  obtain ⟨b, hb⟩ := h.queue_bucket key hne
  obtain ⟨-, -, -, hfound⟩ := h.bucketState key
  exact ⟨hlive, (h.queued key item (hqueue ▸ List.mem_cons_self)).1, b, hb, hfound b hlive hb⟩

/-- A visit drops an empty queue, makes the head wait or starts it. -/
theorem Inv.visitBucket_cases (h : s.Inv) (drain : Drain) (key : BucketKey)
    (todo : List BucketKey) :
    s.queue key = [] ∧ s.visitBucket drain key todo =
        { s with
          pendingBuckets := s.pendingBuckets.filter (· ≠ key)
          queuesByBucket := s.queuesByBucket.delete key
          drain := some { drain with todo } } ∨
      ∃ item queue b, s.queue key = item :: queue ∧ item.bucketKey = key ∧
        s.isDisposed = false ∧ s.buckets.get key = some b ∧
        let (waitMs, bucket) := waitTime (s.bucketAt b) s.now item.options
        (0 < waitMs ∧ s.visitBucket drain key todo =
            { s.putBucket b bucket with
              drain := some { drain with
                todo, nextWaitMs := some (drain.nextWaitMs.elim waitMs (min · waitMs)) } } ∨
          ¬ 0 < waitMs ∧ s.visitBucket drain key todo =
            { s.startTask b bucket item queue with
              drain := some { drain with todo, startedWork := true } }) := by
  cases hqueue : s.queue key with
  | nil =>
    refine .inl ⟨rfl, ?_⟩
    rw [visitBucket, hqueue]
  | cons item queue =>
    obtain ⟨hlive, hkey, b, hb, hfound⟩ := h.head_bucket hqueue
    refine .inr ⟨item, queue, b, rfl, hkey, hlive, hb, ?_⟩
    rw [visitBucket, hqueue]
    simp only [hfound]
    by_cases hwait : 0 < (waitTime (s.bucketAt b) s.now item.options).1
    · exact .inl ⟨hwait, if_pos hwait⟩
    · exact .inr ⟨hwait, if_neg hwait⟩

theorem Inv.visitBucket (h : s.Inv) (drain : Drain) (key : BucketKey) (todo : List BucketKey) :
    (s.visitBucket drain key todo).Inv := by
  rcases h.visitBucket_cases drain key todo with ⟨hqueue, hs⟩ | ⟨item, queue, b, hqueue, hkey, -,
    hb, hs⟩
  · rw [hs]
    exact { h.dropQueue hqueue with }
  · obtain ⟨hactive, hstarted, htimer, hkept⟩ := waitTime_spec (s.bucketAt b) s.now item.options
    rcases hs with ⟨hwait, hs⟩ | ⟨-, hs⟩
    · rw [hs]
      have hput := h.putBucket hactive hstarted fun key intervalMs hcleanup => by
        obtain ⟨hne, hbucket⟩ := h.cleanup b key intervalMs (htimer ▸ hcleanup)
        exact ⟨hkept hwait hne, hbucket⟩
      exact { hput with }
    · subst hkey
      rw [hs]
      exact { h.startTask hqueue hb hactive hstarted with }

theorem Inv.endDrain (h : s.Inv) (hs : s.endDrain = some s') : s'.Inv := by
  unfold FetchRateLimiter.endDrain at hs
  cases hdrain : s.drain with
  | none =>
    rw [hdrain] at hs
    cases hs
  | some drain =>
    obtain ⟨todo, nextWaitMs, startedWork⟩ := drain
    rw [hdrain, Option.bind_some] at hs
    have hended : Inv { s with drain := none } := { h with }
    cases todo with
    | cons key todo => cases hs
    | nil =>
      cases hs
      simp only
      split
      · exact hended
      · exact hended.scheduleDrain _

theorem Inv.settleTask (h : s.Inv) (hi : s.tasks i = some (.running item b)) :
    ((s.putTask i .settled).putBucket b
      { s.bucketAt b with active := (s.bucketAt b).active - 1 }).Inv := by
  have hlt : i < s.nextTask := h.numbered i (by simp [hi])
  have hother : ∀ {j task}, s.tasks j = some task → task ≠ .running item b →
      Function.update s.tasks i (some .settled) j = some task := by
    intro j task hj hne
    have hji : j ≠ i := by
      rintro rfl
      exact hne (Option.some.inj (hj.symm.trans hi))
    rwa [Function.update_of_ne hji]
  exact {
    h with
    queued := fun key queued hqueued => by
      obtain ⟨hkey, hj⟩ := h.queued key queued hqueued
      exact ⟨hkey, hother hj nofun⟩
    enqueued := fun j queued hj => by
      rcases tasks_putTask hj with ⟨-, hqueued⟩ | ⟨-, hj⟩
      · cases hqueued
      · exact h.enqueued j queued hj
    numbered := fun j hj => by
      by_cases hji : j = i
      · exact hji ▸ hlt
      · simp only [FetchRateLimiter.putBucket, FetchRateLimiter.putTask,
          Function.update_of_ne hji] at hj
        exact h.numbered j hj
    running := fun j running c hj => by
      rcases tasks_putTask hj with ⟨-, hrunning⟩ | ⟨-, hj⟩
      · cases hrunning
      · exact h.running j running c hj
    active := fun c => by
      have hsum := total_update hlt s.tasks (some .settled) (runsIn c)
      have hold := h.active c
      rw [hi] at hsum
      change (Function.update s.bucketAt b _ c).active =
        total s.nextTask (Function.update s.tasks i (some .settled)) (runsIn c)
      unfold runningIn at hold
      by_cases hc : c = b
      · subst hc
        simp only [Function.update_self, runsIn, if_true] at hsum ⊢
        omega
      · simp only [Function.update_of_ne hc, runsIn, if_neg (Ne.symm hc)] at hsum ⊢
        omega
    cleanup := fun c k intervalMs hc => by
      by_cases hcb : c = b
      · subst hcb
        simp only [FetchRateLimiter.putBucket, Function.update_self] at hc ⊢
        exact h.cleanup c k intervalMs hc
      · simp only [FetchRateLimiter.putBucket, Function.update_of_ne hcb] at hc ⊢
        exact h.cleanup c k intervalMs hc
    started := fun e he => by
      by_cases hei : e.item.task = i
      · rw [hei]
        exact .inr (Function.update_self _ _ _)
      · rw [show ((s.putTask i .settled).putBucket b _).tasks e.item.task = s.tasks e.item.task from
          Function.update_of_ne hei _ _]
        exact h.started e he
    recorded := fun j running c hj => by
      rcases tasks_putTask hj with ⟨-, hrunning⟩ | ⟨-, hj⟩
      · cases hrunning
      · exact h.recorded j running c hj
    rejected := fun j => by
      refine (h.rejected j).trans ?_
      by_cases hji : j = i
      · subst hji
        simp [FetchRateLimiter.putBucket, FetchRateLimiter.putTask, hi]
      · simp [FetchRateLimiter.putBucket, FetchRateLimiter.putTask, hji]
    window := fun k c hk => by
      by_cases hcb : c = b
      · subst hcb
        simp only [FetchRateLimiter.putBucket, Function.update_self]
        exact h.window k c hk
      · simp only [FetchRateLimiter.putBucket, Function.update_of_ne hcb]
        exact h.window k c hk }

theorem Inv.cleanupBucket (h : s.Inv) (hb : s.isDisposed = false → s.buckets.get key = some b)
    (intervalMs : Option Millis) : (s.cleanupBucket key b intervalMs).Inv := by
  unfold FetchRateLimiter.cleanupBucket
  simp only
  split
  · rename_i hidle
    obtain ⟨hqueue, hactive, hstarted⟩ := hidle
    apply h.dropBucket hqueue
    intro b' hb'
    cases hdisposed : s.isDisposed with
    | true => cases hb'.symm.trans (h.disposed hdisposed key).2
    | false =>
      cases hb'.symm.trans (hb hdisposed)
      exact ⟨hactive, hstarted⟩
  · rename_i hidle
    split
    · exact h
    · rename_i hbusy
      cases intervalMs with
      | none => exact h
      | some intervalMs =>
        simp only [not_or, not_lt, Nat.le_zero, not_not] at hbusy
        refine h.putBucket rfl (List.suffix_refl (s.bucketAt b).startedAt) fun k ms hcleanup => ?_
        cases hcleanup
        exact ⟨fun hnil => hidle ⟨hbusy.2, hbusy.1, hnil⟩, hb⟩

theorem Inv.settle (h : s.Inv) (hs : s.settle i = some s') : s'.Inv := by
  unfold FetchRateLimiter.settle at hs
  cases htask : s.tasks i with
  | none =>
    rw [htask] at hs
    cases hs
  | some task =>
    rw [htask] at hs
    cases task with
    | running item b =>
      cases hs
      have hsettled := h.settleTask htask
      have hbucket := (h.running i item b htask).2.2
      apply Inv.scheduleDrain
      apply Inv.cleanupBucket
      · split
        · exact hsettled
        · exact hsettled.addPending _
      · split
        · exact hbucket
        · exact hbucket
    | free =>
      cases hs
      exact h.putTask (h.numbered i (by simp [htask])) (.inr htask) (.inr (.inl rfl)) (by simp)
        h.rejections_nodup
    | _ => cases hs

theorem Inv.fireCleanup (h : s.Inv) (hs : s.fireCleanup b = some s') : s'.Inv := by
  obtain ⟨⟨key, intervalMs⟩, htimer, rfl⟩ := Option.map_eq_some_iff.mp hs
  simp only
  obtain ⟨-, hbucket⟩ := h.cleanup b key intervalMs htimer
  have hput : (s.putBucket b { s.bucketAt b with
      startedAt := prune (s.bucketAt b).startedAt s.now intervalMs, cleanupTimer := none }).Inv :=
    h.putBucket rfl (prune_suffix _ _ _) nofun
  split
  · rename_i hidle
    obtain ⟨hactive, hstarted, hqueue⟩ := hidle
    apply hput.dropBucket hqueue
    intro b' hb'
    cases hdisposed : s.isDisposed with
    | true => cases Eq.trans (Eq.symm hb') (h.disposed hdisposed key).2
    | false =>
      cases Eq.trans (Eq.symm hb') (hbucket hdisposed)
      simp only [FetchRateLimiter.putBucket, Function.update_self]
      exact ⟨hactive, hstarted⟩
  · exact hput

theorem Inv.mem_queues (h : s.Inv) (i : ℕ) :
    i ∈ (s.queuesByBucket.entries.flatMap Prod.snd).map QueueItem.task ↔
      ∃ item, s.tasks i = some (.queued item) := by
  simp only [List.mem_map, List.mem_flatMap]
  constructor
  · rintro ⟨item, ⟨⟨key, queue⟩, hentry, hitem⟩, rfl⟩
    have hqueue : s.queue key = queue := by
      rw [FetchRateLimiter.queue, OrderedMap.get_eq_some_iff.mpr hentry]
      rfl
    exact ⟨item, (h.queued key item (hqueue ▸ hitem)).2⟩
  · rintro ⟨item, hi⟩
    obtain ⟨htask, hmem⟩ := h.enqueued i item hi
    refine ⟨item, ⟨(item.bucketKey, s.queue item.bucketKey), ?_, hmem⟩, htask⟩
    rw [← OrderedMap.get_eq_some_iff]
    unfold FetchRateLimiter.queue at hmem ⊢
    cases hget : s.queuesByBucket.get item.bucketKey with
    | none =>
      rw [hget] at hmem
      cases hmem
    | some queue => rfl

/-- Each queued task is in one queue, once. -/
theorem Inv.queues_nodup (h : s.Inv) :
    ((s.queuesByBucket.entries.flatMap Prod.snd).map QueueItem.task).Nodup := by
  have hqueue : ∀ entry ∈ s.queuesByBucket.entries, s.queue entry.1 = entry.2 := by
    rintro ⟨key, queue⟩ hentry
    rw [FetchRateLimiter.queue, OrderedMap.get_eq_some_iff.mpr hentry]
    rfl
  rw [List.map_flatMap, List.nodup_flatMap]
  constructor
  · intro entry hentry
    have hsorted := h.sorted entry.1
    rw [hqueue entry hentry] at hsorted
    exact List.pairwise_map.mpr (hsorted.imp fun hlt => Nat.ne_of_lt hlt)
  · have hkeys := List.pairwise_map.mp s.queuesByBucket.nodup
    refine hkeys.imp_of_mem fun {entry entry'} hentry hentry' hne => ?_
    intro i hi hi'
    obtain ⟨item, hitem, rfl⟩ := List.mem_map.mp hi
    obtain ⟨item', hitem', htask⟩ := List.mem_map.mp hi'
    obtain ⟨hkey, hqueued⟩ := h.queued entry.1 item (hqueue entry hentry ▸ hitem)
    obtain ⟨hkey', hqueued'⟩ := h.queued entry'.1 item' (hqueue entry' hentry' ▸ hitem')
    rw [htask, hqueued] at hqueued'
    cases hqueued'
    exact hne (hkey.symm.trans hkey')

theorem Inv.tasks_dispose_of_queued (h : s.Inv) (hi : s.tasks i = some (.queued item)) :
    s.dispose.tasks i = some .rejected :=
  if_pos ((h.mem_queues i).mpr ⟨item, hi⟩)

theorem Inv.tasks_dispose_of_ne (h : s.Inv) (hi : ∀ item, s.tasks i ≠ some (.queued item)) :
    s.dispose.tasks i = s.tasks i := by
  apply if_neg
  intro hmem
  obtain ⟨item, hitem⟩ := (h.mem_queues i).mp hmem
  exact hi item hitem

theorem Inv.dispose (h : s.Inv) : s.dispose.Inv := by
  have htask : ∀ {j task}, s.dispose.tasks j = some task → task ≠ .rejected →
      s.tasks j = some task ∧ ∀ item, task ≠ .queued item := by
    intro j task hj hne
    by_cases hqueued : ∃ item, s.tasks j = some (.queued item)
    · obtain ⟨item, hitem⟩ := hqueued
      rw [h.tasks_dispose_of_queued hitem] at hj
      exact absurd (Option.some.inj hj).symm hne
    · rw [h.tasks_dispose_of_ne (not_exists.mp hqueued)] at hj
      refine ⟨hj, ?_⟩
      rintro item rfl
      exact hqueued ⟨item, hj⟩
  have hold : ∀ {j task}, s.tasks j = some task → (∀ item, task ≠ .queued item) →
      s.dispose.tasks j = some task := by
    intro j task hj hne
    rw [h.tasks_dispose_of_ne, hj]
    intro item hitem
    exact hne item (Option.some.inj (hj.symm.trans hitem))
  have hrunning : ∀ item b item', TaskState.running item b ≠ .queued item' := by
    rintro item b item' ⟨⟩
  have hsettled : ∀ item, TaskState.settled ≠ .queued item := by
    rintro item ⟨⟩
  have hnot : ∀ item b, TaskState.running item b ≠ .rejected := by
    rintro item b ⟨⟩
  exact {
    h with
    queue_ne := fun key hkey => nomatch hkey
    queued := fun key item hitem => nomatch hitem
    enqueued := fun j item hj => by
      have hne : TaskState.queued item ≠ .rejected := by rintro ⟨⟩
      exact absurd rfl ((htask hj hne).2 item)
    sorted := fun key => .nil
    pending := fun key hkey => absurd rfl hkey
    numbered := fun j hj => by
      apply h.numbered j
      intro hnone
      rw [h.tasks_dispose_of_ne (by simp [hnone])] at hj
      exact hj hnone
    running := fun j item b hj => by
      obtain ⟨hnumber, hlt, -⟩ := h.running j item b (htask hj (hnot item b)).1
      refine ⟨hnumber, hlt, ?_⟩
      intro hdisposed
      cases hdisposed
    bucket_lt := fun key b hb => nomatch hb
    bucket_inj := fun key key' b hb => nomatch hb
    queue_bucket := fun key hkey => absurd rfl hkey
    active := fun b => by
      have hactive : (s.dispose.bucketAt b).active = (s.bucketAt b).active := by
        unfold FetchRateLimiter.dispose
        simp only
        split <;> rfl
      rw [hactive, h.active b]
      apply total_congr
      intro j _
      by_cases hqueued : ∃ item, s.tasks j = some (.queued item)
      · obtain ⟨item, hitem⟩ := hqueued
        rw [h.tasks_dispose_of_queued hitem, hitem]
        rfl
      · rw [h.tasks_dispose_of_ne (not_exists.mp hqueued)]
    cleanup := fun b key intervalMs hb => by
      refine ⟨?_, fun hdisposed => by cases hdisposed⟩
      unfold FetchRateLimiter.dispose at hb ⊢
      simp only at hb ⊢
      split at hb
      · cases hb
      · rename_i hnot
        rw [if_neg hnot]
        exact (h.cleanup b key intervalMs hb).1
    disposed := fun _ key => ⟨rfl, rfl⟩
    started := fun e he => by
      rcases h.started e he with ⟨b, hb⟩ | hb
      · exact .inl ⟨b, hold hb (hrunning e.item b)⟩
      · exact .inr (hold hb hsettled)
    recorded := fun j item b hj => h.recorded j item b (htask hj (hnot item b)).1
    started_before := fun e he item hitem => nomatch hitem
    rejected := fun j => by
      refine List.mem_append.trans ?_
      rw [h.rejected j, h.mem_queues j]
      by_cases hqueued : ∃ item, s.tasks j = some (.queued item)
      · obtain ⟨item, hitem⟩ := hqueued
        rw [h.tasks_dispose_of_queued hitem]
        simp [hitem]
      · rw [h.tasks_dispose_of_ne (not_exists.mp hqueued)]
        simp [hqueued]
    rejections_nodup := by
      apply h.rejections_nodup.append h.queues_nodup
      intro j hj hqueued
      obtain ⟨item, hitem⟩ := (h.mem_queues j).mp hqueued
      rw [(h.rejected j).mp hj] at hitem
      cases hitem
    window := fun key b hb => nomatch hb }

theorem Inv.beginDrain (h : s.Inv) : s.beginDrain.Inv := { h with }

theorem Inv.step {act : LimiterAction} (h : s.Inv) (hs : s.step act = some s') : s'.Inv := by
  cases act with
  | tick =>
    simp only [FetchRateLimiter.step] at hs
    split at hs
    · cases hs
      exact {
        h with
        started_at := fun e he => Nat.le_succ_of_le (h.started_at e he) }
    · cases hs
  | schedule options context =>
    cases hs
    exact h.schedule options context
  | runDrain =>
    simp only [FetchRateLimiter.step] at hs
    split at hs
    · cases hs
      exact Inv.beginDrain { h with }
    · cases hs
  | fireTimer =>
    simp only [FetchRateLimiter.step] at hs
    split at hs
    · cases hs
      exact h.beginDrain
    · cases hs
  | visit =>
    simp only [FetchRateLimiter.step, FetchRateLimiter.visit] at hs
    cases hdrain : s.drain with
    | none =>
      rw [hdrain] at hs
      cases hs
    | some drain =>
      rw [hdrain, Option.bind_some] at hs
      split at hs
      · cases hs
      · cases hs
        exact h.visitBucket _ _ _
  | endDrain => exact h.endDrain hs
  | settle i =>
    simp only [FetchRateLimiter.step] at hs
    split at hs
    · exact h.settle hs
    · cases hs
  | fireCleanup b =>
    simp only [FetchRateLimiter.step] at hs
    split at hs
    · exact h.fireCleanup hs
    · cases hs
  | dispose =>
    cases hs
    exact h.dispose

end LayerCache.FetchRateLimiter
