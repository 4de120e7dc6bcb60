import LayerCache.Collections.OrderedMap
import LayerCache.StoredValue.Basic
import LayerCache.Transition.Run

/-! # The fetch rate limiter

Tasks wait in the queues of their buckets until the limits of the task at the head let it
start. A drain goes through the buckets with queued tasks and starts at most one in each. It
is scheduled at once where there may be something to start, and otherwise one timer is set for
the shortest wait that it has found. Synchronous code takes no time, but a task that a drain
starts can schedule further tasks, or dispose of the limiter, before the drain goes on.
-/

namespace LayerCache

open Transition

inductive RateLimitScope | global | key | fetcher
  deriving DecidableEq

inductive QueueOverflow | reject | bypass
  deriving DecidableEq

/-- The options of a limit, in the form in which they are accepted. -/
structure CacheRateLimitOptions where
  maxConcurrent : Option ℚ
  intervalMs : Option Millis
  maxPerInterval : Option ℚ
  scope : Option RateLimitScope
  bucketKey : Option String
  queueOverflow : Option QueueOverflow
  maxConcurrent_pos : ∀ n ∈ maxConcurrent, 0 < n
  intervalMs_pos : ∀ ms ∈ intervalMs, 0 < ms
  maxPerInterval_pos : ∀ n ∈ maxPerInterval, 0 < n
  bucketKey_ne : ∀ key ∈ bucketKey, key ≠ ""

instance : DecidableEq CacheRateLimitOptions := fun a b =>
  decidable_of_iff (a.maxConcurrent = b.maxConcurrent ∧ a.intervalMs = b.intervalMs ∧
      a.maxPerInterval = b.maxPerInterval ∧ a.scope = b.scope ∧ a.bucketKey = b.bucketKey ∧
      a.queueOverflow = b.queueOverflow) <| by
    cases a
    cases b
    simp

theorem pos_of_mem_none : ∀ n ∈ (none : Option ℚ), 0 < n := nofun

theorem pos_of_mem_one : ∀ n ∈ some (1 : ℚ), 0 < n := by
  rintro _ ⟨⟩
  exact zero_lt_one

/-- A bucket key is a text; the prefixes of the four kinds keep them apart. -/
inductive BucketKey
  | custom (bucketKey : String)
  | key (key : String)
  | fetcher (id : ℕ)
  | global
  deriving DecidableEq

structure ScheduleContext where
  key : String
  fetcher : ℕ

/-- Tasks are numbered in the order in which they are scheduled. -/
structure QueueItem where
  task : ℕ
  bucketKey : BucketKey
  options : CacheRateLimitOptions
  deriving DecidableEq

/-- A cleanup timer is known by the key and the interval that it was set for. -/
structure BucketState where
  active : ℕ
  startedAt : List ℕ
  cleanupTimer : Option (BucketKey × Millis)
  deriving DecidableEq

/-- A task runs in a bucket, or free of the limits because it has none or because it has bypassed
a full queue. -/
inductive TaskState
  | queued (item : QueueItem)
  | running (item : QueueItem) (bucket : ℕ)
  | free
  | settled
  | rejected
  deriving DecidableEq

structure Start where
  item : QueueItem
  time : ℕ
  deriving DecidableEq

/-- A drain under way, with the buckets that it has still to visit. -/
structure Drain where
  todo : List BucketKey
  nextWaitMs : Option Millis
  startedWork : Bool
  deriving DecidableEq

def MAX_BUCKETS : ℕ := 10000

def MAX_QUEUE_PER_BUCKET : ℕ := 10000

/-- `bucketAt` has the bucket objects that were ever made, and the drain timer is known by its
deadline. `starts` and `rejections` are the history of the tasks. -/
structure FetchRateLimiter where
  now : ℕ
  nextTask : ℕ
  tasks : ℕ → Option TaskState
  starts : List Start
  rejections : List ℕ
  nextBucket : ℕ
  bucketAt : ℕ → BucketState
  buckets : OrderedMap BucketKey ℕ
  queuesByBucket : OrderedMap BucketKey (List QueueItem)
  pendingBuckets : List BucketKey
  fetcherBuckets : ℕ → Option ℕ
  nextFetcherBucketId : ℕ
  drainTimer : Option Millis
  drainScheduled : Bool
  isDisposed : Bool
  rateLimitBypasses : ℕ
  drain : Option Drain

inductive LimiterAction
  | tick
  | schedule (options : Option CacheRateLimitOptions) (context : ScheduleContext)
  | runDrain
  | fireTimer
  | visit
  | endDrain
  | settle (task : ℕ)
  | fireCleanup (bucket : ℕ)
  | dispose

def CacheRateLimitOptions.interval (options : CacheRateLimitOptions) : Option (Millis × ℚ) :=
  options.intervalMs.bind fun ms => options.maxPerInterval.map (ms, ·)

/-- `!maxConcurrent && !(intervalMs && maxPerInterval)`: there is nothing to limit. -/
def CacheRateLimitOptions.normalize (options : CacheRateLimitOptions) :
    Option CacheRateLimitOptions :=
  if options.maxConcurrent.isNone && options.interval.isNone then none else some options

namespace FetchRateLimiter

def initial (now : ℕ) : FetchRateLimiter where
  now
  nextTask := 0
  tasks _ := none
  starts := []
  rejections := []
  nextBucket := 0
  bucketAt _ := ⟨0, [], none⟩
  buckets := .empty
  queuesByBucket := .empty
  pendingBuckets := []
  fetcherBuckets _ := none
  nextFetcherBucketId := 0
  drainTimer := none
  drainScheduled := false
  isDisposed := false
  rateLimitBypasses := 0
  drain := none

variable (s : FetchRateLimiter)

def queue (key : BucketKey) : List QueueItem := (s.queuesByBucket.get key).getD []

def putTask (i : ℕ) (task : TaskState) : FetchRateLimiter :=
  { s with tasks := Function.update s.tasks i (some task) }

def putBucket (b : ℕ) (bucket : BucketState) : FetchRateLimiter :=
  { s with bucketAt := Function.update s.bucketAt b bucket }

/-- The bucket, its queue and its place among the pending ones are gone. -/
def dropBucket (key : BucketKey) : FetchRateLimiter :=
  { s with
    buckets := s.buckets.delete key
    queuesByBucket := s.queuesByBucket.delete key
    pendingBuckets := s.pendingBuckets.filter (· ≠ key) }

/-- `pendingBuckets.add` -/
def addPending (key : BucketKey) : FetchRateLimiter :=
  { s with
    pendingBuckets := if key ∈ s.pendingBuckets then s.pendingBuckets
      else s.pendingBuckets ++ [key] }

def scheduleDrain (delayMs : Option Millis) : FetchRateLimiter :=
  if s.isDisposed then s
  else
    match delayMs with
    | none => s
    | some delayMs =>
      if delayMs ≤ 0 then { s with drainTimer := none, drainScheduled := true }
      else if s.drainScheduled then s
      else
        let deadline := s.now + delayMs
        if s.drainTimer.any fun earlier => earlier ≤ deadline then s
        else { s with drainTimer := some deadline }

def resolveBucketKey (options : CacheRateLimitOptions) (context : ScheduleContext) :
    BucketKey × FetchRateLimiter :=
  match options.bucketKey with
  | some bucketKey => (.custom bucketKey, s)
  | none =>
    match options.scope.getD .global with
    | .key => (.key context.key, s)
    | .global => (.global, s)
    | .fetcher =>
      match s.fetcherBuckets context.fetcher with
      | some id => (.fetcher id, s)
      | none =>
        (.fetcher s.nextFetcherBucketId,
          { s with
            fetcherBuckets :=
              Function.update s.fetcherBuckets context.fetcher (some s.nextFetcherBucketId)
            nextFetcherBucketId := s.nextFetcherBucketId + 1 })

def evictIdleBuckets : FetchRateLimiter :=
  s.buckets.entries.foldl (fun s (key, b) =>
    if (s.buckets.size : ℚ) ≤ MAX_BUCKETS * (9 / 10) then s
    else if (s.bucketAt b).active = 0 ∧ (s.bucketAt b).startedAt = [] ∧
      key ∉ s.queuesByBucket.keys then s.dropBucket key
    else s) s

def newBucket (key : BucketKey) : ℕ × FetchRateLimiter :=
  (s.nextBucket,
    { s with
      nextBucket := s.nextBucket + 1
      bucketAt := Function.update s.bucketAt s.nextBucket ⟨0, [], none⟩
      buckets := s.buckets.set key s.nextBucket })

/-- The bucket of the key, which is made if there is room for it. -/
def bucketState (key : BucketKey) : Option ℕ × FetchRateLimiter :=
  if s.isDisposed then (none, s)
  else
    match s.buckets.get key with
    | some b => (some b, s)
    | none =>
      let s := if MAX_BUCKETS ≤ s.buckets.size then s.evictIdleBuckets else s
      if MAX_BUCKETS ≤ s.buckets.size then (none, s)
      else
        let (b, s) := s.newBucket key
        (some b, s)

def reject (i : ℕ) : FetchRateLimiter :=
  { s.putTask i .rejected with rejections := s.rejections ++ [i] }

def enqueue (item : QueueItem) : FetchRateLimiter :=
  (({ s.putTask item.task (.queued item) with
    queuesByBucket := s.queuesByBucket.set item.bucketKey (s.queue item.bucketKey ++ [item])
      }).addPending item.bucketKey).scheduleDrain
        (some 0)

/-- The next task: it starts at once, is rejected, or joins the queue of its bucket. -/
def schedule (options : Option CacheRateLimitOptions) (context : ScheduleContext) :
    FetchRateLimiter :=
  let i := s.nextTask
  let s := { s with nextTask := i + 1 }
  if s.isDisposed then s.reject i
  else
    match options.bind CacheRateLimitOptions.normalize with
    | none => s.putTask i .free
    | some normalized =>
      let (bucketKey, s) := s.resolveBucketKey normalized context
      match s.bucketState bucketKey with
      | (none, s) => s.reject i
      | (some _, s) =>
        if MAX_QUEUE_PER_BUCKET ≤ (s.queue bucketKey).length then
          match normalized.queueOverflow.getD .reject with
          | .bypass => { s.putTask i .free with rateLimitBypasses := s.rateLimitBypasses + 1 }
          | .reject => s.reject i
        else s.enqueue ⟨i, bucketKey, normalized⟩

/-- `while`: the start times that the interval has passed. -/
def prune (startedAt : List ℕ) (now : ℕ) (intervalMs : Millis) : List ℕ :=
  startedAt.dropWhile fun t => intervalMs ≤ (now : ℚ) - t

/-- How long the head of the queue has to wait, and what is left of the start times. -/
def waitTime (bucket : BucketState) (now : ℕ) (options : CacheRateLimitOptions) :
    Millis × BucketState :=
  if options.maxConcurrent.any fun n => n ≤ (bucket.active : ℚ) then (1, bucket)
  else
    match options.interval with
    | none => (0, bucket)
    | some (intervalMs, maxPerInterval) =>
      let bucket := { bucket with startedAt := prune bucket.startedAt now intervalMs }
      if (bucket.startedAt.length : ℚ) < maxPerInterval then (0, bucket)
      else
        -- a first start time of zero is as good as none
        match bucket.startedAt.head?.filter (· ≠ 0) with
        | none => (0, bucket)
        | some oldest => (max 1 (intervalMs - (now - oldest)), bucket)

def beginDrain : FetchRateLimiter :=
  { s with drainTimer := none, drain := some ⟨s.pendingBuckets, none, false⟩ }

def startTask (b : ℕ) (bucket : BucketState) (item : QueueItem) (queue : List QueueItem) :
    FetchRateLimiter :=
  { s with
    queuesByBucket := if queue = [] then s.queuesByBucket.delete item.bucketKey
      else s.queuesByBucket.set item.bucketKey queue
    pendingBuckets := if queue = [] then s.pendingBuckets.filter (· ≠ item.bucketKey)
      else s.pendingBuckets
    bucketAt := Function.update s.bucketAt b
      { active := bucket.active + 1
        startedAt := if item.options.interval.isSome then bucket.startedAt ++ [s.now]
          else bucket.startedAt
        cleanupTimer := none }
    tasks := Function.update s.tasks item.task (some (.running item b))
    starts := s.starts ++ [⟨item, s.now⟩] }

/-- The drain visits one bucket: its queue may be gone, its head may have to wait, or starts. -/
def visitBucket (drain : Drain) (key : BucketKey) (todo : List BucketKey) : FetchRateLimiter :=
  match s.queue key with
  | [] =>
    { s with
      pendingBuckets := s.pendingBuckets.filter (· ≠ key)
      queuesByBucket := s.queuesByBucket.delete key
      drain := some { drain with todo } }
  | item :: queue =>
    match s.bucketState key with
    -- the error ends the drain
    | (none, s) => { s with drain := none }
    | (some b, s) =>
      let (waitMs, bucket) := waitTime (s.bucketAt b) s.now item.options
      if 0 < waitMs then
        { s.putBucket b bucket with
          drain := some { drain with
            todo, nextWaitMs := some (drain.nextWaitMs.elim waitMs (min · waitMs)) } }
      else
        { s.startTask b bucket item queue with
          drain := some { drain with todo, startedWork := true } }

def visit : Option FetchRateLimiter :=
  s.drain.bind fun drain =>
    match drain.todo with
    | [] => none
    | key :: todo => some (s.visitBucket drain key todo)

def endDrain : Option FetchRateLimiter :=
  s.drain.bind fun drain =>
    match drain.todo with
    | [] =>
      let s := { s with drain := none }
      some (if s.pendingBuckets = [] then s
        else s.scheduleDrain (if drain.startedWork then some 0 else drain.nextWaitMs))
    | _ :: _ => none

def cleanupBucket (key : BucketKey) (b : ℕ) (intervalMs : Option Millis) : FetchRateLimiter :=
  let bucket := s.bucketAt b
  if s.queue key = [] ∧ bucket.active = 0 ∧ bucket.startedAt = [] then s.dropBucket key
  else if 0 < bucket.active ∨ s.queue key ≠ [] then s
  else
    match intervalMs with
    | none => s
    | some intervalMs => s.putBucket b { bucket with cleanupTimer := some (key, intervalMs) }

/-- What follows the end of a task, whether it has failed or not. -/
def settle (i : ℕ) : Option FetchRateLimiter :=
  match s.tasks i with
  | some (.running item b) =>
    let s := s.putTask i .settled
    let s := s.putBucket b { s.bucketAt b with active := (s.bucketAt b).active - 1 }
    let s := if s.queue item.bucketKey = [] then s else s.addPending item.bucketKey
    some ((s.cleanupBucket item.bucketKey b item.options.intervalMs).scheduleDrain (some 0))
  | some .free => some (s.putTask i .settled)
  | _ => none

def fireCleanup (b : ℕ) : Option FetchRateLimiter :=
  (s.bucketAt b).cleanupTimer.map fun (key, intervalMs) =>
    let bucket : BucketState :=
      { s.bucketAt b with
        startedAt := prune (s.bucketAt b).startedAt s.now intervalMs, cleanupTimer := none }
    let s := s.putBucket b bucket
    if bucket.active = 0 ∧ bucket.startedAt = [] ∧ s.queue key = [] then s.dropBucket key
    else s

def dispose : FetchRateLimiter :=
  let queued := s.queuesByBucket.entries.flatMap Prod.snd
  { s with
    isDisposed := true
    drainTimer := none
    drainScheduled := false
    bucketAt b :=
      if b ∈ s.buckets.entries.map Prod.snd then { s.bucketAt b with cleanupTimer := none }
      else s.bucketAt b
    tasks i := if i ∈ queued.map QueueItem.task then some .rejected else s.tasks i
    rejections := s.rejections ++ queued.map QueueItem.task
    queuesByBucket := .empty
    pendingBuckets := []
    buckets := .empty }

/-- Time passes and timers, tasks and microtasks go on between the synchronous runs of the code. -/
def step (s : FetchRateLimiter) : LimiterAction → Option FetchRateLimiter
  | .tick => if s.drain.isNone then some { s with now := s.now + 1 } else none
  | .schedule options context => some (s.schedule options context)
  | .runDrain =>
    if s.drain.isNone ∧ s.drainScheduled then
      some { s with drainScheduled := false }.beginDrain
    else none
  | .fireTimer => if s.drain.isNone ∧ s.drainTimer.isSome then some s.beginDrain else none
  | .visit => s.visit
  | .endDrain => s.endDrain
  | .settle i => if s.drain.isNone then s.settle i else none
  | .fireCleanup b => if s.drain.isNone then s.fireCleanup b else none
  | .dispose => some s.dispose

end FetchRateLimiter

end LayerCache
