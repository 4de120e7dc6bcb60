import LayerCache.Resilience.LimiterSteps

/-! # The queues of the limiter

Queued tasks start in order and within their limits, and no queue is left behind: where one is
waiting, a drain is under way or scheduled, or the timer is set for a time before which no head of
a queue could start.
-/

namespace LayerCache.FetchRateLimiter

open Transition Counting

variable {s s' : FetchRateLimiter} {key : BucketKey} {item : QueueItem} {b time : ℕ}

/-- The limits of a task let it start at a time, if nothing starts or ends before. -/
structure Admissible (s : FetchRateLimiter) (item : QueueItem) (time : ℕ) : Prop where
  maxConcurrent : ∀ n ∈ item.options.maxConcurrent, (s.runningUnder item.bucketKey : ℚ) < n
  interval : ∀ limit ∈ item.options.interval,
    (((s.times item.bucketKey).filter fun t : ℕ => (time : ℚ) - limit.1 < t).length : ℚ) < limit.2

theorem Inv.runningUnder_eq_active (h : s.Inv) (hlive : s.isDisposed = false)
    (hb : s.buckets.get key = some b) : s.runningUnder key = (s.bucketAt b).active := by
  rw [h.active b]
  apply total_congr
  intro i _
  cases htask : s.tasks i with
  | none => rfl
  | some task =>
    cases task with
    | running item c =>
      have hc := (h.running i item c htask).2.2 hlive
      simp only [runsUnder, runsIn]
      by_cases hkey : item.bucketKey = key
      · subst hkey
        cases hb.symm.trans hc
        rw [if_pos rfl, if_pos rfl]
      · rw [if_neg hkey, if_neg]
        rintro rfl
        exact hkey (h.bucket_inj _ _ _ hc hb)
    | _ => rfl

/-- A head that has to wait is not admissible before it has waited. -/
theorem Inv.le_of_admissible (h : s.Inv) (hlive : s.isDisposed = false)
    (hb : s.buckets.get item.bucketKey = some b)
    (hwait : 0 < (waitTime (s.bucketAt b) s.now item.options).1) (htime : s.now ≤ time)
    (hadmissible : s.Admissible item time) :
    s.now + (waitTime (s.bucketAt b) s.now item.options).1 ≤ time := by
  have hactive := h.runningUnder_eq_active hlive hb
  have hkept := h.window item.bucketKey b hb
  unfold waitTime at hwait ⊢
  split
  · rename_i hfull
    obtain ⟨n, hn, hle⟩ := Option.any_eq_true _ _ |>.mp hfull
    have hlt := hadmissible.maxConcurrent n hn
    rw [hactive] at hlt
    exact absurd (of_decide_eq_true hle) (not_le.mpr hlt)
  · rename_i hroom
    rw [if_neg hroom] at hwait
    cases hinterval : item.options.interval with
    | none =>
      rw [hinterval] at hwait
      exact absurd hwait (lt_irrefl 0)
    | some limit =>
      obtain ⟨intervalMs, maxPerInterval⟩ := limit
      have hcount := hadmissible.interval _ hinterval
      rw [hinterval] at hwait
      simp only at hwait hcount ⊢
      split
      · rename_i hfew
        rw [if_pos hfew] at hwait
        exact absurd hwait (lt_irrefl 0)
      · rename_i hfull
        rw [if_neg hfull] at hwait
        split
        · rename_i hnone
          rw [hnone] at hwait
          exact absurd hwait (lt_irrefl 0)
        · rename_i oldest holdest
          have hhead : (prune (s.bucketAt b).startedAt s.now intervalMs).head? = some oldest :=
            (Option.filter_eq_some_iff.mp holdest).1
          -- all that has been kept counts as long as the oldest does
          have hall : ∀ t : ℕ, (t : ℚ) - intervalMs < oldest →
              ((prune (s.bucketAt b).startedAt s.now intervalMs).length : ℚ) ≤
                ((s.times item.bucketKey).filter fun u : ℕ => (t : ℚ) - intervalMs < u).length := by
            intro t ht
            have hsuffix := (prune_suffix (s.bucketAt b).startedAt s.now intervalMs).trans hkept
            have hsorted := (h.times_sorted item.bucketKey).sublist hsuffix.sublist
            have hfilter := hsuffix.sublist.filter fun u : ℕ => (t : ℚ) - intervalMs < u
            rw [List.filter_eq_self.mpr] at hfilter
            · exact Nat.cast_le.mpr hfilter.length_le
            · intro u hu
              obtain ⟨rest, hrest⟩ := List.head?_eq_some_iff.mp hhead
              rw [hrest] at hsorted hu
              have hle : oldest ≤ u := by
                rcases List.mem_cons.mp hu with rfl | hu
                · exact Nat.le_refl _
                · exact (List.pairwise_cons.mp hsorted).1 u hu
              exact decide_eq_true (ht.trans_le (Nat.cast_le.mpr hle))
          have hlate : (oldest : ℚ) ≤ time - intervalMs := by
            by_contra hearly
            exact hfull (lt_of_le_of_lt (hall time (not_le.mp hearly)) hcount)
          have hnow : s.now ≠ time := by
            rintro rfl
            have hpassed := List.head?_dropWhile_not
              (fun t : ℕ => decide (intervalMs ≤ (s.now : ℚ) - t)) (s.bucketAt b).startedAt
            rw [prune] at hhead
            rw [hhead] at hpassed
            have hearly := of_decide_eq_false hpassed
            linarith
          have hnext : (s.now : ℚ) + 1 ≤ time := by
            exact_mod_cast Nat.lt_of_le_of_ne htime hnow
          rw [← le_sub_iff_add_le', max_le_iff]
          constructor
          · linarith
          · linarith

theorem Inv.runningUnder_lt (h : s.Inv) {act : LimiterAction} (hstart : Starting s s' act item b) :
    ∀ n ∈ item.options.maxConcurrent, (s.runningUnder item.bucketKey : ℚ) < n := by
  intro n hn
  rw [h.runningUnder_eq_active hstart.live hstart.bucket]
  by_contra hfull
  have hwait := hstart.waitTime
  unfold FetchRateLimiter.waitTime at hwait
  rw [if_pos] at hwait
  · exact absurd hwait (by norm_num)
  · exact Option.any_eq_true _ _ |>.mpr ⟨n, hn, decide_eq_true (not_lt.mp hfull)⟩

/-- No head of a queue is admissible before the deadline. -/
def DueBy (s : FetchRateLimiter) (deadline : Millis) : Prop :=
  ∀ time, s.now ≤ time → ∀ key, ∀ item ∈ (s.queue key).head?, s.Admissible item time →
    deadline ≤ time

/-- A drain is under way or scheduled, or the timer is set in time. -/
def Awake (s : FetchRateLimiter) : Prop :=
  s.drain.isSome ∨ s.drainScheduled = true ∨ ∃ deadline ∈ s.drainTimer, s.DueBy deadline

/-- A drain has found a wait for every queue that it has visited. -/
structure Visited (s : FetchRateLimiter) (drain : Drain) : Prop where
  wait_pos : ∀ waitMs ∈ drain.nextWaitMs, 0 < waitMs
  wait : ∀ key, ∀ item ∈ (s.queue key).head?, key ∈ drain.todo ∨
    ∃ waitMs ∈ drain.nextWaitMs, ∀ time, s.now ≤ time → s.Admissible item time →
      s.now + waitMs ≤ time

structure Progress (s : FetchRateLimiter) : Prop where
  awake : (∃ key, s.queue key ≠ []) → s.Awake
  visited : ∀ drain ∈ s.drain, s.drainScheduled = true ∨ drain.startedWork = true ∨
    (∀ key, s.queue key = []) ∨ s.Visited drain

theorem Progress.of_queue_eq_nil (hqueue : ∀ key, s.queue key = []) : s.Progress where
  awake := by
    rintro ⟨key, hkey⟩
    exact absurd (hqueue key) hkey
  visited _ _ := .inr (.inr (.inl hqueue))

theorem Progress.of_scheduled (h : s.drainScheduled = true) : s.Progress :=
  ⟨fun _ => .inr (.inl h), fun _ _ => .inl h⟩

theorem Calm.admissible_iff (h : Calm s s') : s'.Admissible item time ↔ s.Admissible item time := by
  have htimes : s'.times = s.times := by
    unfold times
    rw [h.starts]
  constructor
  · rintro ⟨hmax, hinterval⟩
    exact ⟨h.runningUnder _ ▸ hmax, htimes ▸ hinterval⟩
  · rintro ⟨hmax, hinterval⟩
    exact ⟨(h.runningUnder _).symm ▸ hmax, htimes.symm ▸ hinterval⟩

theorem Visited.calm {drain : Drain} (h : s.Visited drain) (hcalm : Calm s s') :
    s'.Visited drain where
  wait_pos := h.wait_pos
  wait := by
    simp only [hcalm.queue, hcalm.now, hcalm.admissible_iff]
    exact h.wait

theorem Progress.calm (h : s.Progress) (hcalm : Calm s s') : s'.Progress := by
  constructor
  · simp only [Awake, DueBy, hcalm.queue, hcalm.now, hcalm.admissible_iff, hcalm.drain,
      hcalm.drainScheduled, hcalm.drainTimer]
    exact h.awake
  · simp only [hcalm.queue, hcalm.drain, hcalm.drainScheduled]
    intro drain hdrain
    rcases h.visited drain hdrain with hscheduled | hstarted | hnil | hvisited
    · exact .inl hscheduled
    · exact .inr (.inl hstarted)
    · exact .inr (.inr (.inl hnil))
    · exact .inr (.inr (.inr (hvisited.calm hcalm)))

theorem Inv.progress_wakes (h : s'.Inv) (hwakes : Wakes s s') : s'.Progress := by
  cases hdisposed : s.isDisposed with
  | true =>
    exact .of_queue_eq_nil fun key =>
      (h.disposed (hwakes.isDisposed.trans hdisposed) key).1
  | false => exact .of_scheduled (hwakes.drainScheduled hdisposed)

theorem Visited.waiting {drain : Drain} {todo : List BucketKey} (h : s.Visited drain) (hinv : s.Inv)
    (hlive : s.isDisposed = false) (hb : s.buckets.get item.bucketKey = some b)
    (hhead : (s.queue item.bucketKey).head? = some item)
    (htodo : drain.todo = item.bucketKey :: todo)
    (hwait : 0 < (waitTime (s.bucketAt b) s.now item.options).1) :
    s.Visited { drain with
      todo
      nextWaitMs := some (drain.nextWaitMs.elim (waitTime (s.bucketAt b) s.now item.options).1
        (min · (waitTime (s.bucketAt b) s.now item.options).1)) } := by
  have hbound : ∀ time, s.now ≤ time → s.Admissible item time →
      s.now + (waitTime (s.bucketAt b) s.now item.options).1 ≤ time :=
    fun time htime hadmissible => hinv.le_of_admissible hlive hb hwait htime hadmissible
  generalize (waitTime (s.bucketAt b) s.now item.options).1 = waitMs at hwait hbound ⊢
  constructor
  · rintro _ ⟨⟩
    cases hnext : drain.nextWaitMs with
    | none => exact hwait
    | some earlier => exact lt_min (h.wait_pos earlier hnext) hwait
  · intro key other hother
    by_cases hkey : key = item.bucketKey
    · subst hkey
      cases Option.some.inj (hother.symm.trans hhead)
      refine .inr ⟨_, rfl, fun time htime hadmissible => ?_⟩
      have hle := hbound time htime hadmissible
      cases drain.nextWaitMs with
      | none => exact hle
      | some earlier =>
        have hmin := min_le_right earlier waitMs
        simp only [Option.elim]
        linarith
    · rcases h.wait key other hother with hmem | ⟨earlier, hnext, hearlier⟩
      · rw [htodo] at hmem
        rcases List.mem_cons.mp hmem with hmem | hmem
        · exact absurd hmem hkey
        · exact .inl hmem
      · refine .inr ⟨_, rfl, fun time htime hadmissible => ?_⟩
        have hle := hearlier time htime hadmissible
        have hmin := min_le_left earlier waitMs
        rw [Option.mem_def.mp hnext]
        simp only [Option.elim]
        linarith

theorem Progress.wait (h : s.Progress) (hinv : s.Inv) (hwaiting : Waiting s s' item b) :
    s'.Progress := by
  obtain ⟨drain, todo, hdrain, htodo, hwait, rfl⟩ := hwaiting.drain
  refine ⟨fun _ => .inl rfl, ?_⟩
  rintro _ ⟨⟩
  rcases h.visited drain hdrain with hscheduled | hstarted | hnil | hvisited
  · exact .inl hscheduled
  · exact .inr (.inl hstarted)
  · exact .inr (.inr (.inl hnil))
  · right; right; right
    have hwaits := hvisited.waiting hinv hwaiting.live hwaiting.bucket hwaiting.head htodo hwait
    exact ⟨hwaits.wait_pos, fun key other hother => (hwaits.wait key other hother).imp id
      fun ⟨waitMs, hnext, hle⟩ => ⟨waitMs, hnext, fun time htime ⟨hmax, hinterval⟩ =>
        hle time htime ⟨hmax, hinterval⟩⟩⟩

theorem scheduled_scheduleDrain (h : s.drainScheduled = true) (delayMs : Option Millis) :
    (s.scheduleDrain delayMs).drainScheduled = true := by
  unfold scheduleDrain
  split
  · exact h
  · split
    · exact h
    · split
      · rfl
      · exact h

theorem DueBy.mono {deadline earlier : Millis} (h : s.DueBy deadline) (hle : earlier ≤ deadline) :
    s.DueBy earlier :=
  fun time htime key item hitem hadmissible =>
    hle.trans (h time htime key item hitem hadmissible)

/-- A timer that is set already is kept if it is not later. -/
theorem DueBy.scheduleDrain {waitMs : Millis} (hdue : s.DueBy (s.now + waitMs))
    (hpos : 0 < waitMs) (hlive : s.isDisposed = false) (hdrain : s.drain = none) :
    (s.scheduleDrain (some waitMs)).Progress := by
  cases hscheduled : s.drainScheduled with
  | true => exact .of_scheduled (scheduled_scheduleDrain hscheduled _)
  | false =>
    unfold FetchRateLimiter.scheduleDrain
    simp only [hlive, hscheduled, Bool.false_eq_true, if_false, if_neg (not_le.mpr hpos)]
    split
    · rename_i hearlier
      obtain ⟨earlier, htimer, hle⟩ := Option.any_eq_true _ _ |>.mp hearlier
      refine ⟨fun _ => .inr (.inr ⟨earlier, htimer, hdue.mono (of_decide_eq_true hle)⟩), ?_⟩
      intro drain hsome
      cases hdrain.symm.trans hsome
    · refine ⟨fun _ => .inr (.inr ⟨_, rfl, ?_⟩), ?_⟩
      · intro time htime key item hitem hadmissible
        exact hdue time htime key item hitem ⟨hadmissible.maxConcurrent, hadmissible.interval⟩
      · intro drain hsome
        cases hdrain.symm.trans hsome

/-- Where a queue is left, the drain that has started nothing knows how long to wait. -/
theorem Visited.due {drain : Drain} (h : s.Visited drain) (htodo : drain.todo = [])
    (hkey : s.queue key ≠ []) :
    ∃ waitMs, drain.nextWaitMs = some waitMs ∧ 0 < waitMs ∧ s.DueBy (s.now + waitMs) := by
  have hwaits : ∀ key, ∀ item ∈ (s.queue key).head?, ∃ waitMs ∈ drain.nextWaitMs,
      ∀ time, s.now ≤ time → s.Admissible item time → s.now + waitMs ≤ time := by
    intro key item hitem
    rcases h.wait key item hitem with hmem | hwait
    · rw [htodo] at hmem
      cases hmem
    · exact hwait
  obtain ⟨item, hitem⟩ : ∃ item, (s.queue key).head? = some item := by
    cases hq : s.queue key with
    | nil => exact absurd hq hkey
    | cons item queue => exact ⟨item, rfl⟩
  obtain ⟨waitMs, hnext, -⟩ := hwaits key item hitem
  refine ⟨waitMs, hnext, h.wait_pos waitMs hnext, ?_⟩
  intro time htime k head hhead hadmissible
  obtain ⟨waitMs', hnext', hle⟩ := hwaits k head hhead
  cases Option.some.inj (Eq.trans (Eq.symm hnext) hnext')
  exact hle time htime hadmissible

theorem Progress.finish (h : s.Progress) (hinv : s.Inv) {drain : Drain}
    (hdrain : s.drain = some drain) (htodo : drain.todo = []) :
    (if s.pendingBuckets = [] then { s with drain := none }
      else { s with drain := none }.scheduleDrain
        (if drain.startedWork then some 0 else drain.nextWaitMs)).Progress := by
  have hended : Inv { s with drain := none } := { hinv with }
  by_cases hqueue : ∀ key, s.queue key = []
  · split
    · exact .of_queue_eq_nil hqueue
    · obtain ⟨timer, scheduled, hs⟩ := scheduleDrain_spec { s with drain := none }
        (if drain.startedWork then some 0 else drain.nextWaitMs)
      rw [hs]
      exact .of_queue_eq_nil hqueue
  · obtain ⟨key, hkey⟩ := not_forall.mp hqueue
    have hlive : s.isDisposed = false := by
      by_contra hdisposed
      exact hkey (hinv.disposed (Bool.not_eq_false _ ▸ hdisposed) key).1
    rw [if_neg (List.ne_nil_of_mem (hinv.pending key hkey))]
    cases hstarted : drain.startedWork with
    | true =>
      rw [if_pos rfl]
      exact (hended.scheduleDrain _).progress_wakes (s := s) (.scheduleDrain rfl rfl rfl)
    | false =>
      rw [if_neg Bool.false_ne_true]
      rcases h.visited drain hdrain with hscheduled | hstarted' | hnil | hvisited
      · have hended : FetchRateLimiter.drainScheduled { s with drain := none } = true := hscheduled
        exact .of_scheduled (scheduled_scheduleDrain hended _)
      · cases hstarted.symm.trans hstarted'
      · exact absurd hnil hqueue
      · obtain ⟨waitMs, hnext, hpos, hdue⟩ := hvisited.due htodo hkey
        rw [hnext]
        refine DueBy.scheduleDrain ?_ hpos hlive rfl
        intro time htime k head hhead hadmissible
        exact hdue time htime k head hhead ⟨hadmissible.maxConcurrent, hadmissible.interval⟩

theorem Progress.step {act : LimiterAction} (h : s.Progress) (hinv : s.Inv)
    (hs : s.step act = some s') : s'.Progress := by
  have hinv' := hinv.step hs
  cases hinv.step_cases hs with
  | tick hdrain hs =>
    subst hs
    constructor
    · intro hqueue
      rcases h.awake hqueue with hsome | hscheduled | ⟨deadline, htimer, hdue⟩
      · exact .inl hsome
      · exact .inr (.inl hscheduled)
      · refine .inr (.inr ⟨deadline, htimer, fun time htime key item hitem hadmissible => ?_⟩)
        exact hdue time ((Nat.le_succ _).trans htime) key item hitem
          ⟨hadmissible.maxConcurrent, hadmissible.interval⟩
    · intro drain hsome
      cases hdrain.symm.trans hsome
  | calm hcalm => exact h.calm hcalm
  | wakes hwakes => exact hinv'.progress_wakes hwakes
  | begin scheduled hs =>
    subst hs
    refine ⟨fun _ => .inl rfl, ?_⟩
    rintro _ ⟨⟩
    have hnone : ∀ ms ∈ (none : Option Millis), 0 < ms := by
      rintro _ ⟨⟩
    refine .inr (.inr (.inr ⟨hnone, fun key item hitem => .inl (hinv.pending key ?_)⟩))
    intro hnil
    have hitem : (s.queue key).head? = some item := hitem
    rw [hnil] at hitem
    cases hitem
  | skip drain key todo hdrain htodo hqueue hs =>
    subst hs
    refine ⟨fun _ => .inl rfl, ?_⟩
    rintro _ ⟨⟩
    have hq := queue_delete_of_nil hqueue
    rcases h.visited drain hdrain with hscheduled | hstarted | hnil | hvisited
    · exact .inl hscheduled
    · exact .inr (.inl hstarted)
    · exact .inr (.inr (.inl fun k => (hq k).trans (hnil k)))
    · refine .inr (.inr (.inr ⟨hvisited.wait_pos, fun k item hitem => ?_⟩))
      rw [queue, hq] at hitem
      rcases hvisited.wait k item hitem with hmem | ⟨waitMs, hnext, hle⟩
      · rw [htodo] at hmem
        rcases List.mem_cons.mp hmem with rfl | hmem
        · rw [hqueue] at hitem
          cases hitem
        · exact .inl hmem
      · refine .inr ⟨waitMs, hnext, ?_⟩
        rintro time htime ⟨hmax, hinterval⟩
        exact hle time htime ⟨hmax, hinterval⟩
  | wait item b hwaiting => exact h.wait hinv hwaiting
  | start item b hstart =>
    obtain ⟨drain, todo, -, -, queue, -, rfl⟩ := hstart.drain
    refine ⟨fun _ => .inl rfl, ?_⟩
    rintro _ ⟨⟩
    exact .inr (.inl rfl)
  | finish drain hdrain htodo hs =>
    subst hs
    exact h.finish hinv hdrain htodo
  | dispose hs =>
    subst hs
    exact .of_queue_eq_nil fun _ => rfl

/-- The queues of a limiter, and its next steps, are in order. -/
structure Disciplined (s : FetchRateLimiter) : Prop where
  start : ∀ act s', s.step act = some s' → s'.starts = s.starts ∨
    ∃ item, s'.starts = s.starts ++ [⟨item, s.now⟩] ∧
      (s.queue item.bucketKey).head? = some item ∧
      ∀ n ∈ item.options.maxConcurrent, (s.runningUnder item.bucketKey : ℚ) < n
  recorded : ∀ i item b, s.tasks i = some (.running item b) → ∃ e ∈ s.starts, e.item = item
  queued : ∀ i item, s.tasks i = some (.queued item) ↔ item.task = i ∧ item ∈ s.queue item.bucketKey
  sorted : ∀ key, (s.queue key).Pairwise fun a b => a.task < b.task
  ordered : s.starts.Pairwise fun a b =>
    a.item.bucketKey = b.item.bucketKey → a.item.task < b.item.task
  once : (s.starts.map fun e => e.item.task).Nodup
  awake : (∃ key, s.queue key ≠ []) → s.Awake
  running_bucket : ∀ i item b, s.tasks i = some (.running item b) → s.isDisposed = false →
    s.buckets.get item.bucketKey = some b
  queue_bucket : ∀ key, s.queue key ≠ [] → ∃ b, s.buckets.get key = some b
  rejections_nodup : s.rejections.Nodup
  rejected : ∀ i item, s.tasks i = some (.queued item) →
    i ∉ s.rejections ∧ i ∈ s.dispose.rejections
  disposed : ∀ s', Reaches step (fun _ _ => True) s.dispose s' → s'.starts = s.starts

/-- Nothing starts once the limiter is disposed of. -/
theorem Inv.starts_of_disposed (h : s.Inv) (hdisposed : s.isDisposed = true)
    (hrun : Reaches FetchRateLimiter.step (fun _ _ => True) s s') : s'.starts = s.starts := by
  have hall : s'.Inv ∧ s'.isDisposed = true ∧ s'.starts = s.starts := by
    apply hrun.invariant (P := fun t => t.Inv ∧ t.isDisposed = true ∧ t.starts = s.starts)
    · rintro t act t' ⟨hinv, hdisposed, hstarts⟩ - ht
      rcases hinv.starts_step ht with ⟨hsame, -, hstays⟩ | ⟨item, b, hstart⟩
      · exact ⟨hinv.step ht, hstays hdisposed, hsame.trans hstarts⟩
      · cases hdisposed.symm.trans hstart.live
    · exact ⟨h, hdisposed, rfl⟩
  exact hall.2.2

theorem Inv.followsDiscipline (h : s.Inv) (hprogress : s.Progress) : s.Disciplined where
  start act s' hs := by
    rcases h.starts_step hs with ⟨hstarts, -⟩ | ⟨item, b, hstart⟩
    · exact .inl hstarts
    · obtain ⟨-, -, -, -, queue, hqueue, -⟩ := hstart.drain
      exact .inr ⟨item, hstart.starts, by simp [hqueue], h.runningUnder_lt hstart⟩
  recorded := h.recorded
  queued i item := by
    constructor
    · exact h.enqueued i item
    · rintro ⟨rfl, hmem⟩
      exact (h.queued item.bucketKey item hmem).2
  sorted := h.sorted
  ordered := h.ordered
  once := h.once
  awake := hprogress.awake
  running_bucket i item b hi := (h.running i item b hi).2.2
  queue_bucket := h.queue_bucket
  rejections_nodup := h.rejections_nodup
  rejected i item hi := by
    constructor
    · intro hmem
      cases hi.symm.trans ((h.rejected i).mp hmem)
    · exact List.mem_append_right _ ((h.mem_queues i).mpr ⟨item, hi⟩)
  disposed s' hrun := h.dispose.starts_of_disposed rfl hrun

theorem disciplined {now : ℕ} (hrun : Reaches step (fun _ _ => True) (initial now) s) :
    s.Disciplined := by
  have hall : s.Inv ∧ s.Progress := by
    apply hrun.invariant (P := fun s => s.Inv ∧ s.Progress)
    · rintro s act s' ⟨hinv, hprogress⟩ - hs
      exact ⟨hinv.step hs, hprogress.step hinv hs⟩
    · exact ⟨inv_initial now, .of_queue_eq_nil fun _ => rfl⟩
  exact hall.1.followsDiscipline hall.2

def oneAtATime : CacheRateLimitOptions where
  maxConcurrent := some 1
  intervalMs := none
  maxPerInterval := none
  scope := none
  bucketKey := none
  queueOverflow := none
  maxConcurrent_pos := pos_of_mem_one
  intervalMs_pos := pos_of_mem_none
  maxPerInterval_pos := pos_of_mem_none
  bucketKey_ne := nofun

/-- One of two tasks starts, and the other waits for a millisecond. -/
def secondWaits : List LimiterAction :=
  [.schedule (some oneAtATime) ⟨"a", 0⟩, .schedule (some oneAtATime) ⟨"b", 0⟩, .runDrain, .visit,
    .endDrain, .runDrain, .visit, .endDrain]

theorem disciplined_secondWaits :
    ∃ s, run step (initial 5) secondWaits = some s ∧ s.drainTimer = some 6 ∧ s.Disciplined := by
  have hrun : (run step (initial 5) secondWaits).map (·.drainTimer) = some (some 6) := by
    decide +kernel
  obtain ⟨s, hs, htimer⟩ := Option.map_eq_some_iff.mp hrun
  have hall : Along step (fun _ _ => True) (initial 5) secondWaits := by decide +kernel
  exact ⟨s, hs, htimer, disciplined (reaches_of_run _ hs hall)⟩

end LayerCache.FetchRateLimiter
