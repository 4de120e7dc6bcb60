import LayerCache.Resilience.LimiterSteps

/-! # Interval limits

A task with an interval limit starts where its bucket has kept fewer start times than the limit
allows. These are all the starts of the interval as long as no shorter interval has pruned any of
them.
-/

namespace LayerCache.FetchRateLimiter

open Transition

variable {s s' : FetchRateLimiter} {key : BucketKey} {item : QueueItem} {b : ℕ}

/-- The starts of a bucket within an interval before a time, neither end included. -/
def inWindow (s : FetchRateLimiter) (key : BucketKey) (time : ℕ) (intervalMs : Millis) : List ℕ :=
  (s.times key).filter fun t => (time : ℚ) - intervalMs < t ∧ t < time

/-- No task has started after as many starts in its interval as it allows. -/
def WithinWindows (s : FetchRateLimiter) : Prop :=
  ∀ e ∈ s.starts, ∀ limit ∈ e.item.options.interval,
    ((s.inWindow e.item.bucketKey e.time limit.1).length : ℚ) < limit.2

instance (s : FetchRateLimiter) : Decidable s.WithinWindows :=
  inferInstanceAs (Decidable (∀ e ∈ s.starts, ∀ limit ∈ e.item.options.interval,
    ((s.inWindow e.item.bucketKey e.time limit.1).length : ℚ) < limit.2))

/-- The bucket that a drain visits still has all start times in the interval of its head. -/
def KeepsWindow (s : FetchRateLimiter) : LimiterAction → Prop
  | .visit => ∀ drain ∈ s.drain, ∀ key ∈ drain.todo.head?, ∀ item ∈ (s.queue key).head?,
      ∀ b ∈ s.buckets.get key, ∀ limit ∈ item.options.interval,
        (s.inWindow key s.now limit.1).Sublist (s.bucketAt b).startedAt
  | _ => True

instance (s : FetchRateLimiter) : ∀ act, Decidable (s.KeepsWindow act)
  | .visit => inferInstanceAs (Decidable (∀ drain ∈ s.drain, ∀ key ∈ drain.todo.head?,
      ∀ item ∈ (s.queue key).head?, ∀ b ∈ s.buckets.get key, ∀ limit ∈ item.options.interval,
        (s.inWindow key s.now limit.1).Sublist (s.bucketAt b).startedAt))
  | .tick | .schedule _ _ | .runDrain | .fireTimer | .endDrain | .settle _ | .fireCleanup _
  | .dispose => isTrue trivial

structure Timed (s : FetchRateLimiter) : Prop where
  now_pos : 0 < s.now
  time_pos : ∀ e ∈ s.starts, 0 < e.time

theorem Timed.step {act : LimiterAction} (h : s.Timed) (hinv : s.Inv)
    (hs : s.step act = some s') : s'.Timed := by
  rcases hinv.starts_step hs with ⟨hstarts, hnow, -⟩ | ⟨item, b, hstart⟩
  · exact ⟨h.now_pos.trans_le hnow, hstarts ▸ h.time_pos⟩
  · refine ⟨hstart.now ▸ h.now_pos, fun e he => ?_⟩
    rw [hstart.starts] at he
    rcases List.mem_append.mp he with he | he
    · exact h.time_pos e he
    · cases List.mem_singleton.mp he
      exact h.now_pos

theorem filter_prune (startedAt : List ℕ) (now : ℕ) (intervalMs : Millis) :
    (startedAt.filter fun t : ℕ => (now : ℚ) - intervalMs < t).Sublist
      (prune startedAt now intervalMs) := by
  unfold prune
  induction startedAt with
  | nil => exact .slnil
  | cons t startedAt ih =>
    by_cases hpassed : intervalMs ≤ (now : ℚ) - t
    · rw [List.filter_cons_of_neg (by simp only [decide_eq_true_eq]; linarith),
        List.dropWhile_cons_of_pos (by simpa using hpassed)]
      exact ih
    · rw [List.dropWhile_cons_of_neg (by simpa using hpassed)]
      exact List.filter_sublist

/-- The first start time is only zero if the clock once was. -/
theorem length_prune_of_waitTime (hpos : ∀ t ∈ (s.bucketAt b).startedAt, 0 < t)
    (hwait : (waitTime (s.bucketAt b) s.now item.options).1 ≤ 0) :
    ∀ limit ∈ item.options.interval,
      ((prune (s.bucketAt b).startedAt s.now limit.1).length : ℚ) < limit.2 := by
  rintro ⟨intervalMs, maxPerInterval⟩ hlimit
  have hlimit : item.options.interval = some (intervalMs, maxPerInterval) := hlimit
  unfold waitTime at hwait
  split at hwait
  · exact absurd hwait (by norm_num)
  · rw [hlimit] at hwait
    simp only at hwait ⊢
    split at hwait
    · assumption
    · rename_i hfull
      exfalso
      cases hkept : prune (s.bucketAt b).startedAt s.now intervalMs with
      | nil =>
        obtain ⟨-, -, n, hn, hmax⟩ : intervalMs ∈ item.options.intervalMs ∧ True ∧
            ∃ n, item.options.maxPerInterval = some n ∧ n = maxPerInterval := by
          simpa [CacheRateLimitOptions.interval, Option.bind_eq_some_iff] using hlimit
        have := item.options.maxPerInterval_pos n hn
        rw [hkept] at hfull
        exact hfull (by simpa [hmax] using this)
      | cons t kept =>
        have ht : 0 < t := hpos t ((prune_suffix _ _ _).subset (hkept ▸ List.mem_cons_self))
        rw [hkept] at hwait
        simp only [List.head?_cons, Option.filter_some, decide_eq_true_eq] at hwait
        rw [if_pos (by simpa using ht.ne')] at hwait
        exact absurd hwait (by simp)

theorem Timed.startedAt_pos (h : s.Timed) (hinv : s.Inv) (hb : s.buckets.get key = some b) :
    ∀ t ∈ (s.bucketAt b).startedAt, 0 < t := by
  intro t ht
  obtain ⟨e, he, rfl⟩ := List.mem_map.mp ((hinv.window key b hb).subset ht)
  exact h.time_pos e (List.mem_filter.mp he).1

/-- A start keeps all windows if its bucket has kept its own. -/
theorem WithinWindows.step {act : LimiterAction} (h : s.WithinWindows) (hinv : s.Inv)
    (htimed : s.Timed) (hkeeps : s.KeepsWindow act) (hs : s.step act = some s') :
    s'.WithinWindows := by
  rcases hinv.starts_step hs with ⟨hstarts, -, -⟩ | ⟨item, b, hstart⟩
  · unfold WithinWindows inWindow times at h ⊢
    rw [hstarts]
    exact h
  · have hold : ∀ key time intervalMs, time ≤ s.now →
        s'.inWindow key time intervalMs = s.inWindow key time intervalMs := by
      intro key time intervalMs htime
      have hlate : ¬ s.now < time := Nat.not_lt.mpr htime
      unfold inWindow times
      rw [hstart.starts, List.filter_append, List.map_append, List.filter_append]
      rw [List.append_right_eq_self, List.filter_eq_nil_iff]
      intro t ht
      obtain ⟨e, he, rfl⟩ := List.mem_map.mp ht
      cases List.mem_singleton.mp (List.mem_filter.mp he).1
      simp [hlate]
    intro e he limit hlimit
    rw [hstart.starts] at he
    rcases List.mem_append.mp he with he | he
    · rw [hold _ _ _ (hinv.started_at e he)]
      exact h e he limit hlimit
    · cases List.mem_singleton.mp he
      rw [hold _ _ _ (Nat.le_refl _)]
      obtain ⟨drain, todo, hdrain, htodo, queue, hqueue, -⟩ := hstart.drain
      have hvisit := hstart.visit
      subst hvisit
      have hkept := hkeeps drain hdrain item.bucketKey (by simp [htodo]) item (by simp [hqueue]) b
        hstart.bucket limit hlimit
      have hlength := length_prune_of_waitTime (htimed.startedAt_pos hinv hstart.bucket)
        hstart.waitTime limit hlimit
      have hsublist : (s.inWindow item.bucketKey s.now limit.1).Sublist
          (prune (s.bucketAt b).startedAt s.now limit.1) := by
        refine List.Sublist.trans ?_ (filter_prune _ _ _)
        have hfilter := hkept.filter fun t : ℕ => (s.now : ℚ) - limit.1 < t
        rwa [List.filter_eq_self.mpr] at hfilter
        intro t ht
        have hin := (List.mem_filter.mp ht).2
        simp only [decide_eq_true_eq] at hin ⊢
        exact hin.1
      exact lt_of_le_of_lt (Nat.cast_le.mpr hsublist.length_le) hlength

/-- In a run in which every bucket keeps what the heads of its queue ask for, no task starts in a
full window. -/
theorem starts_withinWindows {now : ℕ} (hnow : 0 < now)
    (hrun : Reaches step KeepsWindow (initial now) s) : s.WithinWindows := by
  have hall : s.Inv ∧ s.Timed ∧ s.WithinWindows := by
    apply hrun.invariant (P := fun s => s.Inv ∧ s.Timed ∧ s.WithinWindows)
    · rintro s act s' ⟨hinv, htimed, hwithin⟩ hkeeps hs
      exact ⟨hinv.step hs, htimed.step hinv hs, hwithin.step hinv htimed hkeeps hs⟩
    · exact ⟨inv_initial now, ⟨hnow, fun e he => nomatch he⟩, fun e he => nomatch he⟩
  exact hall.2.2

def oncePer (intervalMs : ℕ) : CacheRateLimitOptions where
  maxConcurrent := none
  intervalMs := some (intervalMs + 1)
  maxPerInterval := some 1
  scope := none
  bucketKey := some "b"
  queueOverflow := none
  maxConcurrent_pos := pos_of_mem_none
  intervalMs_pos := by
    rintro _ ⟨⟩
    positivity
  maxPerInterval_pos := pos_of_mem_one
  bucketKey_ne := by
    rintro _ ⟨⟩
    decide

/-- The only task of a bucket runs, and its start time is cleaned up after its interval. -/
def cleanedUp (intervalMs : ℕ) : List LimiterAction :=
  [.schedule (some (oncePer intervalMs)) ⟨"k", 0⟩, .runDrain, .visit, .endDrain, .settle 0,
    .runDrain, .endDrain] ++ List.replicate (intervalMs + 1) .tick ++ [.fireCleanup 0]

def another (intervalMs : ℕ) : List LimiterAction :=
  [.schedule (some (oncePer intervalMs)) ⟨"k", 0⟩, .runDrain, .visit]

theorem starts_withinWindows_oncePer :
    ∃ s, run step (initial 5) (cleanedUp 9 ++ another 9) = some s ∧
      s.starts.map Start.time = [5, 15] ∧ s.WithinWindows := by
  have hrun : (run step (initial 5) (cleanedUp 9 ++ another 9)).map
      (fun s => s.starts.map Start.time) = some [5, 15] := by
    decide +kernel
  have hkeeps : Along step KeepsWindow (initial 5) (cleanedUp 9 ++ another 9) := by decide +kernel
  obtain ⟨s, hs, hstarts⟩ := Option.map_eq_some_iff.mp hrun
  exact ⟨s, hs, hstarts, starts_withinWindows (by decide) (reaches_of_run _ hs hkeeps)⟩

theorem not_withinWindows :
    ∃ s, run step (initial 5) (cleanedUp 9 ++ another 999) = some s ∧ ¬ s.WithinWindows := by
  have hrun : (run step (initial 5) (cleanedUp 9 ++ another 999)).map
      (fun s => decide s.WithinWindows) = some false := by
    decide +kernel
  obtain ⟨s, hs, hwithin⟩ := Option.map_eq_some_iff.mp hrun
  exact ⟨s, hs, of_decide_eq_false hwithin⟩

end LayerCache.FetchRateLimiter
