import LayerCache.Stack.NoStaleReads
import LayerCache.Stack.TimedOutFetches

/-! # Isolation of timed-out fetches

The store of a fetch that has timed out runs behind a fence that has moved, so that its
cleanup takes back what it writes, and all of it before a retry's store begins. What the
cleanup cannot reach is a copy that a later `get` has taken of the value in between.
-/

namespace LayerCache

open Store Transition

variable {K V T : Type} {cfg : Config}

namespace TimeoutStack

variable [DecidableEq K] {s : TimeoutStack K V T} {i w born : ℕ} {task : Task K V}

theorem Inv.stored_of_cell (h : s.Inv cfg) (hi : s.stack.tasks i = some task)
    (hborn : s.fetchedAt i = some born) {l : ℕ} {k : K} {cell : Cell V}
    (hcell : s.stack.store.cells l k = some cell) (hb : cell.item.born = born) :
    k = task.key ∧ ∃ w, s.storedAs i = some w ∧ s.Stores cfg i w task born ∧
      Started s.stack.store.chain w := by
  obtain ⟨hk, w, hw, -⟩ := h.traced i task born hi hborn 0 k (.cell hcell hb)
  obtain ⟨-, w', hw', hstarted⟩ := h.traced i task born hi hborn w k (.cell hcell hb)
  obtain rfl := Option.some.inj (hw.symm.trans hw')
  obtain ⟨task', born', hi', hst⟩ := h.stored i w hw
  obtain rfl := Option.some.inj (hi.symm.trans hi')
  obtain rfl := Option.some.inj (hborn.symm.trans hst.fetched)
  exact ⟨hk, w, hw, hst, hstarted rfl⟩

/-- While a store is at work, no later one of the key has started. -/
theorem Inv.not_started (h : s.Inv cfg) (hst : s.Stores cfg i w task born) {u : ℕ}
    (hopen : s.stack.store.chain.Open u task.key) (hlt : u < w) :
    ¬ Started s.stack.store.chain w := by
  have hwf := h.intact.sound.wf
  obtain ⟨o, st, ho, hsole, -⟩ := hst.answers.order
  obtain ⟨tk, htk⟩ := hwf.ticket w o ho
  have hk : task.key ∈ tk.keys := (htk.keys _).mpr (by simp [hsole.keys])
  rintro ⟨tk', hget, hne⟩
  obtain rfl := Option.some.inj (hget.symm.trans htk.get)
  exact hne (hwf.chain.queued_behind hopen hlt htk.get hk)

theorem Inv.open_of_busy (h : s.Inv cfg) (hst : s.Stores cfg i w task born) {a : StoreAction}
    {c : Store K V} {m n : ℕ} (ha : a = .land w m n ∨ a = .wipe w m n)
    (hc : s.stack.storeChange a = some c) : s.stack.store.chain.Open w task.key := by
  have hwf := h.intact.sound.wf
  obtain ⟨o, st, ho, hmem, hplanned, hdone⟩ : ∃ o st, s.stack.store.orders w = some o ∧
      st ∈ o.strands ∧ st.phase ≠ .planned ∧ st.done = false := by
    rcases ha with rfl | rfl
    · obtain ⟨o, st, p, st', ho, hm, hland, -⟩ := land_spec hc
      obtain ⟨hplanned, hdone, -⟩ := Strand.busy_of_land hland
      exact ⟨o, st, ho, List.mem_of_getElem? hm, hplanned, hdone⟩
    · obtain ⟨o, st, l, k, st', ho, hm, hwipe, -⟩ := wipe_spec hc
      obtain ⟨hplanned, hdone, -⟩ := Strand.busy_of_wipe hwipe
      exact ⟨o, st, ho, List.mem_of_getElem? hm, hplanned, hdone⟩
  obtain ⟨o', st', ho', hsole, -⟩ := hst.answers.order
  obtain rfl := Option.some.inj (ho.symm.trans ho')
  obtain ⟨tk, htk, hrun⟩ := hwf.running ho hmem hplanned hdone
  exact ⟨tk, htk.get, (htk.keys _).mpr (by simp [hsole.keys]), by simp [hrun]⟩

theorem Inv.isolated (h : s.Inv cfg) : s.Isolated cfg where
  gone hquiescent i x born hx hstored hborn l hl k cell hcell hb := by
    obtain ⟨task, r, hi, -, -, -, hbefore⟩ := h.timedOut i x hx
    obtain ⟨rfl, w, hw, hst, -⟩ := h.stored_of_cell hi hborn hcell hb
    obtain ⟨o, st, ho, hmem, hholds⟩ :=
      hst.answers.held ((hbefore w hw).2 hstored) l hl cell hcell hb
    obtain ⟨tk, htk⟩ := h.intact.sound.wf.ticket w o ho
    have hsettled := hquiescent.orders w (hst.lt_clock h) o ho
    have hdone := htk.done (by simpa [TailChain.Chain.settledAt, htk.get] using hsettled) st hmem
    rcases hholds with ⟨active, todo, hp, -⟩ | ⟨todo, hp, -⟩ <;> simp [Strand.done, hp] at hdone
  spared i x task w a c hx hi hw hact hc j retry born hj hkey hlt hborn l cell hcell hb := by
    have hwf := h.intact.sound.wf
    obtain ⟨task', r, hi', -, -, -, hbefore⟩ := h.timedOut i x hx
    obtain ⟨task₀, born₀, hi₀, hst⟩ := h.stored i w hw
    obtain rfl := Option.some.inj (hi.symm.trans hi₀)
    obtain ⟨-, u, -, hst', hstarted⟩ := h.stored_of_cell hj hborn hcell hb
    obtain ⟨o', ho', -, hcaptured⟩ := hst'.order
    have hle := hwf.captured_le u o' ho'
    have hwu : w < u := by
      have := (hbefore w hw).1
      omega
    obtain ⟨m, n, ha⟩ := hact
    have hopen := h.open_of_busy hst ha hc
    exact absurd hstarted (h.not_started hst' (hkey ▸ hopen) hwu)

variable {now : Millis} {contents : ℕ → K → Option (Stored V × Option Millis)}

/-- Whatever the order of gets, timeouts, retries and late completions: while no order and no
renewal brings a retracted value back, the value of a timed-out fetch is gone in the end, and it
leaves the values of later retries alone. -/
theorem timedOut_isolated [DecidableEq T] (hthrough : ∀ l, cfg.writeBehind l = false)
    (hrun : Reaches (step cfg) (fun s a => s.KeepsRetracted a) (initial now contents) s) :
    s.Isolated cfg := by
  have hinv : s.Inv cfg := Reaches.invariant (P := fun s => s.Inv cfg) hrun
    (fun s a s' h hok hs => h.step hthrough hok hs) (inv_initial now contents)
  exact hinv.isolated

/-- A `get` misses, fetches a value, and its store is about to reach the layers. -/
def fetchValue : List (TimeoutAction ℕ ℕ ℕ) :=
  [.stack (.get (.get 0 Stack.fetching)), .stack (.read (.load 1)), .stack (.read (.resume 1)),
    .stack (.read (.load 1)), .stack (.read (.resume 1)), .stack (.read (.unindex 1)),
    .stack (.get (.conclude 1)), .stack (.get (.enter 1)), .stack (.get (.recheck 8)),
    .stack (.read (.load 9)), .stack (.read (.resume 9)), .stack (.read (.load 9)),
    .stack (.read (.resume 9)), .stack (.read (.unindex 9)), .stack (.get (.rechecked 8)),
    .stack (.get (.fetch 8)), .stack (.get (.fetched 8 (.store (.forMinute 7) none))),
    .stack (.store (.start 17))]

/-- The entry times out, and a retry fetches and stores a value of its own behind the late store. -/
def retryAfterTimeout : List (TimeoutAction ℕ ℕ ℕ) :=
  [.timeout 1, .stack (.get (.get 0 Stack.fetching)), .stack (.read (.load 20)),
    .stack (.read (.resume 20)), .stack (.read (.load 20)), .stack (.read (.resume 20)),
    .stack (.read (.unindex 20)), .stack (.get (.conclude 20)), .stack (.get (.enter 20)),
    .stack (.get (.recheck 27)), .stack (.read (.load 28)), .stack (.read (.resume 28)),
    .stack (.read (.load 28)), .stack (.read (.resume 28)), .stack (.read (.unindex 28)),
    .stack (.get (.rechecked 27)), .stack (.get (.fetch 27)),
    .stack (.get (.fetched 27 (.store (.forMinute 8) none))), .stack (.store (.land 17 0 0)),
    .stack (.store (.land 17 0 0)), .stack (.store (.check 17 0)), .stack (.store (.wipe 17 0 0)),
    .stack (.store (.wipe 17 0 0)), .stack (.store (.settle 17)), .stack (.write (.enqueue 17)),
    .stack (.write (.verify 17)), .stack (.get (.stored 8)), .stack (.get (.settle 8)),
    .stack (.store (.start 36)), .stack (.store (.land 36 0 0)), .stack (.store (.land 36 0 0)),
    .stack (.store (.check 36 0)), .stack (.store (.settle 36)), .stack (.write (.enqueue 36)),
    .stack (.write (.verify 36)), .stack (.write (.track 36)), .stack (.write (.track 36)),
    .stack (.write (.announce 36)), .stack (.get (.stored 27)), .stack (.get (.settle 27)),
    .stack (.get (.leave 20))]

theorem timedOut_isolated_at_retry :
    ∃ s ∈ run (step memoryOverRedis) (initial 0 fun _ _ => none)
        (fetchValue ++ retryAfterTimeout),
      s.Isolated memoryOverRedis ∧ s.stack.Quiescent ∧ s.timedOut 8 = some ⟨19, false⟩ ∧
        ∀ l < 2, (s.stack.store.cells l 0).map (fun cell => cell.item.born) = some 35 := by
  obtain ⟨s, hs, hend⟩ : ∃ s ∈ run (step memoryOverRedis) (initial 0 fun _ _ => none)
      (fetchValue ++ retryAfterTimeout),
      s.stack.Quiescent ∧ s.timedOut 8 = some ⟨19, false⟩ ∧
        ∀ l < 2, (s.stack.store.cells l 0).map (fun cell => cell.item.born) = some 35 := by
    decide +kernel
  have hrun := reaches_of_run (fun s a => s.KeepsRetracted a) hs (by decide +kernel)
  exact ⟨s, hs, timedOut_isolated (fun _ => rfl) hrun, hend⟩

/-- A `get` that begins after the timeout finds the late value in the slower layer, where its store
has landed already, and puts it back into the faster one when the store has been cleaned up. -/
def backfillAfterTimeout : List (TimeoutAction ℕ ℕ ℕ) :=
  [.stack (.store (.land 17 0 1)), .timeout 1, .stack (.get (.get 0 Stack.fetching)),
    .stack (.read (.load 21)), .stack (.read (.resume 21)), .stack (.read (.load 21)),
    .stack (.read (.resume 21)), .stack (.read (.backfill 21 fun _ => none)),
    .stack (.store (.land 17 0 0)), .stack (.store (.check 17 0)), .stack (.store (.wipe 17 0 0)),
    .stack (.store (.wipe 17 0 0)), .stack (.store (.settle 17)), .stack (.store (.start 26)),
    .stack (.store (.land 26 0 0)), .stack (.store (.check 26 0)), .stack (.store (.settle 26)),
    .stack (.read (.backfilled 21)), .stack (.get (.conclude 21)), .stack (.get (.slide 21)),
    .stack (.write (.enqueue 17)), .stack (.write (.verify 17)), .stack (.get (.stored 8)),
    .stack (.get (.settle 8))]

theorem not_isolated_backfillAfterTimeout :
    ∃ s : TimeoutStack ℕ ℕ ℕ, Reaches (step memoryOverRedis)
      (fun s a => ∀ a', a = .stack a' → s.stack.OnlyFetches a')
      (initial 0 fun _ _ => none) s ∧ ¬ s.Isolated memoryOverRedis := by
  obtain ⟨s, hs, hquiescent, htimeout, hfetched, hcell⟩ :
      ∃ s ∈ run (step memoryOverRedis) (initial 0 fun _ _ => none)
        (fetchValue ++ backfillAfterTimeout), s.stack.Quiescent ∧
          s.timedOut 8 = some ⟨20, false⟩ ∧ s.fetchedAt 8 = some 16 ∧
            ∃ cell ∈ s.stack.store.cells 0 0, cell.item.born = 16 := by
    decide +kernel
  refine ⟨s, reaches_of_run _ hs ?_, fun hisolated => ?_⟩
  · decide +kernel
  · obtain ⟨cell, hcell, hborn⟩ := hcell
    exact hisolated.gone hquiescent 8 _ 16 htimeout rfl hfetched 0 (by decide) 0 cell hcell hborn

end TimeoutStack

end LayerCache
