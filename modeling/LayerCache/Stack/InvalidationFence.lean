import LayerCache.Stack.Healthy

/-! # The invalidation fence

What the fences give a whole stack: an invalidation that is over leaves nothing behind of
the writes it fenced out, once these are through, and their cleanup takes nothing away
from the writes after it.
-/

namespace LayerCache

open Store Transition

variable {K V T : Type} [DecidableEq K] {cfg : Config} {s s' : Stack K V T} {d b : ℕ}
  {inv : Invalidation K} {k : K}

theorem Store.Wf.not_inHand {c : Store K V} {n t l : ℕ} (h : c.Wf n)
    (hs : c.chain.settledAt t = true) : ¬ c.InHand t l k := by
  rintro ⟨o, st, ho, hst, hh⟩
  have hbusy : st.phase ≠ .planned ∧ st.done = false := by
    rcases hh with ⟨active, todo, hp, -⟩ | ⟨todo, hp, -⟩ <;> simp [Strand.done, hp]
  obtain ⟨tk, htk, hrun⟩ := h.running ho hst hbusy.1 hbusy.2
  simp [TailChain.Chain.settledAt, htk.get, hrun] at hs

namespace Stack

/-- The writes whose fence was captured before step `b` are through. -/
def SettledBefore (s : Stack K V T) (b : ℕ) : Prop :=
  ∀ t o, s.store.orders t = some o → o.captured < b → s.store.chain.settledAt t = true

/-- A cell under a key that an invalidation was about, in a layer it has reached, was not put
there by a write it fenced out, once that write has settled. -/
theorem Intact.captured_ge (h : s.Intact cfg) {r : Removal K} {l t : ℕ} {cell : Cell V}
    (hb : s.Bumped cfg d inv b r) (hk : inv.target.Covers k) (hl : l ∈ r.layers)
    (hpending : ¬ r.Pending l k) (hcell : s.store.cells l k = some cell)
    (ht : cell.writer = some t) (hsettled : s.store.chain.settledAt t = true) :
    ∃ o, s.store.orders t = some o ∧ b ≤ o.captured := by
  obtain ⟨-, o, ho, -⟩ := h.sound.wf.placed l k cell t hcell ht
  refine ⟨o, ho, ?_⟩
  by_contra hlt
  rcases h.fenced.handled b r l k cell t o hb.removal ⟨hl, hb.target ▸ hk⟩ hcell ht ho
    (by omega) with hin | hp
  · exact h.sound.wf.not_inHand hsettled hin
  · exact hpending hp

omit [DecidableEq K] in
theorem Bumped.not_pending {r : Removal K} {l p : ℕ} (hb : s.Bumped cfg d inv b r)
    (hp : inv.phase = .resolved p) : ¬ r.Pending l k := by
  simp [Removal.Pending, hb.through (by simp [hp])]

theorem busyOn_of_wipe {c c' : Store K V} {t m i l : ℕ} {cell : Cell V}
    (hs : c.wipe t m i = some c') (hcell : c.cells l k = some cell) (hnone : c'.cells l k = none) :
    c.BusyOn t k := by
  obtain ⟨o, st, l₀, k₀, st', ho, hst, hwipe, rfl⟩ := wipe_spec hs
  obtain ⟨todo, hphase, hget, -⟩ := Strand.wipe_spec hwipe
  rw [layerDelete, cells_setCell] at hnone
  split at hnone
  · rename_i hlk
    obtain ⟨rfl, rfl⟩ := hlk
    exact ⟨o, st, ho, List.mem_of_getElem? hst,
      .inr ⟨todo, l, hphase, List.mem_of_getElem? hget⟩⟩
  · exact absurd (hcell ▸ hnone : some cell = none) (by simp)

variable [DecidableEq T] {now : Millis} {contents : ℕ → K → Option (Stored V × Option Millis)}

/-- Once an invalidation has resolved and the writes it fenced out are through, no layer holds
anything that these placed; and whenever such a write wipes a cell, no write that came after
the invalidation had placed it. -/
theorem invalidation_fence (hrun : Reaches (step cfg) Healthy (initial now contents) s)
    (hd : s.invalidations d = some inv) (hlocal : inv.localOnly = false)
    (hb : inv.bumped = some b) (hk : inv.target.Covers k) :
    (∀ p, inv.phase = .resolved p → s.SettledBefore b → ∀ l < cfg.layers, ∀ cell t,
      s.store.cells l k = some cell → cell.writer = some t →
        ∃ o, s.store.orders t = some o ∧ b ≤ o.captured) ∧
    (∀ t m i s' o, s.step cfg (.store (.wipe t m i)) = some s' →
      s.store.orders t = some o → o.captured < b → ∀ l cell t' o',
        s.store.cells l k = some cell → s'.store.cells l k = none → cell.writer = some t' →
          s.store.orders t' = some o' → o'.captured < b) := by
  have hintact : s.Intact cfg := .of_reaches (fun _ _ => id) hrun
  obtain ⟨-, ⟨-, hnone⟩ | ⟨b', r, hbumped⟩⟩ := hintact.invalidated d inv hd
  · simp [hb] at hnone
  obtain rfl : b = b' := by simpa [hb] using hbumped.bumped
  refine ⟨fun p hp hsettled l hl cell t hcell ht => ?_, ?_⟩
  · obtain ⟨-, o, ho, -⟩ := hintact.sound.wf.placed l k cell t hcell ht
    refine ⟨o, ho, ?_⟩
    by_contra hlt
    obtain ⟨o', ho', hge⟩ := hintact.captured_ge hbumped hk (hbumped.layers l hl (by simp [hlocal]))
      (hbumped.not_pending hp) hcell ht (hsettled t o ho (not_le.mp hlt))
    rw [ho] at ho'
    cases ho'
    omega
  · intro t m i s' o hstep ho hlt l cell t' o' hcell hnone ht' ho'
    obtain ⟨s₁, hact, rfl⟩ := step_spec hstep
    obtain ⟨store, hwipe, rfl⟩ := storeStep_spec hact
    exact hintact.fenced.spared t o k (busyOn_of_wipe hwipe hcell hnone) ho b r hbumped.removal
      (hbumped.target ▸ hk) hlt l cell t' o' hcell ht' ho'

/-- A set that has written one of its two layers when its key is deleted, and a second set
behind it. -/
def fencedRun : List (Action ℕ ℕ ℕ) :=
  [.write (.set 0 (.forMinute 7) none), .store (.start 1), .store (.land 1 0 0),
    .invalidate (.delete [0] .delete), .invalidate (.bump 4),
    .write (.set 0 (.forMinute 8) none), .store (.erase 5 0), .store (.erase 5 0),
    .store (.land 1 0 0), .invalidate (.removed 4), .invalidate (.forget 4),
    .invalidate (.forget 4), .invalidate (.publish 4), .store (.check 1 0)]

theorem invalidation_fence_at_fencedRun :
    (∃ s ∈ run (step memoryOverRedis) (initial 0 fun _ _ => none) fencedRun,
      ∀ s' o, s.step memoryOverRedis (.store (.wipe 1 0 1)) = some s' →
        s.store.orders 1 = some o → o.captured < 5 → ∀ cell t' o',
        s.store.cells 1 0 = some cell → s'.store.cells 1 0 = none → cell.writer = some t' →
          s.store.orders t' = some o' → o'.captured < 5) ∧
    ∃ s ∈ run (step memoryOverRedis) (initial 0 fun _ _ => none) (fencedRun ++
        [.store (.wipe 1 0 0), .store (.wipe 1 0 0), .store (.settle 1), .store (.start 6),
          .store (.land 6 0 0), .store (.land 6 0 0)]),
      ∀ l < 2, ∀ cell t, s.store.cells l 0 = some cell → cell.writer = some t →
        ∃ o, s.store.orders t = some o ∧ 5 ≤ o.captured := by
  constructor
  · obtain ⟨s, hs, hd⟩ : ∃ s ∈ run (step memoryOverRedis) (initial 0 fun _ _ => none) fencedRun,
        s.invalidations 4 = some ⟨.keys [0], false, true, some .delete, none, some 5,
          .resolved 13⟩ := by decide +kernel
    have hrun := reaches_of_run Healthy hs (by decide +kernel)
    exact ⟨s, hs, fun s' o hstep ho hlt cell => (invalidation_fence hrun hd rfl rfl
      (List.mem_singleton_self 0)).2 1 0 1 s' o hstep ho hlt 1 cell⟩
  · obtain ⟨s, hs, hd, hclock, hbefore⟩ :
        ∃ s ∈ run (step memoryOverRedis) (initial 0 fun _ _ => none)
        (fencedRun ++ [.store (.wipe 1 0 0), .store (.wipe 1 0 0), .store (.settle 1),
          .store (.start 6), .store (.land 6 0 0), .store (.land 6 0 0)]),
        s.invalidations 4 = some ⟨.keys [0], false, true, some .delete, none, some 5,
          .resolved 13⟩ ∧ s.clock = 21 ∧ ∀ t < 21, ∀ o ∈ s.store.orders t, o.captured < 5 →
            s.store.chain.settledAt t = true := by decide +kernel
    have hrun := reaches_of_run Healthy hs (by decide +kernel)
    refine ⟨s, hs, (invalidation_fence hrun hd rfl rfl (List.mem_singleton_self 0)).1 13 rfl
      fun t o ho => hbefore t ?_ o ho⟩
    exact hclock ▸ (Intact.of_reaches (fun _ _ => id) hrun).sound.wf.lt_of_order ho

end Stack

end LayerCache
