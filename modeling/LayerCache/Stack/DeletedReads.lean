import LayerCache.Stack.PlainGets

/-! # Deletions and the reads around them

A read that overlaps a deletion carries an entry that is about to go. If it captured its
fence before the deletion moved the epochs, its backfill is fenced out; if it captured the
fence afterwards, nothing stops the backfill, and the entry can come back to a fast layer
that the deletion has already gone through.
-/

namespace LayerCache

open Store Transition

variable {K V T : Type} [DecidableEq K] [DecidableEq T] {cfg : Config} {s : Stack K V T}
  {d p : ℕ} {inv : Invalidation K} {k : K} {now : Millis}
  {contents : ℕ → K → Option (Stored V × Option Millis)}

namespace Stack

/-- Reads without fetcher and without sliding TTL, and invalidations. -/
def ReadsAndDeletes (_ : Stack K V T) (a : Action K V T) : Prop :=
  CallsPlain a ∧
    match a with
    | .store _ | .read _ | .invalidate _ | .get _ => True
    | .write _ | .fault _ => False

instance (s : Stack K V T) : DecidablePred s.ReadsAndDeletes := fun a => by
  unfold ReadsAndDeletes
  refine @instDecidableAnd _ _ _ ?_
  induction a using Action.casesOn <;> infer_instance

/-- Reads and deletions in which no backfill brings an entry back to a layer that a deletion
has gone through. -/
def DeletesHold (s : Stack K V T) (a : Action K V T) : Prop :=
  s.ReadsAndDeletes a ∧ ¬ s.LandRevives (fun _ => True) a

instance (s : Stack K V T) : DecidablePred s.DeletesHold := fun a => by
  unfold DeletesHold
  infer_instance

omit [DecidableEq K] [DecidableEq T] in
theorem ReadsAndDeletes.healthy {a : Action K V T} (h : s.ReadsAndDeletes a) : s.Healthy a := by
  cases a with
  | fault a => cases h.2
  | store a | read a | write a | invalidate a | get a => trivial

/-- When a deletion has resolved and the writes from before it are through, no layer holds an
entry that was stored before the deletion was called. -/
theorem deletion_not_undone
    (hrun : Reaches (step cfg) DeletesHold (initial now contents) s)
    (hd : s.invalidations d = some inv) (hlocal : inv.localOnly = false)
    (hphase : inv.phase = .resolved p) (hk : inv.target.Covers k)
    (hsettled : ∀ b ∈ inv.bumped, s.SettledBefore b) {l : ℕ} (hl : l < cfg.layers) {cell : Cell V}
    (hcell : s.store.cells l k = some cell) : d ≤ cell.item.born := by
  obtain ⟨hintact, hemptied, -⟩ : s.Intact cfg ∧ s.Emptied (fun _ => True) ∧ s.PlainGets := by
    refine Reaches.invariant
      (P := fun s => s.Intact cfg ∧ s.Emptied (fun _ => True) ∧ s.PlainGets) hrun ?_
      ⟨intact_initial now contents, emptied_initial now contents, plainGets_initial now contents⟩
    rintro s a s' ⟨hintact, hemptied, hplain⟩ ⟨hok, hland⟩ hs
    exact ⟨hintact.step hok.healthy hs,
      hemptied.step hintact hok.healthy hland (hplain.not_slideRevives a) hs,
      hplain.step hok.1 hok.healthy hs⟩
  exact hemptied.born_ge hintact hd hlocal hphase hk hsettled hl hcell trivial

/-- A read that was there before the deletion, and whose backfill lands after it. -/
def overtakenRead : List (Action ℕ ℕ ℕ) :=
  [.read (.read 0), .read (.load 1), .read (.resume 1), .read (.load 1), .read (.resume 1),
    .invalidate (.delete [0] .delete), .read (.backfill 1 fun _ => none), .store (.start 7),
    .invalidate (.bump 6), .store (.erase 9 0), .store (.erase 9 0), .store (.land 7 0 0),
    .store (.check 7 0), .store (.wipe 7 0 0), .store (.settle 7), .read (.backfilled 1),
    .invalidate (.removed 6), .invalidate (.forget 6), .invalidate (.forget 6),
    .invalidate (.publish 6)]

theorem deletion_not_undone_by_overtakenRead :
    ∃ s ∈ run (step memoryOverRedis) (initial 0 slowEntry) overtakenRead,
      ∀ l < 2, ∀ cell, s.store.cells l 0 = some cell → 6 ≤ cell.item.born := by
  obtain ⟨s, hs, hd, hclock, hbefore⟩ : ∃ s ∈ run (step memoryOverRedis) (initial 0 slowEntry)
      overtakenRead, s.invalidations 6 = some ⟨.keys [0], false, true, some .delete, none, some 9,
        .resolved 20⟩ ∧ s.clock = 21 ∧ ∀ t < 21, ∀ o ∈ s.store.orders t, o.captured < 9 →
          s.store.chain.settledAt t = true := by decide +kernel
  have hrun := reaches_of_run DeletesHold hs (by decide +kernel)
  refine ⟨s, hs, fun l hl cell hcell => deletion_not_undone hrun hd rfl rfl
    (List.mem_singleton_self 0) ?_ hl hcell⟩
  rintro b ⟨⟩ t o ho
  refine hbefore t ?_ o ho
  have hwf := (Intact.of_reaches (fun _ _ h => h.1.healthy) hrun).sound.wf
  exact hclock ▸ hwf.lt_of_order ho

/-- A read that begins when the deletion has moved the epochs finds the old entry in the slow layer
and writes it back to the fast one, behind the deletion's back. -/
theorem lateRead_undoes_deletion :
    ∃ s : Stack ℕ ℕ ℕ, Reaches (step memoryOverRedis) ReadsAndDeletes (initial 0 slowEntry) s ∧
      s.Quiescent ∧ s.invalidations 1 = some ⟨.keys [0], false, true, some .delete, none, some 2,
        .resolved 19⟩ ∧ ∃ cell ∈ s.store.cells 0 0, cell.item = ⟨.plain 5, 0⟩ := by
  obtain ⟨s, hs, h⟩ : ∃ s ∈ run (step memoryOverRedis) (initial 0 slowEntry)
      ([.invalidate (.delete [0] .delete), .invalidate (.bump 1), .read (.read 0),
        .read (.load 3), .read (.resume 3), .read (.load 3), .read (.resume 3),
        .read (.backfill 3 fun _ => none), .store (.erase 2 0), .store (.erase 2 0),
        .store (.start 8), .store (.land 8 0 0), .store (.check 8 0), .store (.settle 8),
        .read (.backfilled 3), .invalidate (.removed 1), .invalidate (.forget 1),
        .invalidate (.forget 1), .invalidate (.publish 1)] : List (Action ℕ ℕ ℕ)),
      s.Quiescent ∧ s.invalidations 1 = some ⟨.keys [0], false, true, some .delete, none, some 2,
        .resolved 19⟩ ∧ ∃ cell ∈ s.store.cells 0 0, cell.item = ⟨.plain 5, 0⟩ := by
    decide +kernel
  exact ⟨s, reaches_of_run _ hs (by decide +kernel), h⟩

end Stack

end LayerCache
