import LayerCache.Maintenance.Epochs

/-! # Fences along a run

A run takes bumps, clears, prunes and allocations in any order. The fence of a key only
moves on, so one that was captured before an invalidation of its key never becomes current
again. It stays current as long as no step concerns the key.
-/

namespace LayerCache

/-- Pruning and allocating are steps of their own here, and parts of a bump. -/
inductive EpochStep (K : Type*)
  | bumpKeyEpochs (keys : List K)
  | beginClearEpoch
  | pruneKeyEpochsIfNeeded
  | allocateKeyEpoch
deriving DecidableEq, Repr

namespace EpochStep

variable {K : Type*}

def Invalidates (k : K) : EpochStep K → Prop
  | bumpKeyEpochs keys => k ∈ keys
  | beginClearEpoch => True
  | pruneKeyEpochsIfNeeded => False
  | allocateKeyEpoch => False

end EpochStep

namespace Epochs

variable {K : Type*} {e : Epochs K}

abbrev CounterFull (e : Epochs K) : Prop := e.nextKeyEpoch ≥ maxSafeInteger

def Overfull (e : Epochs K) : Prop := maxKeyEpochs < e.keyEpochs.length

theorem allocateKeyEpoch_eq : e.allocateKeyEpoch =
    if e.nextKeyEpoch ≥ maxSafeInteger then ⟨[], 1, 0, e.clearEpoch + 1⟩
    else ⟨e.keyEpochs, e.nextKeyEpoch + 1, e.absentKeyEpoch, e.clearEpoch⟩ := rfl

theorem Valid.allocateKeyEpoch (hv : e.Valid) : e.allocateKeyEpoch.Valid := by
  rw [allocateKeyEpoch_eq]
  split
  · exact ⟨by simp, by simp, by simp⟩
  · exact ⟨hv.nodup, fun m hm => (hv.key_le m hm).trans (Nat.le_succ _),
      hv.absent_le.trans (Nat.le_succ _)⟩

variable [DecidableEq K] {k : K} {keys : List K} {s : EpochStep K} {steps : List (EpochStep K)}

def perform (e : Epochs K) : EpochStep K → Epochs K
  | .bumpKeyEpochs keys => e.bumpKeyEpochs keys
  | .beginClearEpoch => e.beginClearEpoch
  | .pruneKeyEpochsIfNeeded => e.pruneKeyEpochsIfNeeded
  | .allocateKeyEpoch => e.allocateKeyEpoch

def performAll (e : Epochs K) (steps : List (EpochStep K)) : Epochs K := steps.foldl perform e

/-- The counter starts again within the bumps of the keys. -/
def BumpsRollOver : Epochs K → List K → Prop
  | _, [] => False
  | e, key :: keys => e.CounterFull ∨ BumpsRollOver (e.bumpKeyEpoch key) keys

def Prunes (e : Epochs K) : EpochStep K → Prop
  | .bumpKeyEpochs keys => (keys.foldl bumpKeyEpoch e).Overfull
  | .pruneKeyEpochsIfNeeded => e.Overfull
  | _ => False

def RollsOver (e : Epochs K) : EpochStep K → Prop
  | .bumpKeyEpochs keys => BumpsRollOver e keys ∨
      (keys.foldl bumpKeyEpoch e).Overfull ∧ (keys.foldl bumpKeyEpoch e).CounterFull
  | .pruneKeyEpochsIfNeeded => e.Overfull ∧ e.CounterFull
  | .allocateKeyEpoch => e.CounterFull
  | .beginClearEpoch => False

/-- No step of the run bumps the key, begins a clear, prunes or rolls over. -/
def Undisturbed (k : K) : Epochs K → List (EpochStep K) → Prop
  | _, [] => True
  | e, s :: steps => ¬ s.Invalidates k ∧ ¬ e.Prunes s ∧ ¬ e.RollsOver s ∧
      Undisturbed k (e.perform s) steps

theorem fence_allocateKeyEpoch (h : ¬ e.CounterFull) (k : K) :
    e.allocateKeyEpoch.fence k = e.fence k := by
  rw [allocateKeyEpoch_eq, if_neg h]
  rfl

theorem fence_le_allocateKeyEpoch (e : Epochs K) (k : K) :
    e.fence k ≤ e.allocateKeyEpoch.fence k := by
  by_cases h : e.CounterFull
  · have hlt : e.fence k < e.allocateKeyEpoch.fence k := by
      rw [allocateKeyEpoch_eq, if_pos h]
      exact Fence.lt_iff.mpr (.inl (Nat.lt_succ_self _))
    exact hlt.le
  · exact (fence_allocateKeyEpoch h k).ge

theorem Valid.perform (hv : e.Valid) (s : EpochStep K) : (e.perform s).Valid := by
  cases s with
  | bumpKeyEpochs keys => exact hv.bumpKeyEpochs keys
  | beginClearEpoch => exact hv.beginClearEpoch
  | pruneKeyEpochsIfNeeded => exact hv.pruneKeyEpochsIfNeeded
  | allocateKeyEpoch => exact hv.allocateKeyEpoch

theorem Valid.fence_le_perform (hv : e.Valid) (s : EpochStep K) (k : K) :
    e.fence k ≤ (e.perform s).fence k := by
  cases s with
  | bumpKeyEpochs keys => exact hv.fence_le_bumpKeyEpochs keys k
  | beginClearEpoch => exact (fence_lt_beginClearEpoch e k).le
  | pruneKeyEpochsIfNeeded => exact hv.fence_le_prune k
  | allocateKeyEpoch => exact fence_le_allocateKeyEpoch e k

theorem Valid.fence_lt_perform (hv : e.Valid) (h : s.Invalidates k) :
    e.fence k < (e.perform s).fence k := by
  cases s with
  | bumpKeyEpochs keys => exact hv.fence_lt_bumpKeyEpochs h
  | beginClearEpoch => exact fence_lt_beginClearEpoch e k
  | pruneKeyEpochsIfNeeded => exact h.elim
  | allocateKeyEpoch => exact h.elim

theorem fence_prune_of_not_overfull (h : ¬ e.Overfull) (k : K) :
    e.pruneKeyEpochsIfNeeded.fence k = e.fence k := by
  rw [pruneKeyEpochsIfNeeded_eq, if_pos (Nat.le_of_not_lt h)]

theorem Valid.fence_bump_of_ne (hv : e.Valid) {key : K} (hk : k ≠ key) (h : ¬ e.CounterFull) :
    (e.bumpKeyEpoch key).fence k = e.fence k := by
  have hclear : (e.bumpKeyEpoch key).clearEpoch = e.clearEpoch := by
    rw [bumpKeyEpoch_eq, if_neg h]
  rw [fence, hclear, currentKeyEpoch_bump_of_ne h hv hk, fence]

theorem Valid.fence_foldl_of_not_mem (hv : e.Valid) (hk : k ∉ keys) (h : ¬ e.BumpsRollOver keys) :
    (keys.foldl Epochs.bumpKeyEpoch e).fence k = e.fence k := by
  induction keys generalizing e with
  | nil => rfl
  | cons key keys ih =>
    rw [BumpsRollOver, not_or] at h
    rw [List.mem_cons, not_or] at hk
    calc (keys.foldl Epochs.bumpKeyEpoch (e.bumpKeyEpoch key)).fence k
        = (e.bumpKeyEpoch key).fence k := ih (hv.bumpKeyEpoch key) hk.2 h.2
      _ = e.fence k := hv.fence_bump_of_ne hk.1 h.1

theorem Valid.fence_perform (hv : e.Valid) (hk : ¬ s.Invalidates k) (hprune : ¬ e.Prunes s)
    (hroll : ¬ e.RollsOver s) : (e.perform s).fence k = e.fence k := by
  cases s with
  | bumpKeyEpochs keys =>
    rw [RollsOver, not_or] at hroll
    exact (fence_prune_of_not_overfull hprune k).trans (hv.fence_foldl_of_not_mem hk hroll.1)
  | beginClearEpoch => exact absurd trivial hk
  | pruneKeyEpochsIfNeeded => exact fence_prune_of_not_overfull hprune k
  | allocateKeyEpoch => exact fence_allocateKeyEpoch hroll k

theorem Valid.performAll (hv : e.Valid) (steps : List (EpochStep K)) :
    (e.performAll steps).Valid := by
  induction steps generalizing e with
  | nil => exact hv
  | cons s steps ih => exact ih (hv.perform s)

theorem Valid.fence_le_performAll (hv : e.Valid) (steps : List (EpochStep K)) (k : K) :
    e.fence k ≤ (e.performAll steps).fence k := by
  induction steps generalizing e with
  | nil => exact le_rfl
  | cons s steps ih => exact (hv.fence_le_perform s k).trans (ih (hv.perform s))

theorem Valid.fence_lt_performAll (hv : e.Valid) (hs : s ∈ steps) (hk : s.Invalidates k) :
    e.fence k < (e.performAll steps).fence k := by
  induction steps generalizing e with
  | nil => cases hs
  | cons t steps ih =>
    rcases List.mem_cons.mp hs with rfl | hs
    · exact (hv.fence_lt_perform hk).trans_le ((hv.perform s).fence_le_performAll steps k)
    · exact (hv.fence_le_perform t k).trans_lt (ih (hv.perform t) hs)

theorem Valid.fence_performAll (hv : e.Valid) (h : Undisturbed k e steps) :
    (e.performAll steps).fence k = e.fence k := by
  induction steps generalizing e with
  | nil => rfl
  | cons s steps ih =>
    obtain ⟨hk, hprune, hroll, hrest⟩ := h
    calc ((e.perform s).performAll steps).fence k
        = (e.perform s).fence k := ih (hv.perform s) hrest
      _ = e.fence k := hv.fence_perform hk hprune hroll

/-- A fence captured after any steps is outdated for good once one of the steps that follow
bumps its key or begins a clear, and is not while none of them concerns it. -/
theorem isWriteOutdated_performAll (past steps : List (EpochStep K)) (k : K) :
    ((∃ s ∈ steps, s.Invalidates k) → ((initial.performAll past).performAll steps).isWriteOutdated k
        ((initial.performAll past).fence k) = true) ∧
      (Undisturbed k (initial.performAll past) steps →
        ((initial.performAll past).performAll steps).isWriteOutdated k
          ((initial.performAll past).fence k) = false) := by
  have hv : (initial.performAll past : Epochs K).Valid := valid_initial.performAll past
  constructor
  · rintro ⟨s, hs, hk⟩
    exact isWriteOutdated_iff.mpr (hv.fence_lt_performAll hs hk).ne
  · intro h
    have hfence := hv.fence_performAll h
    rw [← Bool.not_eq_true, isWriteOutdated_iff, not_not]
    exact hfence.symm

end Epochs

end LayerCache
