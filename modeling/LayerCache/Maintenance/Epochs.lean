import Mathlib.Algebra.Group.Nat.Defs
import Mathlib.Data.Prod.Lex
import Mathlib.Data.List.Basic
import Mathlib.Order.Basic

/-! # Epochs and fences

Every operation captures the clear epoch and the epoch of its key as a fence, and an
invalidation moves them on. Fences are ordered by clear epoch first: the current
fence of a key never goes back, so a fence that an invalidation has outdated stays
outdated, through pruning and through the rollover of the counter.
-/

namespace LayerCache

structure Fence where
  clearEpoch : ℕ
  keyEpoch : ℕ
deriving DecidableEq, Repr

/-- `keyEpochs` lists the map in insertion order. -/
structure Epochs (K : Type*) where
  keyEpochs : List (K × ℕ)
  nextKeyEpoch : ℕ
  absentKeyEpoch : ℕ
  clearEpoch : ℕ
deriving DecidableEq, Repr

def maxKeyEpochs : ℕ := 50000

def maxSafeInteger : ℕ := 2 ^ 53 - 1

namespace Epochs

variable {K : Type*} [DecidableEq K]

def initial : Epochs K := ⟨[], 0, 0, 0⟩

def get? (entries : List (K × ℕ)) (key : K) : Option ℕ :=
  (entries.find? fun e => e.1 = key).map (·.2)

def currentKeyEpoch (e : Epochs K) (key : K) : ℕ := (get? e.keyEpochs key).getD e.absentKeyEpoch

def fence (e : Epochs K) (key : K) : Fence := ⟨e.clearEpoch, e.currentKeyEpoch key⟩

def isWriteOutdated (e : Epochs K) (key : K) (expected : Fence) : Bool :=
  expected.clearEpoch ≠ e.clearEpoch || expected.keyEpoch ≠ e.currentKeyEpoch key

/-- The epoch handed out is the new `nextKeyEpoch`. -/
def allocateKeyEpoch (e : Epochs K) : Epochs K :=
  if e.nextKeyEpoch ≥ maxSafeInteger then
    { keyEpochs := [], nextKeyEpoch := 1, absentKeyEpoch := 0, clearEpoch := e.clearEpoch + 1 }
  else { e with nextKeyEpoch := e.nextKeyEpoch + 1 }

def bumpKeyEpoch (e : Epochs K) (key : K) : Epochs K :=
  let e := { e with keyEpochs := e.keyEpochs.filter fun m => m.1 ≠ key }
  let e := e.allocateKeyEpoch
  { e with keyEpochs := e.keyEpochs ++ [(key, e.nextKeyEpoch)] }

/-- Drops the oldest tenth of an overfull map and rotates the epoch of absent keys. -/
def pruneKeyEpochsIfNeeded (e : Epochs K) : Epochs K :=
  if e.keyEpochs.length ≤ maxKeyEpochs then e
  else
    let e := { e with keyEpochs := e.keyEpochs.drop ((e.keyEpochs.length + 9) / 10) }
    let e := e.allocateKeyEpoch
    { e with absentKeyEpoch := e.nextKeyEpoch }

def bumpKeyEpochs (e : Epochs K) (keys : List K) : Epochs K :=
  (keys.foldl bumpKeyEpoch e).pruneKeyEpochsIfNeeded

def beginClearEpoch (e : Epochs K) : Epochs K :=
  { e with clearEpoch := e.clearEpoch + 1, keyEpochs := [] }

end Epochs

namespace Fence

/-- Fences in the order in which a key goes through them. -/
def rank (f : Fence) : ℕ ×ₗ ℕ := toLex (f.clearEpoch, f.keyEpoch)

theorem rank_injective : Function.Injective rank := by
  rintro ⟨a, b⟩ ⟨c, d⟩ h
  simpa [rank] using h

instance : LE Fence := ⟨fun f g => f.rank ≤ g.rank⟩

instance : LT Fence := ⟨fun f g => f.rank < g.rank⟩

instance : PartialOrder Fence where
  le_refl f := le_refl f.rank
  le_trans _ _ _ h h' := le_trans (α := ℕ ×ₗ ℕ) h h'
  le_antisymm _ _ h h' := rank_injective (le_antisymm h h')
  lt_iff_le_not_ge f g := lt_iff_le_not_ge (α := ℕ ×ₗ ℕ) (a := f.rank) (b := g.rank)

theorem lt_iff {f g : Fence} : f < g ↔
    f.clearEpoch < g.clearEpoch ∨ f.clearEpoch = g.clearEpoch ∧ f.keyEpoch < g.keyEpoch :=
  Prod.Lex.lt_iff

theorem le_of {f g : Fence} (hc : f.clearEpoch = g.clearEpoch) (hk : f.keyEpoch ≤ g.keyEpoch) :
    f ≤ g :=
  Prod.Lex.le_iff.mpr (.inr ⟨hc, hk⟩)

end Fence

namespace Epochs

variable {K : Type*} {e : Epochs K}

/-- The map has one epoch for a key, and none handed out after the counter. -/
structure Valid (e : Epochs K) : Prop where
  nodup : (e.keyEpochs.map (·.1)).Nodup
  key_le : ∀ m ∈ e.keyEpochs, m.2 ≤ e.nextKeyEpoch
  absent_le : e.absentKeyEpoch ≤ e.nextKeyEpoch

theorem valid_initial : (initial : Epochs K).Valid :=
  ⟨by simp [initial], by simp [initial], le_rfl⟩

theorem Valid.beginClearEpoch (hv : e.Valid) : e.beginClearEpoch.Valid :=
  ⟨by simp [Epochs.beginClearEpoch], by simp [Epochs.beginClearEpoch], hv.absent_le⟩

theorem pruneKeyEpochsIfNeeded_eq : e.pruneKeyEpochsIfNeeded =
    if e.keyEpochs.length ≤ maxKeyEpochs then e
    else if e.nextKeyEpoch ≥ maxSafeInteger then ⟨[], 1, 1, e.clearEpoch + 1⟩
    else ⟨e.keyEpochs.drop ((e.keyEpochs.length + 9) / 10), e.nextKeyEpoch + 1,
      e.nextKeyEpoch + 1, e.clearEpoch⟩ := by
  simp only [pruneKeyEpochsIfNeeded, allocateKeyEpoch]
  split
  · rfl
  · split <;> rfl

theorem Valid.pruneKeyEpochsIfNeeded (hv : e.Valid) : e.pruneKeyEpochsIfNeeded.Valid := by
  rw [pruneKeyEpochsIfNeeded_eq]
  split_ifs
  · exact hv
  · exact ⟨by simp, by simp, le_rfl⟩
  · exact ⟨hv.nodup.sublist ((List.drop_sublist _ _).map _),
      fun m hm => (hv.key_le m (List.mem_of_mem_drop hm)).trans (Nat.le_succ _), le_rfl⟩

variable [DecidableEq K] {key k : K} {keys : List K} {l : List (K × ℕ)} {v : ℕ}

theorem isWriteOutdated_iff {f : Fence} : e.isWriteOutdated key f = true ↔ f ≠ e.fence key := by
  obtain ⟨a, b⟩ := f
  simp only [isWriteOutdated, fence, ne_eq, Fence.mk.injEq, Bool.or_eq_true, decide_eq_true_eq]
  tauto

theorem mem_of_get? (h : get? l key = some v) : (key, v) ∈ l := by
  simp only [get?, Option.map_eq_some_iff] at h
  obtain ⟨⟨k', v'⟩, hfind, rfl⟩ := h
  have hk : k' = key := by simpa using List.find?_some hfind
  subst hk
  exact List.mem_of_find?_eq_some hfind

theorem get?_of_mem (hn : (l.map (·.1)).Nodup) (h : (key, v) ∈ l) : get? l key = some v := by
  induction l with
  | nil => cases h
  | cons m l ih =>
    simp only [List.map_cons, List.nodup_cons, List.mem_map, not_exists, not_and] at hn
    rcases List.mem_cons.mp h with rfl | hl
    · simp [get?]
    · have hne : m.1 ≠ key := fun he => hn.1 (key, v) hl he.symm
      simpa [get?, List.find?_cons, hne] using ih hn.2 hl

theorem get?_eq_none : get? l key = none ↔ ∀ v, (key, v) ∉ l := by
  simp only [get?, Option.map_eq_none_iff, List.find?_eq_none, decide_eq_true_eq]
  exact ⟨fun h v hv => h _ hv rfl, fun h m hm hk => h m.2 (hk ▸ hm)⟩

theorem Valid.currentKeyEpoch_le (hv : e.Valid) (k : K) :
    e.currentKeyEpoch k ≤ e.nextKeyEpoch := by
  unfold currentKeyEpoch
  cases h : get? e.keyEpochs k with
  | none => exact hv.absent_le
  | some v => exact hv.key_le _ (mem_of_get? h)

theorem bumpKeyEpoch_eq : e.bumpKeyEpoch key =
    if e.nextKeyEpoch ≥ maxSafeInteger then ⟨[(key, 1)], 1, 0, e.clearEpoch + 1⟩
    else ⟨(e.keyEpochs.filter fun m => m.1 ≠ key) ++ [(key, e.nextKeyEpoch + 1)],
      e.nextKeyEpoch + 1, e.absentKeyEpoch, e.clearEpoch⟩ := by
  simp only [bumpKeyEpoch, allocateKeyEpoch]
  split <;> rfl

theorem Valid.bumpKeyEpoch (hv : e.Valid) (key : K) : (e.bumpKeyEpoch key).Valid := by
  rw [bumpKeyEpoch_eq]
  split
  · exact ⟨by simp, by simp, by simp⟩
  · refine ⟨?_, ?_, hv.absent_le.trans (Nat.le_succ _)⟩
    · simp only [List.map_append, List.map_cons, List.map_nil, List.nodup_append]
      exact ⟨hv.nodup.sublist (List.filter_sublist.map _), by simp, by simp⟩
    · intro m hm
      simp only [List.mem_append, List.mem_filter, List.mem_singleton] at hm
      rcases hm with ⟨hm, -⟩ | rfl
      · exact (hv.key_le m hm).trans (Nat.le_succ _)
      · exact le_rfl

theorem currentKeyEpoch_bump_self (h : ¬ e.nextKeyEpoch ≥ maxSafeInteger) (hv : e.Valid) :
    (e.bumpKeyEpoch key).currentKeyEpoch key = e.nextKeyEpoch + 1 := by
  have hn := (hv.bumpKeyEpoch key).nodup
  rw [bumpKeyEpoch_eq, if_neg h] at hn ⊢
  simp only [currentKeyEpoch, get?_of_mem hn (List.mem_append_right _ List.mem_cons_self),
    Option.getD_some]

theorem currentKeyEpoch_bump_of_ne (h : ¬ e.nextKeyEpoch ≥ maxSafeInteger) (hv : e.Valid)
    (hk : k ≠ key) : (e.bumpKeyEpoch key).currentKeyEpoch k = e.currentKeyEpoch k := by
  have hn := (hv.bumpKeyEpoch key).nodup
  rw [bumpKeyEpoch_eq, if_neg h] at hn ⊢
  unfold currentKeyEpoch
  cases hg : get? e.keyEpochs k with
  | none =>
    rw [get?_eq_none] at hg
    have : get? ((e.keyEpochs.filter fun m => m.1 ≠ key) ++ [(key, e.nextKeyEpoch + 1)]) k = none :=
      get?_eq_none.mpr fun v hv => by
        simp only [List.mem_append, List.mem_filter, List.mem_singleton, Prod.mk.injEq] at hv
        exact hv.elim (fun h => hg v h.1) fun h => hk h.1
    simp only [this]
  | some v =>
    have hm := mem_of_get? hg
    simp only [Option.getD_some,
      get?_of_mem hn (List.mem_append_left _ (List.mem_filter.mpr ⟨hm, by simpa using hk⟩))]

theorem Valid.fence_lt_bumpKeyEpoch (hv : e.Valid) (key : K) :
    e.fence key < (e.bumpKeyEpoch key).fence key := by
  rw [Fence.lt_iff]
  by_cases h : e.nextKeyEpoch ≥ maxSafeInteger
  · left
    simp [bumpKeyEpoch_eq, h, fence]
  · right
    have := hv.currentKeyEpoch_le key
    simp only [fence, currentKeyEpoch_bump_self h hv]
    exact ⟨by simp [bumpKeyEpoch_eq, h], by omega⟩

theorem Valid.fence_le_bumpKeyEpoch (hv : e.Valid) (key k : K) :
    e.fence k ≤ (e.bumpKeyEpoch key).fence k := by
  by_cases hk : k = key
  · subst hk
    exact (hv.fence_lt_bumpKeyEpoch k).le
  by_cases h : e.nextKeyEpoch ≥ maxSafeInteger
  · exact (Fence.lt_iff.mpr (.inl (by simp [bumpKeyEpoch_eq, h, fence]))).le
  · exact Fence.le_of (by simp [bumpKeyEpoch_eq, h, fence])
      (currentKeyEpoch_bump_of_ne h hv hk).ge

/-- A pruned key reads as absent, and the epoch of absent keys is then a new one. -/
theorem Valid.fence_le_prune (hv : e.Valid) (k : K) :
    e.fence k ≤ e.pruneKeyEpochsIfNeeded.fence k := by
  rw [pruneKeyEpochsIfNeeded_eq]
  split_ifs with hlen hmax
  · exact le_rfl
  · exact (Fence.lt_iff.mpr (.inl (by simp [fence]))).le
  · refine Fence.le_of rfl ?_
    have hle := hv.currentKeyEpoch_le k
    simp only [fence, currentKeyEpoch] at hle ⊢
    cases hg : get? (e.keyEpochs.drop ((e.keyEpochs.length + 9) / 10)) k with
    | none => exact hle.trans (Nat.le_succ _)
    | some v =>
      rw [get?_of_mem hv.nodup (List.mem_of_mem_drop (mem_of_get? hg))]
      exact le_rfl

theorem Valid.foldl_bumpKeyEpoch (hv : e.Valid) (keys : List K) :
    (keys.foldl Epochs.bumpKeyEpoch e).Valid := by
  induction keys generalizing e with
  | nil => exact hv
  | cons key keys ih => exact ih (hv.bumpKeyEpoch key)

theorem Valid.bumpKeyEpochs (hv : e.Valid) (keys : List K) : (e.bumpKeyEpochs keys).Valid :=
  (hv.foldl_bumpKeyEpoch keys).pruneKeyEpochsIfNeeded

theorem Valid.fence_le_foldl (hv : e.Valid) (keys : List K) (k : K) :
    e.fence k ≤ (keys.foldl Epochs.bumpKeyEpoch e).fence k := by
  induction keys generalizing e with
  | nil => exact le_rfl
  | cons key keys ih => exact (hv.fence_le_bumpKeyEpoch key k).trans (ih (hv.bumpKeyEpoch key))

theorem Valid.fence_lt_foldl (hv : e.Valid) (hk : k ∈ keys) :
    e.fence k < (keys.foldl Epochs.bumpKeyEpoch e).fence k := by
  induction keys generalizing e with
  | nil => cases hk
  | cons key keys ih =>
    have hv' := hv.bumpKeyEpoch key
    rcases List.mem_cons.mp hk with rfl | hk
    · exact (hv.fence_lt_bumpKeyEpoch k).trans_le (hv'.fence_le_foldl keys k)
    · exact (hv.fence_le_bumpKeyEpoch key k).trans_lt (ih hv' hk)

theorem Valid.fence_le_bumpKeyEpochs (hv : e.Valid) (keys : List K) (k : K) :
    e.fence k ≤ (e.bumpKeyEpochs keys).fence k :=
  (hv.fence_le_foldl keys k).trans ((hv.foldl_bumpKeyEpoch keys).fence_le_prune k)

theorem Valid.fence_lt_bumpKeyEpochs (hv : e.Valid) (hk : k ∈ keys) :
    e.fence k < (e.bumpKeyEpochs keys).fence k :=
  (hv.fence_lt_foldl hk).trans_le ((hv.foldl_bumpKeyEpoch keys).fence_le_prune k)

theorem fence_lt_beginClearEpoch (e : Epochs K) (k : K) : e.fence k < e.beginClearEpoch.fence k :=
  Fence.lt_iff.mpr (.inl (by simp [fence, beginClearEpoch]))

end Epochs

end LayerCache
