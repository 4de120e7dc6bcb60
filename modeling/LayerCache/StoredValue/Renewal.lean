import LayerCache.StoredValue.RoundTrip

/-! # Renewed envelopes

Renewing an envelope starts its windows again. With windows that make for recognised envelopes
at any time, a renewed envelope is the one that would be created then.
-/

namespace LayerCache

variable {V : Type*} {kind : CacheWriteKind} {value : Option V} {w : Windows}
  {created now until' t : Millis}

/-- No stale window stands without a fresh one, and none ends too far ahead. -/
structure Windows.Recognisable (w : Windows) : Prop where
  alone : normalizePositiveMs w.freshTtlMs = none →
    normalizePositiveMs w.staleWhileRevalidateMs = none ∧
      normalizePositiveMs w.staleIfErrorMs = none
  fresh_le : ∀ f ∈ normalizePositiveMs w.freshTtlMs, f ≤ maxTtlMs
  stale_le : ∀ f ∈ normalizePositiveMs w.freshTtlMs,
    (∀ x ∈ normalizePositiveMs w.staleWhileRevalidateMs, f + x ≤ maxTtlMs) ∧
      ∀ x ∈ normalizePositiveMs w.staleIfErrorMs, f + x ≤ maxTtlMs

instance (w : Windows) : Decidable w.Recognisable :=
  decidable_of_iff
    ((normalizePositiveMs w.freshTtlMs = none →
        normalizePositiveMs w.staleWhileRevalidateMs = none ∧
          normalizePositiveMs w.staleIfErrorMs = none) ∧
      (∀ f ∈ normalizePositiveMs w.freshTtlMs, f ≤ maxTtlMs) ∧
      ∀ f ∈ normalizePositiveMs w.freshTtlMs,
        (∀ x ∈ normalizePositiveMs w.staleWhileRevalidateMs, f + x ≤ maxTtlMs) ∧
          ∀ x ∈ normalizePositiveMs w.staleIfErrorMs, f + x ≤ maxTtlMs)
    ⟨fun ⟨ha, hf, hs⟩ => ⟨ha, hf, hs⟩, fun ⟨ha, hf, hs⟩ => ⟨ha, hf, hs⟩⟩

/-- The fresh window, if there is one, ends after the given time. -/
def Windows.FreshUntil (w : Windows) (created until' : Millis) : Prop :=
  ∀ f ∈ normalizePositiveMs w.freshTtlMs, until' < created + f

instance (w : Windows) (created until' : Millis) : Decidable (w.FreshUntil created until') := by
  unfold Windows.FreshUntil
  infer_instance

def Windows.NoStale (w : Windows) : Prop :=
  normalizePositiveMs w.staleWhileRevalidateMs = none ∧
    normalizePositiveMs w.staleIfErrorMs = none

instance (w : Windows) : Decidable w.NoStale := by
  unfold Windows.NoStale
  infer_instance

theorem Windows.FreshUntil.later (h : w.FreshUntil created until') (hle : created ≤ t) :
    w.FreshUntil t until' := by
  intro f hf
  have := h f hf
  linarith

theorem normalizePositiveMs_idem (x : Option Millis) :
    normalizePositiveMs (normalizePositiveMs x) = normalizePositiveMs x := by
  cases x with
  | none => rfl
  | some x =>
    by_cases hx : 0 < x <;> simp [normalizePositiveMs, hx]

theorem Windows.Recognisable.recognised (h : w.Recognisable) (kind : CacheWriteKind)
    (value : Option V) (hle : created ≤ t) :
    isStoredValueEnvelope t (.envelope (createStoredValueEnvelope kind value w created)) =
      true := by
  cases hf : normalizePositiveMs w.freshTtlMs with
  | none => exact (recognised_iff_of_no_fresh hf t).mpr (h.alone hf)
  | some f =>
    have hpos : 0 < f := pos_of_mem_normalizePositiveMs hf
    obtain ⟨hs, he⟩ := h.stale_le f hf
    have hstale : ∀ {x : Option Millis}, (∀ y ∈ normalizePositiveMs x, f + y ≤ maxTtlMs) →
        StaleRecognised created f t x := by
      intro x hx y hy
      have := hx y hy
      exact ⟨by linarith, fun _ => by linarith⟩
    have := h.fresh_le f hf
    exact (recognised_iff_of_fresh hf t).mpr ⟨this, by linarith, hstale hs, hstale he⟩

theorem Windows.Recognisable.refresh (h : w.Recognisable) (hle : created ≤ t) :
    refreshStoredEnvelope t (.envelope (createStoredValueEnvelope kind value w created)) t =
      .envelope (createStoredValueEnvelope kind value w t) := by
  simp only [refreshStoredEnvelope, h.recognised kind value hle, if_true]
  simp only [createStoredValueEnvelope, normalizePositiveMs_idem]

theorem Windows.Recognisable.resolve_fresh (h : w.Recognisable) (hle : created ≤ t)
    (hstate : (resolveStoredValue t
      (.envelope (createStoredValueEnvelope kind value w created)) t).state = .fresh) :
    (resolveStoredValue t
      (.envelope (createStoredValueEnvelope kind value w created)) t).value =
      if kind = .empty then .null else .ofOption value := by
  have hrec := h.recognised kind value hle
  simp only [resolveStoredValue, hrec, Bool.not_true, Bool.false_eq_true, if_false] at hstate ⊢
  split_ifs at hstate ⊢ with hfresh hkind
  · subst hkind
    rfl
  · cases kind with
    | value => rfl
    | empty => exact absurd rfl hkind

theorem Windows.Recognisable.state_fresh (h : w.Recognisable) (hle : created ≤ t)
    (hfresh : w.FreshUntil created until') (ht : t ≤ until') :
    (resolveStoredValue t
      (.envelope (createStoredValueEnvelope kind value w created)) t).state = .fresh := by
  have hrec := h.recognised kind value hle
  have hcond : (createStoredValueEnvelope kind value w created).freshUntil = none ∨
      Ahead (createStoredValueEnvelope kind value w created).freshUntil t := by
    simp only [createStoredValueEnvelope]
    cases hf : normalizePositiveMs w.freshTtlMs with
    | none => exact .inl rfl
    | some f => exact .inr ⟨created + f, rfl, ht.trans_lt (hfresh f hf)⟩
  simp only [resolveStoredValue, hrec, Bool.not_true, Bool.false_eq_true, if_false, if_pos hcond]

theorem Windows.NoStale.state (hstale : w.NoStale) (h : w.Recognisable) (hle : created ≤ t) :
    (resolveStoredValue t
      (.envelope (createStoredValueEnvelope kind value w created)) t).state = .fresh ∨
    (resolveStoredValue t
      (.envelope (createStoredValueEnvelope kind value w created)) t).state = .expired := by
  have hrec := h.recognised kind value hle
  have hdeadline : ∀ f : Option Millis, staleDeadline f none = none := by
    intro f
    cases f <;> rfl
  have hs : ¬ Ahead (createStoredValueEnvelope kind value w created).staleUntil t := by
    simp [createStoredValueEnvelope, hstale.1, hdeadline, Ahead]
  have he : ¬ Ahead (createStoredValueEnvelope kind value w created).errorUntil t := by
    simp [createStoredValueEnvelope, hstale.2, hdeadline, Ahead]
  simp only [resolveStoredValue, hrec, Bool.not_true, Bool.false_eq_true, if_false, if_neg hs,
    if_neg he]
  split_ifs
  · exact .inl rfl
  · exact .inr rfl

theorem le_maxExpiry {e : StoredValueEnvelope V} {f expiry : Millis} (hf : e.freshUntil = some f)
    (h : maxExpiry e = some expiry) : f ≤ expiry := by
  apply (List.max?_eq_some_iff.mp h).2
  rw [hf]
  exact List.mem_cons_self

theorem Windows.Recognisable.until_lt (h : w.Recognisable) (kind : CacheWriteKind)
    (value : Option V) (hle : created ≤ until') (hfresh : w.FreshUntil created until') {x : Millis}
    (hx : x ∈ (remainingStoredTtlMs created
      (.envelope (createStoredValueEnvelope kind value w created)) created).or w.freshTtlMs)
    (hpos : 0 < x) : until' < created + x := by
  have hrec := h.recognised kind value (le_refl created)
  simp only [remainingStoredTtlMs, hrec, if_true] at hx
  cases hf : normalizePositiveMs w.freshTtlMs with
  | none =>
    obtain ⟨hs, he⟩ := h.alone hf
    have hnone : maxExpiry (createStoredValueEnvelope kind value w created) = none := by
      simp only [maxExpiry, createStoredValueEnvelope, hf, hs, he, staleDeadline, Option.map_none]
      rfl
    rw [hnone] at hx
    have hx' : w.freshTtlMs = some x := hx
    simp [normalizePositiveMs, hx', hpos] at hf
  | some f =>
    have hend : (createStoredValueEnvelope kind value w created).freshUntil =
        some (created + f) := by
      simp [createStoredValueEnvelope, hf]
    obtain ⟨expiry, hexpiry⟩ : ∃ expiry,
        maxExpiry (createStoredValueEnvelope kind value w created) = some expiry := by
      cases hm : maxExpiry (createStoredValueEnvelope kind value w created) with
      | none => simp [maxExpiry, hend] at hm
      | some expiry => exact ⟨expiry, rfl⟩
    have hge := le_maxExpiry hend hexpiry
    have hlt := hfresh f hf
    rw [hexpiry] at hx
    have hx' : x = if expiry - created ≤ 0 then 1 else max 1 ⌈expiry - created⌉ := by
      simpa using hx.symm
    have hnot : ¬ expiry - created ≤ 0 := by linarith
    rw [if_neg hnot] at hx'
    have hceil : expiry - created ≤ (⌈expiry - created⌉ : ℚ) := Int.le_ceil _
    have hmax : (⌈expiry - created⌉ : ℚ) ≤ x := by
      rw [hx']
      push_cast
      exact le_max_right _ _
    linarith

end LayerCache
