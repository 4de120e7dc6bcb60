import LayerCache.StoredValue.Basic

/-! # The envelope round trip

An envelope built from a write's windows is recognised by every later reader,
and resolves to the value and to the state the windows define, exactly when a
fresh window comes with every stale one and no deadline lies beyond the bound
the envelope test enforces.
-/

namespace LayerCache

variable {V : Type*} {kind : CacheWriteKind} {value : Option V} {w : Windows}
  {created now clock : Millis}

/-- The state that the windows themselves define: an absent or zero fresh window never
ends, and each stale window starts where the fresh one ends. -/
def Windows.stateAt (w : Windows) (created now : Millis) : StoredValueState :=
  match normalizePositiveMs w.freshTtlMs with
  | none => .fresh
  | some f =>
    if now < created + f then .fresh
    else if Ahead ((normalizePositiveMs w.staleWhileRevalidateMs).map (created + f + ·)) now then
      .staleWhileRevalidate
    else if Ahead ((normalizePositiveMs w.staleIfErrorMs).map (created + f + ·)) now then
      .staleIfError
    else .expired

/-- What a read of the stored value owes in a given state. An expired value is not
handed out. -/
def storedAnswer (kind : CacheWriteKind) (value : Option V) (state : StoredValueState) : Js V :=
  if state = .expired ∨ kind = .empty then .null else .ofOption value

/-- The envelope of a write is recognised from its creation on and always resolves to
the value and the state its windows define. -/
def EnvelopeRoundTrip (kind : CacheWriteKind) (value : Option V) (w : Windows)
    (created : Millis) : Prop :=
  ∀ t, created ≤ t →
    isStoredValueEnvelope t (.envelope (createStoredValueEnvelope kind value w created)) = true ∧
    (resolveStoredValue t (.envelope (createStoredValueEnvelope kind value w created)) t).state =
      w.stateAt created t ∧
    (resolveStoredValue t (.envelope (createStoredValueEnvelope kind value w created)) t).value =
      storedAnswer kind value (w.stateAt created t)

/-- A stale window fits the fresh window `f` it follows: its deadline stays within the
bound and the end of the fresh window is not the falsy timestamp zero. -/
def StaleFits (created f : Millis) (window : Option Millis) : Prop :=
  ∀ s ∈ normalizePositiveMs window, f + s ≤ maxTtlMs ∧ created + f ≠ 0

/-- The windows that the builder and the envelope test agree on. -/
def Windows.Admissible (w : Windows) (created : Millis) : Prop :=
  match normalizePositiveMs w.freshTtlMs with
  | none => normalizePositiveMs w.staleWhileRevalidateMs = none ∧
      normalizePositiveMs w.staleIfErrorMs = none
  | some f => f ≤ maxTtlMs ∧ StaleFits created f w.staleWhileRevalidateMs ∧
      StaleFits created f w.staleIfErrorMs

/-- What the envelope test asks of a built stale deadline. -/
def StaleRecognised (created f t : Millis) (window : Option Millis) : Prop :=
  ∀ s ∈ normalizePositiveMs window,
    s ≤ maxTtlMs ∧ (created + f ≠ 0 → created + f + s ≤ t + maxTtlMs)

theorem pos_of_mem_normalizePositiveMs {x : Option Millis} {y : Millis}
    (h : y ∈ normalizePositiveMs x) : 0 < y := by
  cases x with
  | none => cases h
  | some x =>
    simp only [normalizePositiveMs, Option.mem_def] at h
    split at h
    · cases h; assumption
    · cases h

theorem isValidEnvelopeTtlMs_normalize {x : Option Millis} :
    isValidEnvelopeTtlMs (normalizePositiveMs x) = true ↔
      ∀ y ∈ normalizePositiveMs x, y ≤ maxTtlMs := by
  cases h : normalizePositiveMs x with
  | none => simp [isValidEnvelopeTtlMs]
  | some y =>
    have hy : 0 < y := pos_of_mem_normalizePositiveMs h
    simp [isValidEnvelopeTtlMs, hy]

theorem exceeds_staleDeadline {m f : Millis} {window : Option Millis} :
    Exceeds m (staleDeadline (some f) window) ↔ ∃ s ∈ window, f ≠ 0 ∧ m < f + s := by
  cases window with
  | none => simp [Exceeds, staleDeadline]
  | some s => by_cases hf : f = 0 <;> simp [Exceeds, staleDeadline, hf]

theorem not_precedes_staleDeadline {f : Millis} {x : Option Millis} :
    ¬ Precedes (staleDeadline (some f) (normalizePositiveMs x)) (some f) := by
  cases h : normalizePositiveMs x with
  | none => simp [Precedes, staleDeadline]
  | some s =>
    have hs : 0 < s := pos_of_mem_normalizePositiveMs h
    by_cases hf : f = 0 <;> simp [Precedes, staleDeadline, hf]
    linarith

/-- Without a fresh window the envelope is recognised only if it has no stale window. -/
theorem recognised_iff_of_no_fresh (hf : normalizePositiveMs w.freshTtlMs = none) (t : Millis) :
    isStoredValueEnvelope t (.envelope (createStoredValueEnvelope kind value w created)) = true ↔
      normalizePositiveMs w.staleWhileRevalidateMs = none ∧
        normalizePositiveMs w.staleIfErrorMs = none := by
  simp only [isStoredValueEnvelope, createStoredValueEnvelope, hf, Option.map_none, staleDeadline]
  cases hs : normalizePositiveMs w.staleWhileRevalidateMs <;>
    cases he : normalizePositiveMs w.staleIfErrorMs <;>
      simp [Exceeds, Precedes, isValidEnvelopeTtlMs]

/-- With a fresh window the envelope is recognised as long as every deadline is in bounds. -/
theorem recognised_iff_of_fresh {f : Millis} (hf : normalizePositiveMs w.freshTtlMs = some f)
    (t : Millis) :
    isStoredValueEnvelope t (.envelope (createStoredValueEnvelope kind value w created)) = true ↔
      f ≤ maxTtlMs ∧ created + f ≤ t + maxTtlMs ∧
        StaleRecognised created f t w.staleWhileRevalidateMs ∧
        StaleRecognised created f t w.staleIfErrorMs := by
  have hv := isValidEnvelopeTtlMs_normalize (x := w.freshTtlMs)
  simp only [hf, Option.mem_def, Option.some.injEq, forall_eq'] at hv
  simp only [isStoredValueEnvelope, createStoredValueEnvelope, hf, Option.map_some,
    Bool.and_eq_true, Bool.not_eq_true', decide_eq_false_iff_not, Option.isNone_some,
    Bool.false_and, and_true, exceeds_staleDeadline, not_precedes_staleDeadline,
    not_false_eq_true, isValidEnvelopeTtlMs_normalize, hv, StaleRecognised]
  simp only [Exceeds, Option.mem_def, Option.some.injEq, exists_eq_left', not_lt, not_exists,
    not_and, forall_and]
  tauto

theorem StaleFits.recognised {f t : Millis} {x : Option Millis} (h : StaleFits created f x)
    (hf : 0 < f) (ht : created ≤ t) : StaleRecognised created f t x := by
  intro s hs
  have := (h s hs).1
  exact ⟨by linarith, fun _ => by linarith⟩

/-- Admissible windows keep the envelope recognised at every later reading of the clock. -/
theorem Windows.Admissible.recognised (h : w.Admissible created) {t : Millis} (ht : created ≤ t) :
    isStoredValueEnvelope t (.envelope (createStoredValueEnvelope kind value w created)) =
      true := by
  cases hf : normalizePositiveMs w.freshTtlMs with
  | none =>
    rw [recognised_iff_of_no_fresh hf]
    simpa [Windows.Admissible, hf] using h
  | some f =>
    have hpos : 0 < f := pos_of_mem_normalizePositiveMs hf
    simp only [Windows.Admissible, hf] at h
    obtain ⟨hmax, hs, he⟩ := h
    exact (recognised_iff_of_fresh hf t).mpr
      ⟨hmax, by linarith, hs.recognised hpos ht, he.recognised hpos ht⟩

theorem StaleFits.ahead_iff {f t : Millis} {x : Option Millis} (h : StaleFits created f x) :
    Ahead (staleDeadline (some (created + f)) (normalizePositiveMs x)) t ↔
      Ahead ((normalizePositiveMs x).map (created + f + ·)) t := by
  cases hx : normalizePositiveMs x with
  | none => simp [Ahead, staleDeadline]
  | some s => simp [Ahead, staleDeadline, (h s hx).2]

/-- A recognised envelope with admissible windows resolves as the windows say. -/
theorem Windows.Admissible.resolve (h : w.Admissible created) {t : Millis} (ht : created ≤ t) :
    (resolveStoredValue t (.envelope (createStoredValueEnvelope kind value w created)) t).state =
        w.stateAt created t ∧
      (resolveStoredValue t (.envelope (createStoredValueEnvelope kind value w created)) t).value =
        storedAnswer kind value (w.stateAt created t) := by
  have hrec : isStoredValueEnvelope t
      (.envelope (createStoredValueEnvelope kind value w created)) = true := h.recognised ht
  have hunwrap : (createStoredValueEnvelope kind value w created).unwrap =
      storedAnswer kind value .fresh := by
    cases kind <;> rfl
  simp only [resolveStoredValue, hrec, Bool.not_true, Bool.false_eq_true, if_false, hunwrap]
  cases hf : normalizePositiveMs w.freshTtlMs with
  | none => simp [createStoredValueEnvelope, Windows.stateAt, hf]
  | some f =>
    simp only [Windows.Admissible, hf] at h
    simp only [createStoredValueEnvelope, Windows.stateAt, hf, Option.map_some, reduceCtorEq,
      false_or, h.2.1.ahead_iff, h.2.2.ahead_iff]
    have hfresh : Ahead (some (created + f)) t ↔ t < created + f := by simp [Ahead]
    simp only [hfresh]
    split_ifs <;> simp [storedAnswer]

/-- At the instant zero an envelope whose fresh window ends there has no window left. -/
theorem resolve_at_zero {f : Millis} (hf : normalizePositiveMs w.freshTtlMs = some f)
    (h0 : created + f = 0)
    (hrec : isStoredValueEnvelope 0
      (.envelope (createStoredValueEnvelope kind value w created)) = true) :
    (resolveStoredValue 0 (.envelope (createStoredValueEnvelope kind value w created)) 0).state =
      .expired := by
  simp only [resolveStoredValue, hrec]
  simp only [createStoredValueEnvelope, hf, Option.map_some, h0]
  simp [Ahead, staleDeadline]
  cases normalizePositiveMs w.staleWhileRevalidateMs <;>
    cases normalizePositiveMs w.staleIfErrorMs <;> simp

theorem EnvelopeRoundTrip.staleFits {f : Millis} (h : EnvelopeRoundTrip kind value w created)
    (hf : normalizePositiveMs w.freshTtlMs = some f) {x : Option Millis}
    (hx : x = w.staleWhileRevalidateMs ∨ x = w.staleIfErrorMs) : StaleFits created f x := by
  have hpos : 0 < f := pos_of_mem_normalizePositiveMs hf
  have hrec := (recognised_iff_of_fresh hf created).mp (h created le_rfl).1
  have hne : ∀ s ∈ normalizePositiveMs x, created + f ≠ 0 := by
    intro s hs h0
    have hs' : 0 < s := pos_of_mem_normalizePositiveMs hs
    have ht : created ≤ 0 := by linarith
    obtain ⟨hrec0, hstate, -⟩ := h 0 ht
    rw [resolve_at_zero hf h0 hrec0] at hstate
    -- the windows still leave a stale one open at zero
    simp only [Windows.stateAt, hf, h0, lt_self_iff_false, if_false, zero_add] at hstate
    rcases hx with rfl | rfl
    · simp only [Option.mem_def] at hs
      simp [hs, Ahead, hs'] at hstate
    · simp only [Option.mem_def] at hs
      simp only [hs, Ahead, Option.map_some, Option.mem_def, Option.some.injEq, exists_eq_left',
        hs', if_true] at hstate
      split at hstate <;> cases hstate
  have hbound : StaleRecognised created f created x := by
    rcases hx with rfl | rfl
    · exact hrec.2.2.1
    · exact hrec.2.2.2
  intro s hs
  have := (hbound s hs).2 (hne s hs)
  exact ⟨by linarith, hne s hs⟩

/-- For whole milliseconds the envelope round trip holds exactly for admissible windows,
whatever the value, the kind and the time of creation. -/
theorem envelopeRoundTrip_iff (kind : CacheWriteKind) (value : Option V) (w : WholeWindows)
    (created : ℤ) :
    EnvelopeRoundTrip kind value w.toWindows created ↔ w.toWindows.Admissible created := by
  constructor
  · intro h
    cases hf : normalizePositiveMs w.freshTtlMs with
    | none =>
      have := (recognised_iff_of_no_fresh hf created).mp (h created le_rfl).1
      simpa [Windows.Admissible, hf] using this
    | some f =>
      have hrec := (recognised_iff_of_fresh hf created).mp (h created le_rfl).1
      simp only [Windows.Admissible, hf]
      exact ⟨hrec.1, h.staleFits hf (.inl rfl), h.staleFits hf (.inr rfl)⟩
  · intro h t ht
    exact ⟨h.recognised ht, h.resolve ht⟩

/-- A stale window without a fresh one: the reader is handed the envelope object. -/
theorem staleWindow_alone_leaks_envelope :
    let w : Windows := ⟨none, some 5000, none⟩
    ¬ EnvelopeRoundTrip .value (some 1) w 1700000000000 ∧
      (resolveStoredValue 1700000000000
        (.envelope (createStoredValueEnvelope .value (some 1) w 1700000000000))
        1700000000000).value =
      Js.envelope (createStoredValueEnvelope .value (some 1) w 1700000000000) := by
  refine ⟨fun h => ?_, by decide +kernel⟩
  have hrec := (h 1700000000000 le_rfl).1
  revert hrec
  decide +kernel

end LayerCache
