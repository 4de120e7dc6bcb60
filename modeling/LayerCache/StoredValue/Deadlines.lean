import LayerCache.StoredValue.RoundTrip

/-! # Moving the deadlines of an envelope

An entry is expired by ending its fresh window, and renewed by opening its windows again. The first
keeps an accepted envelope accepted and makes no state better. The second relies on the windows
that are stored beside the deadlines, which an accepted envelope need not have.
-/

namespace LayerCache

variable {V : Type*} {e : StoredValueEnvelope V} {clock now t : Millis}

/-- What the envelope test asks of an envelope, field by field. -/
structure Accepted (clock : Millis) (e : StoredValueEnvelope V) : Prop where
  freshUntil : ∀ d ∈ e.freshUntil, d ≤ clock + maxTtlMs
  staleUntil : ∀ d ∈ e.staleUntil, d ≤ clock + maxTtlMs
  errorUntil : ∀ d ∈ e.errorUntil, d ≤ clock + maxTtlMs
  baseline : e.freshUntil = none → e.staleUntil = none ∧ e.errorUntil = none
  staleAfter : ∀ d ∈ e.staleUntil, ∀ f ∈ e.freshUntil, f ≤ d
  errorAfter : ∀ d ∈ e.errorUntil, ∀ f ∈ e.freshUntil, f ≤ d
  freshTtlMs : isValidEnvelopeTtlMs e.freshTtlMs = true
  staleWhileRevalidateMs : isValidEnvelopeTtlMs e.staleWhileRevalidateMs = true
  staleIfErrorMs : isValidEnvelopeTtlMs e.staleIfErrorMs = true
  windowBaseline : e.freshTtlMs = none →
    e.staleWhileRevalidateMs = none ∧ e.staleIfErrorMs = none

theorem not_exceeds_iff {m : Millis} {deadline : Option Millis} :
    ¬ Exceeds m deadline ↔ ∀ d ∈ deadline, d ≤ m := by
  constructor
  · intro h d hd
    by_contra hlt
    exact h ⟨d, hd, not_le.mp hlt⟩
  · rintro h ⟨d, hd, hlt⟩
    exact absurd (h d hd) (not_le.mpr hlt)

theorem not_precedes_iff {deadline freshUntil : Option Millis} :
    ¬ Precedes deadline freshUntil ↔ ∀ d ∈ deadline, ∀ f ∈ freshUntil, f ≤ d := by
  constructor
  · intro h d hd f hf
    by_contra hlt
    exact h ⟨d, hd, f, hf, not_le.mp hlt⟩
  · rintro h ⟨d, hd, f, hf, hlt⟩
    exact absurd (h d hd f hf) (not_le.mpr hlt)

theorem isStoredValueEnvelope_iff :
    isStoredValueEnvelope clock (.envelope e) = true ↔ Accepted clock e := by
  have hbaseline : ∀ a b c : Option Millis, (!(a.isNone && (b.isSome || c.isSome))) = true ↔
      (a = none → b = none ∧ c = none) := by
    intro a b c
    cases a <;> cases b <;> cases c <;> simp
  simp only [isStoredValueEnvelope, Bool.and_eq_true, hbaseline]
  simp only [Bool.not_eq_true', decide_eq_false_iff_not, not_exceeds_iff, not_precedes_iff]
  constructor
  · rintro ⟨⟨⟨⟨⟨⟨⟨⟨⟨hf, hs⟩, he⟩, hb⟩, hsf⟩, hef⟩, hft⟩, hst⟩, het⟩, hwb⟩
    exact ⟨hf, hs, he, hb, hsf, hef, hft, hst, het, hwb⟩
  · rintro ⟨hf, hs, he, hb, hsf, hef, hft, hst, het, hwb⟩
    exact ⟨⟨⟨⟨⟨⟨⟨⟨⟨hf, hs⟩, he⟩, hb⟩, hsf⟩, hef⟩, hft⟩, hst⟩, het⟩, hwb⟩

def StoredValueState.rank : StoredValueState → ℕ
  | .fresh => 0
  | .staleWhileRevalidate => 1
  | .staleIfError => 2
  | .expired => 3

def expiredFreshUntil (e : StoredValueEnvelope V) (now : Millis) : Millis :=
  [e.staleUntil, e.errorUntil].reduceOption.foldl min now

theorem expireStoredEnvelope_eq (h : Accepted clock e) (now : Millis) :
    expireStoredEnvelope clock (.envelope e) now =
      .envelope { e with freshUntil := some (expiredFreshUntil e now) } := by
  rw [expireStoredEnvelope, if_pos (isStoredValueEnvelope_iff.mpr h)]
  rfl

theorem le_foldl_min_iff {x : Millis} {deadlines : List Millis} :
    x ≤ deadlines.foldl min now ↔ x ≤ now ∧ ∀ d ∈ deadlines, x ≤ d := by
  induction deadlines generalizing now with
  | nil => simp
  | cons d deadlines ih => simp [ih, and_assoc]

theorem le_expiredFreshUntil_iff {x : Millis} : x ≤ expiredFreshUntil e now ↔
    x ≤ now ∧ (∀ d ∈ e.staleUntil, x ≤ d) ∧ ∀ d ∈ e.errorUntil, x ≤ d := by
  rw [expiredFreshUntil, le_foldl_min_iff]
  cases hs : e.staleUntil <;> cases he : e.errorUntil <;> simp

theorem expiredFreshUntil_le_now : expiredFreshUntil e now ≤ now :=
  (le_expiredFreshUntil_iff.mp le_rfl).1

/-- Without a stale deadline the fresh window ends now, which has to be in bounds. -/
theorem Accepted.expired (h : Accepted clock e)
    (hnow : now ≤ clock + maxTtlMs ∨ e.staleUntil.isSome = true ∨ e.errorUntil.isSome = true) :
    Accepted clock { e with freshUntil := some (expiredFreshUntil e now) } where
  freshUntil := by
    rintro d ⟨⟩
    obtain ⟨hle, hstale, herror⟩ := le_expiredFreshUntil_iff.mp (le_refl (expiredFreshUntil e now))
    rcases hnow with hnow | hsome | hsome
    · exact hle.trans hnow
    · obtain ⟨s, hs⟩ := Option.isSome_iff_exists.mp hsome
      exact (hstale s hs).trans (h.staleUntil s hs)
    · obtain ⟨s, hs⟩ := Option.isSome_iff_exists.mp hsome
      exact (herror s hs).trans (h.errorUntil s hs)
  staleUntil := h.staleUntil
  errorUntil := h.errorUntil
  baseline hnone := nomatch hnone
  staleAfter := by
    rintro d hd f ⟨⟩
    exact (le_expiredFreshUntil_iff.mp le_rfl).2.1 d hd
  errorAfter := by
    rintro d hd f ⟨⟩
    exact (le_expiredFreshUntil_iff.mp le_rfl).2.2 d hd
  freshTtlMs := h.freshTtlMs
  staleWhileRevalidateMs := h.staleWhileRevalidateMs
  staleIfErrorMs := h.staleIfErrorMs
  windowBaseline := h.windowBaseline

theorem Accepted.mono {later : Millis} (h : Accepted clock e) (hle : clock ≤ later) :
    Accepted later e :=
  isStoredValueEnvelope_iff.mp (isStoredValueEnvelope_mono hle (isStoredValueEnvelope_iff.mpr h))

/-- The state of an accepted envelope whose fresh window is over. -/
def staleState (e : StoredValueEnvelope V) (t : Millis) : StoredValueState :=
  if Ahead e.staleUntil t then .staleWhileRevalidate
  else if Ahead e.errorUntil t then .staleIfError
  else .expired

theorem Accepted.state (h : Accepted clock e) : (resolveStoredValue clock (.envelope e) t).state =
    if e.freshUntil = none ∨ Ahead e.freshUntil t then .fresh else staleState e t := by
  simp only [resolveStoredValue, isStoredValueEnvelope_iff.mpr h, staleState, Bool.not_true,
    Bool.false_eq_true, if_false]
  split_ifs <;> rfl

theorem staleState_ne_fresh : staleState e t ≠ .fresh := by
  unfold staleState
  split_ifs <;> simp

/-- From the time at which it is expired, an entry is in the state it has past its fresh window. -/
theorem Accepted.state_expired
    (h : Accepted clock { e with freshUntil := some (expiredFreshUntil e now) }) (ht : now ≤ t) :
    (resolveStoredValue clock
      (.envelope { e with freshUntil := some (expiredFreshUntil e now) }) t).state =
        staleState e t := by
  rw [h.state, if_neg]
  · rfl
  · rintro (hnone | ⟨d, ⟨⟩, hd⟩)
    · cases hnone
    · exact absurd (expiredFreshUntil_le_now.trans ht) (not_le.mpr hd)

theorem Accepted.rank_le (h : Accepted clock e) :
    (resolveStoredValue clock (.envelope e) t).state.rank ≤ (staleState e t).rank := by
  rw [h.state]
  split
  · exact Nat.zero_le _
  · exact le_rfl

/-- Expiring an accepted envelope yields one that is accepted, with the same content and stale
deadlines, no longer fresh, and at no later time in a better state. -/
structure ExpiresWell (clock : Millis) (e : StoredValueEnvelope V) (now : Millis) : Prop where
  envelope : ∃ expired, expireStoredEnvelope clock (.envelope e) now = .envelope expired ∧
    isStoredValueEnvelope clock (.envelope expired) = true ∧
    expired.kind = e.kind ∧ expired.value = e.value ∧
    expired.staleUntil = e.staleUntil ∧ expired.errorUntil = e.errorUntil
  notFresh : ∀ later, clock ≤ later → ∀ t, now ≤ t →
    (resolveStoredValue later (expireStoredEnvelope clock (.envelope e) now) t).state ≠ .fresh
  notBetter : ∀ later, clock ≤ later → ∀ t, now ≤ t →
    (resolveStoredValue later (.envelope e) t).state.rank ≤
      (resolveStoredValue later (expireStoredEnvelope clock (.envelope e) now) t).state.rank
  idempotent : expireStoredEnvelope clock (expireStoredEnvelope clock (.envelope e) now) now =
    expireStoredEnvelope clock (.envelope e) now

/-- An entry without a stale deadline can be expired at any time that an envelope may name. -/
theorem expiresWell (clock now : Millis) (e : StoredValueEnvelope V)
    (h : isStoredValueEnvelope clock (.envelope e) = true)
    (hnow : now ≤ clock + maxTtlMs ∨ e.staleUntil.isSome = true ∨ e.errorUntil.isSome = true) :
    ExpiresWell clock e now := by
  have haccepted : Accepted clock e := isStoredValueEnvelope_iff.mp h
  have hexpired : Accepted clock { e with freshUntil := some (expiredFreshUntil e now) } :=
    haccepted.expired hnow
  have heq := expireStoredEnvelope_eq haccepted now
  constructor
  · exact ⟨_, heq, isStoredValueEnvelope_iff.mpr hexpired, rfl, rfl, rfl, rfl⟩
  · intro later hlater t ht
    rw [heq, (hexpired.mono hlater).state_expired ht]
    exact staleState_ne_fresh
  · intro later hlater t ht
    rw [heq, (hexpired.mono hlater).state_expired ht]
    exact (haccepted.mono hlater).rank_le
  · rw [heq, expireStoredEnvelope_eq hexpired]
    rfl

/-- An entry that never expires, and one that is fresh and then served stale. -/
def lasting : StoredValueEnvelope ℕ :=
  createStoredValueEnvelope .value (some 7) ⟨none, none, none⟩ 0

def servedStale : StoredValueEnvelope ℕ :=
  createStoredValueEnvelope .value (some 7) ⟨some 1000, some 500, none⟩ 1700000000000

theorem expiresWell_servedStale : ExpiresWell 1700000000000 servedStale 1700000000400 :=
  expiresWell _ _ _ (by decide +kernel) (.inr (.inl (by decide +kernel)))

/-- An expiry that lies more than ten years ahead of the clock. -/
theorem not_expiresWell_lasting :
    isStoredValueEnvelope 1700000000000 (.envelope lasting) = true ∧
      ¬ ExpiresWell 1700000000000 lasting 2100000000000 := by
  constructor
  · decide +kernel
  · intro h
    have hfresh := h.notFresh 1700000000000 le_rfl 2100000000000 le_rfl
    revert hfresh
    decide +kernel

/-- The renewed envelope is accepted, has the same content, expires no earlier than before, and
keeps the stale deadlines that it had behind its fresh window. -/
def RefreshesWell (clock : Millis) (e : StoredValueEnvelope V) (now : Millis) : Prop :=
  ∃ refreshed, refreshStoredEnvelope clock (.envelope e) now = .envelope refreshed ∧
    isStoredValueEnvelope clock (.envelope refreshed) = true ∧
    refreshed.kind = e.kind ∧ refreshed.value = e.value ∧
    ∃ freshUntil ∈ refreshed.freshUntil, (∀ f ∈ e.freshUntil, f ≤ freshUntil) ∧
      (e.staleUntil.isSome = true → ∃ d ∈ refreshed.staleUntil, freshUntil ≤ d) ∧
      (e.errorUntil.isSome = true → ∃ d ∈ refreshed.errorUntil, freshUntil ≤ d)

/-- The window is there if its deadline is, and reaches no further than the bound from the end of
the fresh window. A fresh window that ends at the time zero takes no stale one after it. -/
def Reopens (clock freshUntil : Millis) (deadline window : Option Millis) : Prop :=
  (deadline.isSome = true → window.isSome = true ∧ freshUntil ≠ 0) ∧
    ∀ w ∈ window, freshUntil ≠ 0 → freshUntil + w ≤ clock + maxTtlMs

/-- The windows of the envelope, opened now, cover its deadlines and stay in bounds. -/
def WindowsCover (clock : Millis) (e : StoredValueEnvelope V) (now : Millis) : Prop :=
  ∃ ttl ∈ e.freshTtlMs, now + ttl ≤ clock + maxTtlMs ∧ (∀ f ∈ e.freshUntil, f ≤ now + ttl) ∧
    Reopens clock (now + ttl) e.staleUntil e.staleWhileRevalidateMs ∧
    Reopens clock (now + ttl) e.errorUntil e.staleIfErrorMs

theorem normalizePositiveMs_of_valid {window : Option Millis}
    (h : isValidEnvelopeTtlMs window = true) : normalizePositiveMs window = window := by
  cases window with
  | none => rfl
  | some w =>
    simp only [isValidEnvelopeTtlMs, Bool.and_eq_true, decide_eq_true_eq] at h
    exact if_pos h.1

theorem le_of_valid {window : Option Millis} (h : isValidEnvelopeTtlMs window = true) :
    ∀ w ∈ window, 0 < w ∧ w ≤ maxTtlMs := by
  rintro w ⟨⟩
  simpa [isValidEnvelopeTtlMs] using h

theorem exists_staleDeadline_iff {window : Option Millis}
    (h : isValidEnvelopeTtlMs window = true) (freshUntil : Millis) :
    (∃ d ∈ staleDeadline (some freshUntil) window, freshUntil ≤ d) ↔
      window.isSome = true ∧ freshUntil ≠ 0 := by
  cases window with
  | none => simp [staleDeadline]
  | some w =>
    have hw := (le_of_valid h w rfl).1
    by_cases hzero : freshUntil = 0
    · simp [staleDeadline, hzero]
    · simp [staleDeadline, hzero, hw.le]

theorem staleRecognised_iff {freshTtl : Millis} {window : Option Millis}
    (h : isValidEnvelopeTtlMs window = true) : StaleRecognised now freshTtl clock window ↔
      ∀ w ∈ window, now + freshTtl ≠ 0 → now + freshTtl + w ≤ clock + maxTtlMs := by
  rw [StaleRecognised, normalizePositiveMs_of_valid h]
  exact forall₂_congr fun w hw => and_iff_right (le_of_valid h w hw).2

theorem not_refreshesWell_of_no_window (h : Accepted clock e) (hnone : e.freshTtlMs = none) :
    ¬ RefreshesWell clock e now := by
  rintro ⟨refreshed, heq, -, -, -, freshUntil, hfresh, -⟩
  rw [refreshStoredEnvelope, if_pos (isStoredValueEnvelope_iff.mpr h)] at heq
  obtain rfl := Stored.envelope.inj heq
  simp [createStoredValueEnvelope, hnone, normalizePositiveMs] at hfresh

/-- With its fresh window an accepted envelope is renewed to one with the windows opened now. -/
theorem refreshStoredEnvelope_eq {ttl : Millis} (h : Accepted clock e)
    (httl : e.freshTtlMs = some ttl) (now : Millis) :
    refreshStoredEnvelope clock (.envelope e) now = .envelope
      { e with
        freshUntil := some (now + ttl)
        staleUntil := staleDeadline (some (now + ttl)) e.staleWhileRevalidateMs
        errorUntil := staleDeadline (some (now + ttl)) e.staleIfErrorMs } := by
  rw [refreshStoredEnvelope, if_pos (isStoredValueEnvelope_iff.mpr h)]
  simp only [createStoredValueEnvelope, normalizePositiveMs_of_valid h.freshTtlMs,
    normalizePositiveMs_of_valid h.staleWhileRevalidateMs,
    normalizePositiveMs_of_valid h.staleIfErrorMs]
  rw [httl]
  rfl

/-- The envelope test on a renewed envelope comes down to its bounds. -/
theorem accepted_refreshed_iff {ttl : Millis} (h : Accepted clock e)
    (httl : e.freshTtlMs = some ttl) (now : Millis) :
    isStoredValueEnvelope clock (refreshStoredEnvelope clock (.envelope e) now) = true ↔
      now + ttl ≤ clock + maxTtlMs ∧
      (∀ w ∈ e.staleWhileRevalidateMs, now + ttl ≠ 0 → now + ttl + w ≤ clock + maxTtlMs) ∧
      ∀ w ∈ e.staleIfErrorMs, now + ttl ≠ 0 → now + ttl + w ≤ clock + maxTtlMs := by
  have hnormal : normalizePositiveMs e.freshTtlMs = some ttl :=
    (normalizePositiveMs_of_valid h.freshTtlMs).trans httl
  have hrecognised : isStoredValueEnvelope clock (.envelope
      (createStoredValueEnvelope e.kind e.value
        ⟨e.freshTtlMs, e.staleWhileRevalidateMs, e.staleIfErrorMs⟩ now)) = true ↔ _ :=
    recognised_iff_of_fresh hnormal clock
  rw [refreshStoredEnvelope, if_pos (isStoredValueEnvelope_iff.mpr h), hrecognised,
    staleRecognised_iff h.staleWhileRevalidateMs, staleRecognised_iff h.staleIfErrorMs]
  exact and_iff_right (le_of_valid h.freshTtlMs ttl httl).2

theorem Accepted.renewed_iff (h : Accepted clock e) :
    RefreshesWell clock e now ↔ WindowsCover clock e now := by
  cases httl : e.freshTtlMs with
  | none =>
    constructor
    · exact fun hwell => absurd hwell (not_refreshesWell_of_no_window h httl)
    · rintro ⟨ttl, hmem, -⟩
      rw [httl] at hmem
      cases hmem
  | some ttl =>
    have heq := refreshStoredEnvelope_eq h httl now
    have htest := accepted_refreshed_iff h httl now
    have hstale := exists_staleDeadline_iff h.staleWhileRevalidateMs (now + ttl)
    have herror := exists_staleDeadline_iff h.staleIfErrorMs (now + ttl)
    constructor
    · rintro ⟨refreshed, hrefreshed, hrecognised, -, -, freshUntil, hfresh, hle, hkeepStale,
        hkeepError⟩
      rw [hrefreshed] at htest
      obtain ⟨hbound, hstaleBound, herrorBound⟩ := htest.mp hrecognised
      obtain rfl := Stored.envelope.inj (heq.symm.trans hrefreshed)
      cases hfresh
      exact ⟨ttl, httl, hbound, hle, ⟨fun hsome => hstale.mp (hkeepStale hsome), hstaleBound⟩,
        fun hsome => herror.mp (hkeepError hsome), herrorBound⟩
    · rintro ⟨ttl', hmem, hbound, hle, ⟨hkeepStale, hstaleBound⟩, hkeepError, herrorBound⟩
      obtain rfl : ttl = ttl' := Option.some.inj (httl.symm.trans hmem)
      have hrecognised := htest.mpr ⟨hbound, hstaleBound, herrorBound⟩
      rw [heq] at hrecognised
      exact ⟨_, heq, hrecognised, rfl, rfl, now + ttl, rfl, hle,
        fun hsome => hstale.mpr (hkeepStale hsome), fun hsome => herror.mpr (hkeepError hsome)⟩

/-- An envelope of whole milliseconds is renewed well exactly if its windows cover it. -/
theorem refreshesWell_iff (clock now : ℤ) (e : WholeEnvelope V)
    (h : isStoredValueEnvelope clock (.envelope e.toStoredValueEnvelope) = true) :
    RefreshesWell clock e.toStoredValueEnvelope now ↔
      WindowsCover clock e.toStoredValueEnvelope now :=
  (isStoredValueEnvelope_iff.mp h).renewed_iff

/-- The sliding TTL moves both deadlines of the entry. -/
theorem refreshesWell_servedStale : RefreshesWell 1700000000400 servedStale 1700000000400 := by
  have hwell := refreshesWell_iff 1700000000400 1700000000400
    ⟨servedStale, by decide +kernel, by decide +kernel, by decide +kernel, by decide +kernel,
      by decide +kernel, by decide +kernel⟩ (by decide +kernel)
  exact hwell.mpr ⟨1000, by decide +kernel, by decide +kernel, by decide +kernel,
    ⟨by decide +kernel, by decide +kernel⟩, ⟨by decide +kernel, by decide +kernel⟩⟩

/-- An envelope in the older format, with its deadlines alone. Renewed, it never expires. -/
def withoutWindows : StoredValueEnvelope ℕ :=
  ⟨.value, some 7, some 1700000001000, none, none, none, none, none⟩

theorem not_refreshesWell_withoutWindows :
    isStoredValueEnvelope 1700000000000 (.envelope withoutWindows) = true ∧
      withoutWindows.freshUntil.isSome = true ∧
      refreshStoredEnvelope 1700000000000 (.envelope withoutWindows) 1700000000000 =
        .envelope { withoutWindows with freshUntil := none } ∧
      ¬ RefreshesWell 1700000000000 withoutWindows 1700000000000 := by
  have htest : isStoredValueEnvelope 1700000000000 (.envelope withoutWindows) = true := by
    decide +kernel
  refine ⟨htest, rfl, by decide +kernel, ?_⟩
  exact not_refreshesWell_of_no_window (isStoredValueEnvelope_iff.mp htest) rfl

end LayerCache
