import Mathlib.Data.List.ReduceOption
import Mathlib.Algebra.Order.Ring.Rat
import Mathlib.Algebra.Order.Floor.Defs
import Mathlib.Data.Rat.Floor
import Mathlib.Tactic.Linarith

/-! # Stored envelopes

A stack stores every value inside an envelope of up to three deadlines: the end
of the fresh window and, after it, of the two stale windows. Readers recognise
an envelope by its shape and resolve it against the clock. Timestamps and
windows are rational numbers of milliseconds, with exact sums; the numbers of
the source have those for whole milliseconds only.
-/

namespace LayerCache

abbrev Millis := ℚ

inductive CacheWriteKind | value | empty
  deriving DecidableEq, Repr

inductive StoredValueState | fresh | staleWhileRevalidate | staleIfError | expired
  deriving DecidableEq, Repr

/-- The envelope object. In `value`, and wherever a value other than `undefined` is
meant, `none` is `null`. -/
structure StoredValueEnvelope (V : Type*) where
  kind : CacheWriteKind
  value : Option V
  freshUntil : Option Millis
  staleUntil : Option Millis
  errorUntil : Option Millis
  freshTtlMs : Option Millis
  staleWhileRevalidateMs : Option Millis
  staleIfErrorMs : Option Millis
  deriving DecidableEq, Repr

inductive Stored (V : Type*)
  | plain (v : V)
  | envelope (e : StoredValueEnvelope V)
  deriving DecidableEq, Repr

/-- What a reader can be handed. An envelope that is not recognised is an object like
any other, so it can be handed out too. -/
inductive Js (V : Type*)
  | undefined
  | null
  | value (v : V)
  | envelope (e : StoredValueEnvelope V)
  deriving DecidableEq, Repr

structure ResolvedStoredValue (V : Type*) where
  state : StoredValueState
  value : Js V
  stored : Stored V
  envelope : Option (StoredValueEnvelope V)
  deriving DecidableEq, Repr

/-- The three windows a write asks for, each possibly absent. -/
structure Windows where
  freshTtlMs : Option Millis
  staleWhileRevalidateMs : Option Millis
  staleIfErrorMs : Option Millis
  deriving DecidableEq, Repr

def IsWhole (time : Option Millis) : Prop :=
  ∀ ms ∈ time, ms.isInt = true

instance (time : Option Millis) : Decidable (IsWhole time) :=
  inferInstanceAs (Decidable (∀ ms ∈ time, ms.isInt = true))

structure WholeWindows extends Windows where
  freshTtlMs_isWhole : IsWhole freshTtlMs
  staleWhileRevalidateMs_isWhole : IsWhole staleWhileRevalidateMs
  staleIfErrorMs_isWhole : IsWhole staleIfErrorMs

structure WholeEnvelope (V : Type*) extends StoredValueEnvelope V where
  freshUntil_isWhole : IsWhole freshUntil
  staleUntil_isWhole : IsWhole staleUntil
  errorUntil_isWhole : IsWhole errorUntil
  freshTtlMs_isWhole : IsWhole freshTtlMs
  staleWhileRevalidateMs_isWhole : IsWhole staleWhileRevalidateMs
  staleIfErrorMs_isWhole : IsWhole staleIfErrorMs

variable {V : Type*}

def Js.ofOption : Option V → Js V
  | none => .null
  | some v => .value v

/-- Ten years: the bound on windows, and on deadlines relative to the clock. -/
def maxTtlMs : Millis := 10 * 365 * 24 * 60 * 60 * 1000

def isValidEnvelopeTtlMs : Option Millis → Bool
  | none => true
  | some ms => decide (0 < ms) && decide (ms ≤ maxTtlMs)

def Exceeds (maxTimestamp : Millis) (deadline : Option Millis) : Prop :=
  ∃ d ∈ deadline, maxTimestamp < d

def Precedes (deadline freshUntil : Option Millis) : Prop :=
  ∃ d ∈ deadline, ∃ f ∈ freshUntil, d < f

instance (m : Millis) (d : Option Millis) : Decidable (Exceeds m d) :=
  match d with
  | none => isFalse (by rintro ⟨_, h, _⟩; cases h)
  | some x => decidable_of_iff (m < x) (by simp [Exceeds])

instance (d f : Option Millis) : Decidable (Precedes d f) :=
  match d, f with
  | none, _ => isFalse (by rintro ⟨_, h, _⟩; cases h)
  | some _, none => isFalse (by rintro ⟨_, _, _, h, _⟩; cases h)
  | some x, some y => decidable_of_iff (x < y) (by simp [Precedes])

/-- The envelope test, with `clock` the reading of `Date.now()` it makes. -/
def isStoredValueEnvelope (clock : Millis) : Stored V → Bool
  | .plain _ => false
  | .envelope v =>
    !decide (Exceeds (clock + maxTtlMs) v.freshUntil) &&
    !decide (Exceeds (clock + maxTtlMs) v.staleUntil) &&
    !decide (Exceeds (clock + maxTtlMs) v.errorUntil) &&
    !(v.freshUntil.isNone && (v.staleUntil.isSome || v.errorUntil.isSome)) &&
    !decide (Precedes v.staleUntil v.freshUntil) &&
    !decide (Precedes v.errorUntil v.freshUntil) &&
    isValidEnvelopeTtlMs v.freshTtlMs &&
    isValidEnvelopeTtlMs v.staleWhileRevalidateMs &&
    isValidEnvelopeTtlMs v.staleIfErrorMs &&
    !(v.freshTtlMs.isNone && (v.staleWhileRevalidateMs.isSome || v.staleIfErrorMs.isSome))

def normalizePositiveMs : Option Millis → Option Millis
  | none => none
  | some ms => if 0 < ms then some ms else none

/-- A stale deadline: `freshUntil && window ? freshUntil + window : null`, where a zero
`freshUntil` is falsy. -/
def staleDeadline (freshUntil window : Option Millis) : Option Millis :=
  match freshUntil, window with
  | some f, some w => if f = 0 then none else some (f + w)
  | _, _ => none

def createStoredValueEnvelope (kind : CacheWriteKind) (value : Option V) (windows : Windows)
    (now : Millis) : StoredValueEnvelope V :=
  let freshTtlMs := normalizePositiveMs windows.freshTtlMs
  let staleWhileRevalidateMs := normalizePositiveMs windows.staleWhileRevalidateMs
  let staleIfErrorMs := normalizePositiveMs windows.staleIfErrorMs
  let freshUntil := freshTtlMs.map (now + ·)
  { kind
    value
    freshUntil
    staleUntil := staleDeadline freshUntil staleWhileRevalidateMs
    errorUntil := staleDeadline freshUntil staleIfErrorMs
    freshTtlMs
    staleWhileRevalidateMs
    staleIfErrorMs }

def StoredValueEnvelope.unwrap (e : StoredValueEnvelope V) : Js V :=
  match e.kind with
  | .empty => .null
  | .value => .ofOption e.value

def Ahead (deadline : Option Millis) (now : Millis) : Prop := ∃ d ∈ deadline, now < d

instance (d : Option Millis) (now : Millis) : Decidable (Ahead d now) :=
  match d with
  | none => isFalse (by rintro ⟨_, h, _⟩; cases h)
  | some x => decidable_of_iff (now < x) (by simp [Ahead])

def resolveStoredValue (clock : Millis) (stored : Stored V) (now : Millis) :
    ResolvedStoredValue V :=
  match stored with
  | .plain v => ⟨.fresh, .value v, stored, none⟩
  | .envelope e =>
    if !isStoredValueEnvelope clock stored then ⟨.fresh, .envelope e, stored, none⟩
    else if e.freshUntil = none ∨ Ahead e.freshUntil now then ⟨.fresh, e.unwrap, stored, some e⟩
    else if Ahead e.staleUntil now then ⟨.staleWhileRevalidate, e.unwrap, stored, some e⟩
    else if Ahead e.errorUntil now then ⟨.staleIfError, e.unwrap, stored, some e⟩
    else ⟨.expired, .null, stored, some e⟩

theorem not_ahead_mono {d : Option Millis} {now later : Millis} (h : ¬ Ahead d now)
    (hle : now ≤ later) : ¬ Ahead d later :=
  fun ⟨x, hx, hlt⟩ => h ⟨x, hx, hle.trans_lt hlt⟩

theorem isStoredValueEnvelope_mono {stored : Stored V} {now later : Millis} (hle : now ≤ later)
    (h : isStoredValueEnvelope now stored = true) : isStoredValueEnvelope later stored = true := by
  have hexceeds : ∀ d, ¬ Exceeds (now + maxTtlMs) d → ¬ Exceeds (later + maxTtlMs) d := by
    rintro d hd ⟨x, hx, hlt⟩
    exact hd ⟨x, hx, by linarith⟩
  cases stored with
  | plain v => simp [isStoredValueEnvelope] at h
  | envelope e =>
    simp only [isStoredValueEnvelope, Bool.and_eq_true, Bool.not_eq_true', decide_eq_false_iff_not]
      at h ⊢
    obtain ⟨⟨⟨⟨⟨⟨⟨⟨⟨hf, hs⟩, he⟩, h1⟩, h2⟩, h3⟩, h4⟩, h5⟩, h6⟩, h7⟩ := h
    exact ⟨⟨⟨⟨⟨⟨⟨⟨⟨hexceeds _ hf, hexceeds _ hs⟩, hexceeds _ he⟩, h1⟩, h2⟩, h3⟩, h4⟩, h5⟩, h6⟩, h7⟩

theorem expired_mono {stored : Stored V} {now later : Millis} (hle : now ≤ later)
    (h : (resolveStoredValue now stored now).state = .expired) :
    (resolveStoredValue later stored later).state = .expired := by
  cases stored with
  | plain v => simp [resolveStoredValue] at h
  | envelope e =>
    simp only [resolveStoredValue] at h ⊢
    split_ifs at h with henv hfresh hstale herror
    have henv' := isStoredValueEnvelope_mono hle (by simpa using henv)
    rw [not_or] at hfresh
    rw [if_neg (by simp [henv']), if_neg (not_or.mpr ⟨hfresh.1, not_ahead_mono hfresh.2 hle⟩),
      if_neg (not_ahead_mono hstale hle), if_neg (not_ahead_mono herror hle)]

theorem fresh_of_later {stored : Stored V} {now later : Millis} (hle : now ≤ later)
    (h : (resolveStoredValue later stored later).state = .fresh) :
    (resolveStoredValue now stored now).state = .fresh := by
  cases stored with
  | plain v => rfl
  | envelope e =>
    by_cases henv : isStoredValueEnvelope now (.envelope e) = true
    · have henv' := isStoredValueEnvelope_mono hle henv
      simp only [resolveStoredValue, henv, henv', Bool.not_true, Bool.false_eq_true, if_false]
        at h ⊢
      by_cases hfresh : e.freshUntil = none ∨ Ahead e.freshUntil now
      · rw [if_pos hfresh]
      · rw [not_or] at hfresh
        rw [if_neg (not_or.mpr ⟨hfresh.1, not_ahead_mono hfresh.2 hle⟩)] at h
        split_ifs at h
    · simp [resolveStoredValue, henv]

def maxExpiry (e : StoredValueEnvelope V) : Option Millis :=
  [e.freshUntil, e.staleUntil, e.errorUntil].reduceOption.max?

def remainingStoredTtlMs (clock : Millis) (stored : Stored V) (now : Millis) : Option Millis :=
  match stored with
  | .plain _ => none
  | .envelope e =>
    if isStoredValueEnvelope clock stored then
      (maxExpiry e).map fun expiry => if expiry - now ≤ 0 then 1 else max 1 ⌈expiry - now⌉
    else none

def refreshStoredEnvelope (clock : Millis) (stored : Stored V) (now : Millis) : Stored V :=
  match stored with
  | .plain _ => stored
  | .envelope e =>
    if isStoredValueEnvelope clock stored then
      .envelope (createStoredValueEnvelope e.kind e.value
        ⟨e.freshTtlMs, e.staleWhileRevalidateMs, e.staleIfErrorMs⟩ now)
    else stored

/-- The entry ends its fresh window now, or with the earlier of its stale windows that are over. -/
def expireStoredEnvelope (clock : Millis) (stored : Stored V) (now : Millis) : Stored V :=
  match stored with
  | .plain _ => stored
  | .envelope e =>
    if isStoredValueEnvelope clock stored then
      .envelope { e with
        freshUntil := some ([e.staleUntil, e.errorUntil].reduceOption.foldl min now) }
    else stored

end LayerCache
