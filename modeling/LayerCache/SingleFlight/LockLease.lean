import LayerCache.Transition.Run
import Mathlib.Algebra.Order.Group.Nat
import Mathlib.Data.List.Basic
import Mathlib.Logic.Function.Basic

/-! # The lock of the single-flight coordinator

Clients contend for one key in Redis with a token each. Their commands reach Redis at any later
time, and the key goes when its time is over. Renewal and release compare the token, so only
the client that the key was set for can move its deadline or delete it.
-/

namespace LayerCache

open Transition

/-- The key in Redis. A token stands for its client: no two clients have the same. -/
structure RedisLock (ι : Type) where
  token : ι
  expiresAt : ℕ
deriving DecidableEq

structure SingleFlightLease where
  leaseMs : ℕ
  renewIntervalMs : Option ℕ

def SingleFlightLease.renewEvery (options : SingleFlightLease) : Option ℕ :=
  let renewIntervalMs := options.renewIntervalMs.getD (max 100 (options.leaseMs / 2))
  if renewIntervalMs ≤ 0 ∨ renewIntervalMs ≥ options.leaseMs then none else some renewIntervalMs

/-- What has become of a client's `SET key token PX leaseMs NX`. -/
inductive AcquireState
  | unsent
  | sent
  | granted
  | refused
deriving DecidableEq

inductive ClientPhase
  | idle
  | acquiring
  | working
  | releasing
  | waiting
  | failed
deriving DecidableEq

inductive LockScript (ι : Type)
  | renew (client : ι)
  | release (client : ι)
deriving DecidableEq

/-- `released` and `expired` record what has happened to the lock of a client: its release has
been executed, its time has run out. -/
structure LockContest (ι : Type) where
  now : ℕ
  lock : Option (RedisLock ι)
  acquires : ι → AcquireState
  phases : ι → ClientPhase
  pending : List (LockScript ι)
  released : ι → Bool
  expired : ι → Bool

inductive LockAction (ι : Type)
  | acquire (client : ι)
  /-- Redis executes the `SET` of the client. -/
  | set (client : ι)
  | reply (client : ι)
  /-- The command has timed out for the client. -/
  | giveUp (client : ι)
  /-- The renewal timer of a worker fires. -/
  | renew (client : ι)
  /-- The worker has settled. -/
  | release (client : ι)
  /-- Redis executes a script. -/
  | run (script : LockScript ι)
  | tick (elapsed : ℕ)
deriving DecidableEq

namespace LockContest

variable {ι : Type}

def initial : LockContest ι where
  now := 0
  lock := none
  acquires := fun _ => .unsent
  phases := fun _ => .idle
  pending := []
  released := fun _ => false
  expired := fun _ => false

/-- The client is between a successful acquire and its release, and its lease has not expired. -/
def Holds (s : LockContest ι) (c : ι) : Prop :=
  s.acquires c = .granted ∧ s.released c = false ∧ s.expired c = false

/-- What the steps keep: the token in Redis is that of the client that holds the lock. -/
structure Tokened (s : LockContest ι) : Prop where
  holds_iff : ∀ c, s.Holds c ↔ ∃ expiresAt, s.lock = some ⟨c, expiresAt⟩
  idle : ∀ c, s.phases c = .idle → s.acquires c = .unsent
  working : ∀ c, s.phases c = .working → s.acquires c = .granted
  pending : ∀ c, .release c ∈ s.pending → s.phases c = .releasing
  releasing : ∀ c, s.phases c = .releasing → s.acquires c = .granted
  released : ∀ c, s.released c = true → s.phases c = .releasing
  expired : ∀ c, s.expired c = true → s.acquires c = .granted

theorem tokened_initial : Tokened (initial : LockContest ι) := by
  constructor <;> simp [initial, Holds]

variable [DecidableEq ι]

def holdsToken (lock : Option (RedisLock ι)) (token : ι) : Bool := lock.any (·.token = token)

def releaseScript (lock : Option (RedisLock ι)) (token : ι) : Option (RedisLock ι) :=
  if holdsToken lock token then none else lock

def renewScript (lock : Option (RedisLock ι)) (token : ι) (leaseMs now : ℕ) :
    Option (RedisLock ι) :=
  if holdsToken lock token then some ⟨token, now + leaseMs⟩ else lock

def goTo (s : LockContest ι) (c : ι) (phase : ClientPhase) : LockContest ι :=
  { s with phases := Function.update s.phases c phase }

def answer (s : LockContest ι) (c : ι) (acquire : AcquireState) : LockContest ι :=
  { s with acquires := Function.update s.acquires c acquire }

def act (options : ι → SingleFlightLease) (s : LockContest ι) :
    LockAction ι → Option (LockContest ι)
  | .acquire c =>
    if s.phases c = .idle then some ((s.goTo c .acquiring).answer c .sent) else none
  | .set c =>
    if s.acquires c ≠ .sent then none
    -- an expiry of 0 is an error of the command
    else if s.lock = none ∧ 0 < (options c).leaseMs then
      some { s.answer c .granted with lock := some ⟨c, s.now + (options c).leaseMs⟩ }
    else some (s.answer c .refused)
  | .reply c =>
    if s.phases c ≠ .acquiring then none
    else
      match s.acquires c with
      | .granted => some (s.goTo c .working)
      | .refused => some (s.goTo c (if (options c).leaseMs = 0 then .failed else .waiting))
      | _ => none
  | .giveUp c => if s.phases c = .acquiring then some (s.goTo c .failed) else none
  | .renew c =>
    if s.phases c = .working ∧ (options c).renewEvery.isSome then
      some { s with pending := s.pending ++ [.renew c] }
    else none
  | .release c =>
    if s.phases c = .working then
      some { s.goTo c .releasing with pending := s.pending ++ [.release c] }
    else none
  | .run script =>
    if script ∉ s.pending then none
    else
      let s' := { s with pending := s.pending.erase script }
      match script with
      | .renew c =>
        some { s' with lock := renewScript s.lock c (options c).leaseMs s.now }
      | .release c =>
        some { s' with
          lock := releaseScript s.lock c
          released := Function.update s.released c true }
  | .tick elapsed =>
    let now := s.now + elapsed
    match s.lock with
    | none => some { s with now := now }
    | some lock =>
      if lock.expiresAt < now then
        some { s with
          now := now, lock := none, expired := Function.update s.expired lock.token true }
      else some { s with now := now }

variable {options : ι → SingleFlightLease} {s s' : LockContest ι} {c d : ι}

theorem Tokened.goTo (h : s.Tokened) {phase : ClientPhase} (hold : s.phases c ≠ .releasing)
    (hidle : phase ≠ .idle)
    (hgranted : phase = .working ∨ phase = .releasing → s.acquires c = .granted) :
    (s.goTo c phase).Tokened where
  holds_iff := h.holds_iff
  idle x hx := by
    by_cases hxc : x = c
    · subst hxc
      exact absurd (by simpa [LockContest.goTo] using hx) hidle
    · exact h.idle x (by simpa [LockContest.goTo, hxc] using hx)
  working x hx := by
    by_cases hxc : x = c
    · subst hxc
      exact hgranted (Or.inl (by simpa [LockContest.goTo] using hx))
    · exact h.working x (by simpa [LockContest.goTo, hxc] using hx)
  pending x hx := by
    have hreleasing := h.pending x hx
    have hxc : x ≠ c := fun heq => hold (heq ▸ hreleasing)
    simpa [LockContest.goTo, hxc] using hreleasing
  releasing x hx := by
    by_cases hxc : x = c
    · subst hxc
      exact hgranted (Or.inr (by simpa [LockContest.goTo] using hx))
    · exact h.releasing x (by simpa [LockContest.goTo, hxc] using hx)
  released x hx := by
    have hreleasing := h.released x hx
    have hxc : x ≠ c := fun heq => hold (heq ▸ hreleasing)
    simpa [LockContest.goTo, hxc] using hreleasing
  expired := h.expired

theorem Tokened.answer (h : s.Tokened) {acquire : AcquireState} (hold : s.acquires c ≠ .granted)
    (hnew : acquire ≠ .granted) (hphase : s.phases c ≠ .idle) : (s.answer c acquire).Tokened := by
  have hiff : ∀ x, (s.answer c acquire).acquires x = .granted ↔ s.acquires x = .granted := by
    intro x
    by_cases hxc : x = c
    · subst hxc
      simp [LockContest.answer, hold, hnew]
    · simp [LockContest.answer, hxc]
  constructor
  · intro x
    rw [Holds, hiff]
    exact h.holds_iff x
  · intro x hx
    have hxc : x ≠ c := fun heq => hphase (heq ▸ hx)
    simpa [LockContest.answer, hxc] using h.idle x hx
  · exact fun x hx => (hiff x).mpr (h.working x hx)
  · exact h.pending
  · exact fun x hx => (hiff x).mpr (h.releasing x hx)
  · exact h.released
  · exact fun x hx => (hiff x).mpr (h.expired x hx)

theorem Tokened.grant (h : s.Tokened) (hsent : s.acquires c = .sent) (hlock : s.lock = none)
    (expiresAt : ℕ) :
    Tokened { s.answer c .granted with lock := some ⟨c, expiresAt⟩ } := by
  have hmono : ∀ x, s.acquires x = .granted → (s.answer c .granted).acquires x = .granted := by
    intro x hx
    by_cases hxc : x = c
    · subst hxc
      simp [LockContest.answer]
    · simpa [LockContest.answer, hxc] using hx
  have hne : s.acquires c ≠ .granted := by simp [hsent]
  have hreleased : s.released c = false := by
    by_contra hr
    exact hne (h.releasing c (h.released c (by simpa using hr)))
  have hexpired : s.expired c = false := by
    by_contra he
    exact hne (h.expired c (by simpa using he))
  constructor
  · intro x
    by_cases hxc : x = c
    · subst hxc
      simp [Holds, LockContest.answer, hreleased, hexpired]
    · have hnone : ¬ s.Holds x := by
        rw [h.holds_iff, hlock]
        simp
      constructor
      · intro hx
        exact absurd (by simpa [Holds, LockContest.answer, hxc] using hx) hnone
      · rintro ⟨t, ht⟩
        simp only [Option.some.injEq, RedisLock.mk.injEq] at ht
        exact absurd ht.1.symm hxc
  · intro x hx
    have hxc : x ≠ c := by
      rintro rfl
      have hunsent := h.idle x hx
      rw [hsent] at hunsent
      cases hunsent
    simpa [LockContest.answer, hxc] using h.idle x hx
  · exact fun x hx => hmono x (h.working x hx)
  · exact h.pending
  · exact fun x hx => hmono x (h.releasing x hx)
  · exact h.released
  · exact fun x hx => hmono x (h.expired x hx)

theorem holdsToken_iff {lock : Option (RedisLock ι)} :
    holdsToken lock c = true ↔ ∃ expiresAt, lock = some ⟨c, expiresAt⟩ := by
  cases lock with
  | none => simp [holdsToken]
  | some lock =>
    obtain ⟨token, expiresAt⟩ := lock
    simp [holdsToken]

theorem renewScript_token (lock : Option (RedisLock ι)) (leaseMs now : ℕ) :
    (∃ expiresAt, renewScript lock c leaseMs now = some ⟨d, expiresAt⟩) ↔
      ∃ expiresAt, lock = some ⟨d, expiresAt⟩ := by
  rw [renewScript]
  split
  case isFalse => rfl
  case isTrue htoken =>
    obtain ⟨expiresAt, rfl⟩ := holdsToken_iff.mp htoken
    simp

theorem Tokened.release (h : s.Tokened) (hpending : .release c ∈ s.pending) :
    Tokened { s with
      pending := s.pending.erase (.release c)
      lock := releaseScript s.lock c
      released := Function.update s.released c true } where
  holds_iff x := by
    by_cases hxc : x = c
    · subst hxc
      have hgone : ¬ ∃ expiresAt, releaseScript s.lock x = some ⟨x, expiresAt⟩ := by
        rintro ⟨expiresAt, hlock⟩
        rw [releaseScript] at hlock
        split at hlock
        case isTrue => cases hlock
        case isFalse htoken => exact htoken (holdsToken_iff.mpr ⟨expiresAt, hlock⟩)
      exact iff_of_false (by simp [Holds]) hgone
    · have hlock : (∃ expiresAt, releaseScript s.lock c = some ⟨x, expiresAt⟩) ↔
          ∃ expiresAt, s.lock = some ⟨x, expiresAt⟩ := by
        rw [releaseScript]
        split
        case isFalse => rfl
        case isTrue htoken =>
          obtain ⟨expiresAt, hcur⟩ := holdsToken_iff.mp htoken
          simp [hcur, Ne.symm hxc]
      rw [hlock, ← h.holds_iff x]
      simp [Holds, hxc]
  idle := h.idle
  working := h.working
  pending x hx := h.pending x (List.mem_of_mem_erase hx)
  releasing := h.releasing
  released x hx := by
    by_cases hxc : x = c
    · exact hxc ▸ h.pending c hpending
    · exact h.released x (by simpa [hxc] using hx)
  expired := h.expired

theorem Tokened.expire (h : s.Tokened) {lock : RedisLock ι} (hlock : s.lock = some lock)
    (now : ℕ) :
    Tokened { s with
      now := now
      lock := none
      expired := Function.update s.expired lock.token true } where
  holds_iff x := by
    have hgone : ¬ ∃ expiresAt, (none : Option (RedisLock ι)) = some ⟨x, expiresAt⟩ := by simp
    refine iff_of_false ?_ hgone
    by_cases hx : x = lock.token
    · simp [Holds, hx]
    · have hnot : ¬ s.Holds x := by
        rw [h.holds_iff, hlock]
        rintro ⟨expiresAt, heq⟩
        exact hx (congrArg RedisLock.token (Option.some.inj heq)).symm
      simpa [Holds, hx] using hnot
  idle := h.idle
  working := h.working
  pending := h.pending
  releasing := h.releasing
  released := h.released
  expired x hx := by
    by_cases hxt : x = lock.token
    · exact ((h.holds_iff x).mpr ⟨lock.expiresAt, by rw [hlock, hxt]⟩).1
    · exact h.expired x (by simpa [hxt] using hx)

theorem Tokened.step (h : s.Tokened) {a : LockAction ι} (hs : s.act options a = some s') :
    s'.Tokened := by
  cases a with
  | acquire c =>
    simp only [act, Option.ite_none_right_eq_some, Option.some.injEq] at hs
    obtain ⟨hidle, rfl⟩ := hs
    have hunsent := h.idle c hidle
    have hgo : (s.goTo c .acquiring).Tokened := by
      apply h.goTo
      · simp [hidle]
      · simp
      · simp
    apply hgo.answer
    · simp [LockContest.goTo, hunsent]
    · simp
    · simp [LockContest.goTo]
  | set c =>
    simp only [act] at hs
    split at hs
    case isTrue => cases hs
    case isFalse hsent =>
      rw [ne_eq, not_not] at hsent
      split at hs
      case isTrue hfree =>
        cases hs
        exact h.grant hsent hfree.1 _
      case isFalse =>
        cases hs
        apply h.answer
        · simp [hsent]
        · simp
        · intro hidle
          rw [h.idle c hidle] at hsent
          cases hsent
  | reply c =>
    simp only [act] at hs
    split at hs
    case isTrue => cases hs
    case isFalse hacquiring =>
      rw [ne_eq, not_not] at hacquiring
      have hold : s.phases c ≠ .releasing := by simp [hacquiring]
      split at hs
      case h_1 hgranted =>
        cases hs
        exact h.goTo hold (by simp) fun _ => hgranted
      case h_2 =>
        cases hs
        apply h.goTo hold
        · split <;> simp
        · split <;> simp
      case h_3 => cases hs
  | giveUp c =>
    simp only [act, Option.ite_none_right_eq_some, Option.some.injEq] at hs
    obtain ⟨hacquiring, rfl⟩ := hs
    exact h.goTo (by simp [hacquiring]) (by simp) (by simp)
  | renew c =>
    simp only [act, Option.ite_none_right_eq_some, Option.some.injEq] at hs
    obtain ⟨-, rfl⟩ := hs
    exact { h with pending := fun x hx => h.pending x (by simpa using hx) }
  | release c =>
    simp only [act, Option.ite_none_right_eq_some, Option.some.injEq] at hs
    obtain ⟨hworking, rfl⟩ := hs
    have hgo : (s.goTo c .releasing).Tokened := by
      apply h.goTo
      · simp [hworking]
      · simp
      · exact fun _ => h.working c hworking
    refine { hgo with pending := fun x hx => ?_ }
    rcases List.mem_append.mp hx with hx | hx
    · exact hgo.pending x hx
    · rw [List.mem_singleton, LockScript.release.injEq] at hx
      simp [LockContest.goTo, hx]
  | run script =>
    simp only [act] at hs
    split at hs
    case isTrue => cases hs
    case isFalse hmem =>
      rw [not_not] at hmem
      cases script with
      | renew c =>
        cases hs
        exact { h with
          holds_iff := fun x => (h.holds_iff x).trans (renewScript_token _ _ _).symm
          pending := fun x hx => h.pending x (List.mem_of_mem_erase hx) }
      | release c =>
        cases hs
        exact h.release hmem
  | tick elapsed =>
    simp only [act] at hs
    split at hs
    case h_1 =>
      cases hs
      exact { h with }
    case h_2 lock hlock =>
      split at hs
      case isTrue =>
        cases hs
        exact h.expire hlock _
      case isFalse =>
        cases hs
        exact { h with }

/-- The lock is that of the one client that holds it, and workers overlap only past a lease. -/
structure Safe (options : ι → SingleFlightLease) (s : LockContest ι) : Prop where
  one_holder : ∀ c d, s.Holds c → s.Holds d → c = d
  stored : ∀ c, s.Holds c → ∃ expiresAt, s.lock = some ⟨c, expiresAt⟩
  untouched : ∀ c expiresAt script s', s.lock = some ⟨c, expiresAt⟩ →
    script ≠ .renew c → script ≠ .release c → s.act options (.run script) = some s' →
      s'.lock = s.lock
  overlap : ∀ c d, s.phases c = .working → s.phases d = .working → c ≠ d →
    s.expired c = true ∨ s.expired d = true

theorem untouched {script : LockScript ι} {expiresAt : ℕ} (hlock : s.lock = some ⟨c, expiresAt⟩)
    (hrenew : script ≠ .renew c) (hrelease : script ≠ .release c)
    (hs : s.act options (.run script) = some s') : s'.lock = s.lock := by
  have hother : ∀ d, d ≠ c → holdsToken s.lock d = false := by
    intro d hd
    rw [hlock, holdsToken]
    simpa using Ne.symm hd
  simp only [act] at hs
  split at hs
  case isTrue => cases hs
  case isFalse =>
    cases script with
    | renew d =>
      cases hs
      have hd : d ≠ c := by
        rintro rfl
        exact hrenew rfl
      simp [renewScript, hother d hd]
    | release d =>
      cases hs
      have hd : d ≠ c := by
        rintro rfl
        exact hrelease rfl
      simp [releaseScript, hother d hd]

/-- In every run of acquisitions, renewals, releases and expiries, however late the commands. -/
theorem safe (hrun : Reaches (act options) (fun _ _ => True) initial s) : s.Safe options := by
  have h : s.Tokened :=
    Reaches.invariant (P := Tokened) hrun (fun _ _ _ h _ hs => h.step hs) tokened_initial
  have hone : ∀ c d, s.Holds c → s.Holds d → c = d := by
    intro c d hc hd
    obtain ⟨t, ht⟩ := (h.holds_iff c).mp hc
    obtain ⟨t', ht'⟩ := (h.holds_iff d).mp hd
    rw [ht, Option.some.injEq] at ht'
    exact congrArg RedisLock.token ht'
  constructor
  · exact hone
  · exact fun c hc => (h.holds_iff c).mp hc
  · exact fun c t script s' hlock hrenew hrelease hs => untouched hlock hrenew hrelease hs
  · intro c d hc hd hne
    have hreleased : ∀ x, s.phases x = .working → s.released x = false := by
      intro x hx
      by_contra hr
      have hreleasing := h.released x (by simpa using hr)
      rw [hx] at hreleasing
      cases hreleasing
    by_contra hlive
    rw [not_or, Bool.not_eq_true, Bool.not_eq_true] at hlive
    exact hne (hone c d ⟨h.working c hc, hreleased c hc, hlive.1⟩
      ⟨h.working d hd, hreleased d hd, hlive.2⟩)

theorem safe_overlapping :
    ∃ s ∈ run (act fun _ : ℕ => ⟨10, none⟩) initial [.acquire 0, .set 0, .reply 0, .tick 11,
        .acquire 1, .set 1, .reply 1, .release 0, .run (.release 0)],
      s.lock = some ⟨1, 21⟩ ∧ s.Safe fun _ => ⟨10, none⟩ := by
  obtain ⟨s, hs, hlock⟩ : ∃ s ∈ run (act fun _ : ℕ => ⟨10, none⟩) initial [.acquire 0, .set 0,
      .reply 0, .tick 11, .acquire 1, .set 1, .reply 1, .release 0, .run (.release 0)],
      s.lock = some ⟨1, 21⟩ := by decide +kernel
  have hrun := reaches_of_run (fun _ _ => True) hs (by decide +kernel)
  exact ⟨s, hs, hlock, safe hrun⟩

end LockContest

end LayerCache
