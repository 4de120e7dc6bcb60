import LayerCache.Collections.Counting
import LayerCache.Transition.Run

/-! # The stampede guard

Calls for one key share the task in flight. A call that waits too long detaches the task from
its key, and a new one can start beside it. The guard counts tasks until they settle, detached
ones too, and forgets a key with the last call or the task, whichever comes last.
-/

namespace LayerCache

open Transition

structure StampedeGuardOptions where
  maxInFlight : ℕ := 10000
  /-- Whether calls wait for a limited time only. -/
  entryTimeout : Bool := false

structure InFlightEntry (K : Type) where
  key : K
  references : ℕ
  settled : Bool
  timedOut : Bool
deriving DecidableEq

inductive ExecutePhase
  | waiting
  | rejected
  | returned
deriving DecidableEq

/-- A call of `execute` that waits for an entry, or has waited. -/
structure GuardedCall where
  entry : ℕ
  phase : ExecutePhase
deriving DecidableEq

/-- Calls and the entries that they create are numbered by the step of the call. -/
structure StampedeGuard (K : Type) where
  clock : ℕ
  entries : ℕ → Option (InFlightEntry K)
  calls : ℕ → Option GuardedCall
  inFlight : K → Option ℕ
  activeTasks : ℕ

inductive GuardAction (K : Type)
  | execute (key : K)
  | settle (entry : ℕ)
  /-- The timer of a call fires. -/
  | timeout (call : ℕ)
  /-- The call leaves, with the result of its task or with the timeout. -/
  | leave (call : ℕ)
  | releaseTimedOut (key : K)
deriving DecidableEq

namespace StampedeGuard

variable {K : Type}

def initial : StampedeGuard K where
  clock := 0
  entries := fun _ => none
  calls := fun _ => none
  inFlight := fun _ => none
  activeTasks := 0

def putEntry (s : StampedeGuard K) (e : ℕ) (entry : InFlightEntry K) : StampedeGuard K :=
  { s with entries := Function.update s.entries e (some entry) }

def putCall (s : StampedeGuard K) (c : ℕ) (call : GuardedCall) : StampedeGuard K :=
  { s with calls := Function.update s.calls c (some call) }

section

variable [DecidableEq K]

def removeKey (s : StampedeGuard K) (key : K) : StampedeGuard K :=
  { s with inFlight := Function.update s.inFlight key none }

/-- A call for a new key is rejected where the guard is at its limit. -/
def execute (options : StampedeGuardOptions) (s : StampedeGuard K) (key : K) :
    Option (StampedeGuard K) :=
  match s.inFlight key with
  | some e => (s.entries e).map fun existing =>
    (s.putEntry e { existing with references := existing.references + 1 }).putCall s.clock
      ⟨e, .waiting⟩
  | none =>
    if s.activeTasks ≥ options.maxInFlight then some s
    else
      let s' := (s.putEntry s.clock ⟨key, 1, false, false⟩).putCall s.clock ⟨s.clock, .waiting⟩
      some { s' with
        activeTasks := s.activeTasks + 1
        inFlight := Function.update s.inFlight key (some s.clock) }

def settleEntry (s : StampedeGuard K) (e : ℕ) : Option (StampedeGuard K) :=
  (s.entries e).bind fun entry =>
    if entry.settled then none
    else
      let s' := { s.putEntry e { entry with settled := true } with
        activeTasks := s.activeTasks - 1 }
      some (if entry.references = 0 ∧ s.inFlight entry.key = some e then s'.removeKey entry.key
        else s')

def releaseTimedOut (s : StampedeGuard K) (key : K) : StampedeGuard K :=
  match s.inFlight key with
  | none => s
  | some e =>
    match s.entries e with
    | some entry =>
      if entry.timedOut then s
      else (s.putEntry e { entry with timedOut := true }).removeKey key
    | none => s

/-- The entry is released where it is still the one of its key. -/
def timeout (options : StampedeGuardOptions) (s : StampedeGuard K) (c : ℕ) :
    Option (StampedeGuard K) :=
  (s.calls c).bind fun call =>
    (s.entries call.entry).bind fun entry =>
      if options.entryTimeout ∧ call.phase = .waiting then
        let s' := if s.inFlight entry.key = some call.entry then s.releaseTimedOut entry.key else s
        some (s'.putCall c { call with phase := .rejected })
      else none

def releaseEntry (s : StampedeGuard K) (e : ℕ) (entry : InFlightEntry K) : StampedeGuard K :=
  let s' := s.putEntry e { entry with references := entry.references - 1 }
  if s.inFlight entry.key = some e ∧ entry.references - 1 = 0 ∧ entry.settled then
    s'.removeKey entry.key
  else s'

def leave (s : StampedeGuard K) (c : ℕ) : Option (StampedeGuard K) :=
  (s.calls c).bind fun call =>
    (s.entries call.entry).bind fun entry =>
      if call.phase = .rejected ∨ call.phase = .waiting ∧ entry.settled then
        some ((s.releaseEntry call.entry entry).putCall c { call with phase := .returned })
      else none

def act (options : StampedeGuardOptions) (s : StampedeGuard K) :
    GuardAction K → Option (StampedeGuard K)
  | .execute key => s.execute options key
  | .settle e => s.settleEntry e
  | .timeout c => s.timeout options c
  | .leave c => s.leave c
  | .releaseTimedOut key => some (s.releaseTimedOut key)

def step (options : StampedeGuardOptions) (s : StampedeGuard K) (a : GuardAction K) :
    Option (StampedeGuard K) :=
  (s.act options a).map fun s' => { s' with clock := s.clock + 1 }

end

def unsettled (entry : Option (InFlightEntry K)) : ℕ := if entry.any (!·.settled) then 1 else 0

def refersTo (e : ℕ) (call : Option GuardedCall) : ℕ :=
  if call.any fun call => call.entry = e ∧ call.phase ≠ .returned then 1 else 0

/-- The tasks that have been admitted and have not settled. -/
def unsettledTasks (s : StampedeGuard K) : ℕ := Counting.total s.clock s.entries unsettled

/-- What the steps keep, with entries and calls numbered below `n`. An entry in the map has not
timed out and is not done with, and a task under way that has not timed out is in the map. -/
structure Accounted (options : StampedeGuardOptions) (n : ℕ) (s : StampedeGuard K) : Prop where
  entry_lt : ∀ e entry, s.entries e = some entry → e < n
  call_lt : ∀ c call, s.calls c = some call → c < n
  call_entry : ∀ c call, s.calls c = some call → (s.entries call.entry).isSome
  active_eq : s.activeTasks = Counting.total n s.entries unsettled
  active_le : s.activeTasks ≤ options.maxInFlight
  current : ∀ k e, s.inFlight k = some e → ∃ entry, s.entries e = some entry ∧ entry.key = k ∧
    entry.timedOut = false ∧ ¬ (entry.settled = true ∧ entry.references = 0)
  listed : ∀ e entry, s.entries e = some entry → entry.settled = false → entry.timedOut = false →
    s.inFlight entry.key = some e
  references_eq : ∀ e entry, s.entries e = some entry →
    entry.references = Counting.total n s.calls (refersTo e)

variable {options : StampedeGuardOptions} {s s' : StampedeGuard K} {n e c : ℕ}
  {entry entry' : InFlightEntry K} {key : K}

theorem accounted_initial : Accounted options 0 (initial : StampedeGuard K) := by
  constructor <;> simp [initial, Counting.total]

theorem Accounted.entries_clock (h : s.Accounted options n) : s.entries n = none := by
  cases hn : s.entries n with
  | none => rfl
  | some entry => exact absurd (h.entry_lt n entry hn) (lt_irrefl n)

theorem Accounted.calls_clock (h : s.Accounted options n) : s.calls n = none := by
  cases hn : s.calls n with
  | none => rfl
  | some call => exact absurd (h.call_lt n call hn) (lt_irrefl n)

theorem Accounted.succ (h : s.Accounted options n) : s.Accounted options (n + 1) := by
  have hentry := h.entries_clock
  have hcall := h.calls_clock
  exact {
    h with
    entry_lt := fun e entry he => (h.entry_lt e entry he).trans (Nat.lt_succ_self n)
    call_lt := fun c call hc => (h.call_lt c call hc).trans (Nat.lt_succ_self n)
    active_eq := by
      rw [h.active_eq, Counting.total_succ, hentry]
      rfl
    references_eq := fun e entry he => by
      rw [h.references_eq e entry he, Counting.total_succ, hcall]
      rfl }

/-- What a step may do to one entry, to the calls and to the map. -/
structure Change (options : StampedeGuardOptions) (n : ℕ) (s s' : StampedeGuard K) (e : ℕ)
    (entry entry' : InFlightEntry K) : Prop where
  entries_eq : s'.entries = Function.update s.entries e (some entry')
  key_eq : entry'.key = entry.key
  active_eq : s'.activeTasks + unsettled (some entry) = s.activeTasks + unsettled (some entry')
  active_le : s'.activeTasks ≤ options.maxInFlight
  calls : ∀ c call, s'.calls c = some call → c < n ∧
    (call.entry = e ∨ ∃ old, s.calls c = some old ∧ old.entry = call.entry)
  references_eq : entry'.references = Counting.total n s'.calls (refersTo e)
  others : ∀ x, x ≠ e → Counting.total n s'.calls (refersTo x) =
    Counting.total n s.calls (refersTo x)
  inFlight_of_ne : ∀ k, k ≠ entry.key → s'.inFlight k = s.inFlight k
  inFlight_key : s'.inFlight entry.key = s.inFlight entry.key ∨
    s.inFlight entry.key = some e ∧ s'.inFlight entry.key = none
  current : s'.inFlight entry.key = some e →
    entry'.timedOut = false ∧ ¬ (entry'.settled = true ∧ entry'.references = 0)
  listed : entry'.settled = false → entry'.timedOut = false → s'.inFlight entry.key = some e

theorem Accounted.change (h : s.Accounted options n) (he : s.entries e = some entry)
    (hc : Change options n s s' e entry entry') : s'.Accounted options n := by
  have hentries : ∀ x other, s'.entries x = some other →
      x = e ∧ other = entry' ∨ x ≠ e ∧ s.entries x = some other := by
    intro x other hx
    rw [hc.entries_eq] at hx
    by_cases hxe : x = e
    · subst hxe
      rw [Function.update_self, Option.some.injEq] at hx
      exact Or.inl ⟨rfl, hx.symm⟩
    · rw [Function.update_of_ne hxe] at hx
      exact Or.inr ⟨hxe, hx⟩
  have hself : s'.entries e = some entry' := by rw [hc.entries_eq, Function.update_self]
  have hother : ∀ x, x ≠ e → s'.entries x = s.entries x := by
    intro x hx
    rw [hc.entries_eq, Function.update_of_ne hx]
  constructor
  · intro x other hx
    rcases hentries x other hx with ⟨rfl, -⟩ | ⟨-, hold⟩
    · exact h.entry_lt x entry he
    · exact h.entry_lt x other hold
  · exact fun c call hcall => (hc.calls c call hcall).1
  · intro c call hcall
    by_cases hce : call.entry = e
    · rw [hce, hself]
      rfl
    · obtain ⟨old, hold, heq⟩ := (hc.calls c call hcall).2.resolve_left hce
      rw [hother _ hce, ← heq]
      exact h.call_entry c old hold
  · have htotal := Counting.total_update (h.entry_lt e entry he) s.entries (some entry') unsettled
    have hactive := hc.active_eq
    rw [h.active_eq] at hactive
    rw [he] at htotal
    rw [hc.entries_eq]
    omega
  · exact hc.active_le
  · intro k x hk
    by_cases hkey : k = entry.key
    · subst hkey
      rcases hc.inFlight_key with hsame | ⟨-, hnone⟩
      · by_cases hx : x = e
        · subst hx
          obtain ⟨htimed, hdone⟩ := hc.current hk
          exact ⟨entry', hself, hc.key_eq, htimed, hdone⟩
        · rw [hother x hx]
          exact h.current _ x (hsame ▸ hk)
      · rw [hnone] at hk
        cases hk
    · rw [hc.inFlight_of_ne k hkey] at hk
      have hx : x ≠ e := by
        rintro rfl
        obtain ⟨other, hx, hother, -⟩ := h.current k x hk
        rw [he, Option.some.injEq] at hx
        exact hkey (hx ▸ hother.symm)
      rw [hother x hx]
      exact h.current k x hk
  · intro x other hx hsettled htimed
    rcases hentries x other hx with ⟨rfl, rfl⟩ | ⟨hxe, hold⟩
    · rw [hc.key_eq]
      exact hc.listed hsettled htimed
    · have hlisted := h.listed x other hold hsettled htimed
      by_cases hkey : other.key = entry.key
      · rcases hc.inFlight_key with hsame | ⟨hcur, -⟩
        · rw [hkey, hsame, ← hkey]
          exact hlisted
        · rw [hkey, hcur, Option.some.injEq] at hlisted
          exact absurd hlisted.symm hxe
      · rw [hc.inFlight_of_ne _ hkey]
        exact hlisted
  · intro x other hx
    rcases hentries x other hx with ⟨rfl, rfl⟩ | ⟨hxe, hold⟩
    · exact hc.references_eq
    · rw [hc.others x hxe]
      exact h.references_eq x other hold

theorem refersTo_some (x : ℕ) (call : GuardedCall) :
    refersTo x (some call) = if call.entry = x ∧ call.phase ≠ .returned then 1 else 0 := by
  simp [refersTo]

theorem unsettled_some (entry : InFlightEntry K) :
    unsettled (some entry) = if entry.settled then 0 else 1 := by
  cases h : entry.settled <;> simp [unsettled, h]

theorem total_putCall_of_ne {call : GuardedCall} {old : Option GuardedCall} (hlt : c < n)
    (hold : s.calls c = old) (hentry : ∀ other ∈ old, other.entry = call.entry) {x : ℕ}
    (hx : x ≠ call.entry) :
    Counting.total n (Function.update s.calls c (some call)) (refersTo x) =
      Counting.total n s.calls (refersTo x) := by
  have htotal := Counting.total_update hlt s.calls (some call) (refersTo x)
  have hnew : refersTo x (some call) = 0 := by
    rw [refersTo_some, if_neg fun h => hx h.1.symm]
  have hzero : refersTo x old = 0 := by
    cases old with
    | none => rfl
    | some other => rw [refersTo_some, if_neg fun h => hx ((hentry other rfl).symm.trans h.1).symm]
  rw [hold] at htotal
  omega

theorem Accounted.putCall (h : s.Accounted options n) {call : GuardedCall}
    (hcall : s.calls c = some call) (hphase : call.phase ≠ .returned) {phase : ExecutePhase}
    (hphase' : phase ≠ .returned) :
    (s.putCall c { call with phase := phase }).Accounted options n := by
  have hlt := h.call_lt c call hcall
  have hsame : ∀ x, Counting.total n
      (Function.update s.calls c (some { call with phase := phase })) (refersTo x) =
        Counting.total n s.calls (refersTo x) := by
    intro x
    have htotal := Counting.total_update hlt s.calls (some { call with phase := phase })
      (refersTo x)
    rw [hcall, refersTo_some, refersTo_some] at htotal
    simp only [hphase, hphase', ne_eq, not_false_eq_true, and_true] at htotal
    omega
  exact {
    h with
    call_lt := fun d other hd => by
      by_cases hdc : d = c
      · exact hdc ▸ hlt
      · exact h.call_lt d other (by simpa [StampedeGuard.putCall, hdc] using hd)
    call_entry := fun d other hd => by
      by_cases hdc : d = c
      · subst hdc
        simp only [StampedeGuard.putCall, Function.update_self, Option.some.injEq] at hd
        subst hd
        exact h.call_entry d call hcall
      · exact h.call_entry d other (by simpa [StampedeGuard.putCall, hdc] using hd)
    references_eq := fun e entry he => (h.references_eq e entry he).trans (hsame e).symm }

theorem Accounted.join (h : s.Accounted options s.clock) (he : s.entries e = some entry) :
    ((s.putEntry e { entry with references := entry.references + 1 }).putCall s.clock
      ⟨e, .waiting⟩).Accounted options (s.clock + 1) := by
  have hsucc := h.succ
  have hlt : s.clock < s.clock + 1 := Nat.lt_succ_self _
  have hfree := h.calls_clock
  have htotal := Counting.total_update hlt s.calls (some ⟨e, .waiting⟩) (refersTo e)
  rw [hfree, refersTo_some, if_pos ⟨rfl, by simp⟩] at htotal
  have hnone : refersTo e none = 0 := rfl
  have hreferences : entry.references + 1 = Counting.total (s.clock + 1)
      (Function.update s.calls s.clock (some ⟨e, .waiting⟩)) (refersTo e) := by
    rw [hsucc.references_eq e entry he]
    omega
  have hchange : Change options (s.clock + 1) s
      ((s.putEntry e { entry with references := entry.references + 1 }).putCall s.clock
        ⟨e, .waiting⟩) e entry { entry with references := entry.references + 1 } := {
    entries_eq := rfl
    key_eq := rfl
    active_eq := rfl
    active_le := h.active_le
    calls := fun d other hd => by
      by_cases hdc : d = s.clock
      · subst hdc
        simp only [StampedeGuard.putCall, Function.update_self, Option.some.injEq] at hd
        subst hd
        exact ⟨hlt, Or.inl rfl⟩
      · have hold : s.calls d = some other := by
          simpa [StampedeGuard.putCall, StampedeGuard.putEntry, hdc] using hd
        exact ⟨hsucc.call_lt d other hold, Or.inr ⟨other, hold, rfl⟩⟩
    references_eq := hreferences
    others := fun x hx => total_putCall_of_ne hlt hfree (by rintro other ⟨⟩) hx
    inFlight_of_ne := fun _ _ => rfl
    inFlight_key := Or.inl rfl
    current := fun hk => by
      obtain ⟨other, hother, -, htimed, -⟩ := h.current _ e hk
      rw [he, Option.some.injEq] at hother
      subst hother
      exact ⟨htimed, fun hzero => Nat.succ_ne_zero _ hzero.2⟩
    listed := fun hsettled htimed => h.listed e entry he hsettled htimed }
  exact hsucc.change he hchange

theorem Accounted.at_rest (h : s.Accounted options n)
    (hsettled : ∀ e entry, s.entries e = some entry → entry.settled = true)
    (hreturned : ∀ c call, s.calls c = some call → call.phase = .returned) :
    (∀ k, s.inFlight k = none) ∧ s.activeTasks = 0 := by
  constructor
  · intro k
    by_contra hne
    obtain ⟨e, hk⟩ := Option.ne_none_iff_exists'.mp hne
    obtain ⟨entry, he, -, -, hopen⟩ := h.current k e hk
    refine hopen ⟨hsettled e entry he, ?_⟩
    rw [h.references_eq e entry he]
    apply Counting.total_eq_zero
    intro c _
    cases hc : s.calls c with
    | none => rfl
    | some call => rw [refersTo_some, if_neg fun hcall => hcall.2 (hreturned c call hc)]
  · rw [h.active_eq]
    apply Counting.total_eq_zero
    intro e _
    cases he : s.entries e with
    | none => rfl
    | some entry => rw [unsettled_some, if_pos (hsettled e entry he)]

section Steps

variable [DecidableEq K]

@[simp]
theorem inFlight_removeKey : (s.removeKey key).inFlight key = none := Function.update_self ..

theorem inFlight_removeKey_of_ne {k : K} (hk : k ≠ key) :
    (s.removeKey key).inFlight k = s.inFlight k :=
  Function.update_of_ne hk _ _

theorem Accounted.settleEntry (h : s.Accounted options n) (hs : s.settleEntry e = some s') :
    s'.Accounted options n := by
  rw [StampedeGuard.settleEntry, Option.bind_eq_some_iff] at hs
  obtain ⟨entry, he, hs⟩ := hs
  split at hs
  case isTrue => cases hs
  case isFalse hsettled =>
    rw [Option.some.injEq] at hs
    have hfree : entry.settled = false := by simpa using hsettled
    have hpos : 1 ≤ s.activeTasks := by
      have hone : unsettled (s.entries e) ≤ Counting.total n s.entries unsettled :=
        Counting.le_total (h.entry_lt e entry he) unsettled
      rw [he, unsettled_some, hfree] at hone
      rw [h.active_eq]
      exact hone
    have hle := h.active_le
    have hactive : s.activeTasks - 1 + unsettled (some entry) =
        s.activeTasks + unsettled (some { entry with settled := true }) := by
      simp only [unsettled_some, hfree, Bool.false_eq_true, if_false, if_true]
      omega
    have hcalls : ∀ c call, s.calls c = some call → c < n ∧
        (call.entry = e ∨ ∃ old, s.calls c = some old ∧ old.entry = call.entry) :=
      fun c call hc => ⟨h.call_lt c call hc, Or.inr ⟨call, hc, rfl⟩⟩
    have hchange : Change options n s s' e entry { entry with settled := true } := by
      subst hs
      split
      case isTrue hdone =>
        exact {
          entries_eq := rfl
          key_eq := rfl
          active_eq := hactive
          active_le := (Nat.sub_le _ _).trans hle
          calls := hcalls
          references_eq := h.references_eq e entry he
          others := fun _ _ => rfl
          inFlight_of_ne := fun k hk => inFlight_removeKey_of_ne hk
          inFlight_key := Or.inr ⟨hdone.2, inFlight_removeKey⟩
          current := fun hk => by
            rw [inFlight_removeKey] at hk
            cases hk
          listed := nofun }
      case isFalse hdone =>
        exact {
          entries_eq := rfl
          key_eq := rfl
          active_eq := hactive
          active_le := (Nat.sub_le _ _).trans hle
          calls := hcalls
          references_eq := h.references_eq e entry he
          others := fun _ _ => rfl
          inFlight_of_ne := fun _ _ => rfl
          inFlight_key := Or.inl rfl
          current := fun hk => by
            obtain ⟨other, hother, -, htimed, -⟩ := h.current _ e hk
            rw [he, Option.some.injEq] at hother
            subst hother
            exact ⟨htimed, fun hzero => hdone ⟨hzero.2, hk⟩⟩
          listed := nofun }
    exact h.change he hchange

theorem Accounted.releaseTimedOut (h : s.Accounted options n) (key : K) :
    (s.releaseTimedOut key).Accounted options n := by
  rw [StampedeGuard.releaseTimedOut]
  split
  case h_1 => exact h
  case h_2 e hcur =>
    split
    case h_2 => exact h
    case h_1 entry he =>
      split
      case isTrue => exact h
      case isFalse =>
        obtain ⟨other, hsome, hkey, -⟩ := h.current key e hcur
        rw [he, Option.some.injEq] at hsome
        subst hsome
        subst hkey
        have hchange : Change options n s
            ((s.putEntry e { entry with timedOut := true }).removeKey entry.key) e entry
            { entry with timedOut := true } := {
          entries_eq := rfl
          key_eq := rfl
          active_eq := rfl
          active_le := h.active_le
          calls := fun c call hc => ⟨h.call_lt c call hc, Or.inr ⟨call, hc, rfl⟩⟩
          references_eq := h.references_eq e entry he
          others := fun _ _ => rfl
          inFlight_of_ne := fun k hk => inFlight_removeKey_of_ne hk
          inFlight_key := Or.inr ⟨hcur, inFlight_removeKey⟩
          current := fun hk => by
            rw [inFlight_removeKey] at hk
            cases hk
          listed := nofun }
        exact h.change he hchange

theorem calls_releaseTimedOut (s : StampedeGuard K) (key : K) :
    (s.releaseTimedOut key).calls = s.calls := by
  rw [StampedeGuard.releaseTimedOut]
  split
  · rfl
  · split
    · split <;> rfl
    · rfl

theorem Accounted.timeout (h : s.Accounted options n) (hs : s.timeout options c = some s') :
    s'.Accounted options n := by
  rw [StampedeGuard.timeout, Option.bind_eq_some_iff] at hs
  obtain ⟨call, hcall, hs⟩ := hs
  rw [Option.bind_eq_some_iff] at hs
  obtain ⟨entry, he, hs⟩ := hs
  split at hs
  case isFalse => cases hs
  case isTrue hwaiting =>
    cases hs
    have hphase : call.phase ≠ .returned := by simp [hwaiting.2]
    split
    · apply (h.releaseTimedOut entry.key).putCall (by rw [calls_releaseTimedOut, hcall]) hphase
      simp
    · apply h.putCall hcall hphase
      simp

theorem Accounted.leave (h : s.Accounted options n) (hs : s.leave c = some s') :
    s'.Accounted options n := by
  rw [StampedeGuard.leave, Option.bind_eq_some_iff] at hs
  obtain ⟨call, hcall, hs⟩ := hs
  rw [Option.bind_eq_some_iff] at hs
  obtain ⟨entry, he, hs⟩ := hs
  split at hs
  case isFalse => cases hs
  case isTrue hready =>
    rw [Option.some.injEq] at hs
    have hphase : call.phase ≠ .returned := by
      rcases hready with hrejected | ⟨hwaiting, -⟩
      · simp [hrejected]
      · simp [hwaiting]
    have hlt := h.call_lt c call hcall
    have htotal := Counting.total_update hlt s.calls (some { call with phase := .returned })
      (refersTo call.entry)
    rw [hcall, refersTo_some, refersTo_some, if_pos ⟨rfl, hphase⟩, if_neg (by simp)] at htotal
    have hreferences : entry.references - 1 = Counting.total n
        (Function.update s.calls c (some { call with phase := .returned }))
          (refersTo call.entry) := by
      rw [h.references_eq call.entry entry he]
      omega
    have hcalls : ∀ d other, Function.update s.calls c (some { call with phase := .returned }) d =
        some other → d < n ∧
          (other.entry = call.entry ∨ ∃ old, s.calls d = some old ∧ old.entry = other.entry) := by
      intro d other hd
      by_cases hdc : d = c
      · subst hdc
        rw [Function.update_self, Option.some.injEq] at hd
        subst hd
        exact ⟨hlt, Or.inl rfl⟩
      · rw [Function.update_of_ne hdc] at hd
        exact ⟨h.call_lt d other hd, Or.inr ⟨other, hd, rfl⟩⟩
    have hothers : ∀ x, x ≠ call.entry → Counting.total n
        (Function.update s.calls c (some { call with phase := .returned })) (refersTo x) =
          Counting.total n s.calls (refersTo x) := fun x hx =>
      total_putCall_of_ne hlt hcall (by rintro other ⟨⟩; rfl) hx
    have hchange : Change options n s s' call.entry entry
        { entry with references := entry.references - 1 } := by
      subst hs
      rw [releaseEntry]
      split
      case isTrue hdone =>
        exact {
          entries_eq := rfl
          key_eq := rfl
          active_eq := rfl
          active_le := h.active_le
          calls := hcalls
          references_eq := hreferences
          others := hothers
          inFlight_of_ne := fun k hk => inFlight_removeKey_of_ne hk
          inFlight_key := Or.inr ⟨hdone.1, inFlight_removeKey⟩
          current := fun hk => by
            simp only [StampedeGuard.putCall, inFlight_removeKey] at hk
            cases hk
          listed := fun hsettled => absurd hdone.2.2 (by simpa using hsettled) }
      case isFalse hdone =>
        exact {
          entries_eq := rfl
          key_eq := rfl
          active_eq := rfl
          active_le := h.active_le
          calls := hcalls
          references_eq := hreferences
          others := hothers
          inFlight_of_ne := fun _ _ => rfl
          inFlight_key := Or.inl rfl
          current := fun hk => by
            obtain ⟨other, hother, -, htimed, -⟩ := h.current _ _ hk
            rw [he, Option.some.injEq] at hother
            subst hother
            exact ⟨htimed, fun hzero => hdone ⟨hk, hzero.2, hzero.1⟩⟩
          listed := fun hsettled htimed => h.listed call.entry entry he hsettled htimed }
    exact h.change he hchange

theorem Accounted.admitCall (h : s.Accounted options s.clock) (hnone : s.inFlight key = none)
    (hroom : s.activeTasks < options.maxInFlight) :
    Accounted options (s.clock + 1)
      { (s.putEntry s.clock ⟨key, 1, false, false⟩).putCall s.clock ⟨s.clock, .waiting⟩ with
        activeTasks := s.activeTasks + 1
        inFlight := Function.update s.inFlight key (some s.clock) } where
  entry_lt x other hx := by
    by_cases hxn : x = s.clock
    · exact hxn ▸ Nat.lt_succ_self _
    · exact h.succ.entry_lt x other
        (by simpa [StampedeGuard.putCall, StampedeGuard.putEntry, hxn] using hx)
  call_lt d other hd := by
    by_cases hdn : d = s.clock
    · exact hdn ▸ Nat.lt_succ_self _
    · exact h.succ.call_lt d other
        (by simpa [StampedeGuard.putCall, StampedeGuard.putEntry, hdn] using hd)
  call_entry d other hd := by
    simp only [StampedeGuard.putCall, StampedeGuard.putEntry]
    by_cases hentry : other.entry = s.clock
    · rw [hentry, Function.update_self]
      rfl
    · rw [Function.update_of_ne hentry]
      by_cases hdn : d = s.clock
      · subst hdn
        simp only [StampedeGuard.putCall, Function.update_self, Option.some.injEq] at hd
        exact absurd (hd ▸ rfl) hentry
      · exact h.call_entry d other
          (by simpa [StampedeGuard.putCall, StampedeGuard.putEntry, hdn] using hd)
  active_eq := by
    have htotal := Counting.total_succ_update s.clock s.entries (some ⟨key, 1, false, false⟩)
      unsettled
    have hactive := h.active_eq
    rw [unsettled_some, if_neg (by simp)] at htotal
    exact (congrArg (· + 1) hactive).trans htotal.symm
  active_le := hroom
  current k x hk := by
    simp only [StampedeGuard.putCall, StampedeGuard.putEntry] at hk ⊢
    by_cases hkey : k = key
    · subst hkey
      rw [Function.update_self, Option.some.injEq] at hk
      subst hk
      exact ⟨_, Function.update_self .., rfl, rfl, by simp⟩
    · rw [Function.update_of_ne hkey] at hk
      obtain ⟨other, hother, hrest⟩ := h.current k x hk
      refine ⟨other, ?_, hrest⟩
      rw [Function.update_of_ne (h.entry_lt x other hother).ne, hother]
  listed x other hx hsettled htimed := by
    simp only [StampedeGuard.putCall, StampedeGuard.putEntry] at hx ⊢
    by_cases hxn : x = s.clock
    · subst hxn
      rw [Function.update_self, Option.some.injEq] at hx
      subst hx
      exact Function.update_self ..
    · rw [Function.update_of_ne hxn] at hx
      have hlisted := h.listed x other hx hsettled htimed
      have hkey : other.key ≠ key := by
        rintro rfl
        rw [hnone] at hlisted
        cases hlisted
      rw [Function.update_of_ne hkey]
      exact hlisted
  references_eq x other hx := by
    simp only [StampedeGuard.putCall, StampedeGuard.putEntry] at hx ⊢
    rw [Counting.total_succ_update, refersTo_some]
    by_cases hxn : x = s.clock
    · subst hxn
      rw [Function.update_self, Option.some.injEq] at hx
      subst hx
      have hzero : Counting.total s.clock s.calls (refersTo s.clock) = 0 := by
        apply Counting.total_eq_zero
        intro d _
        cases hd : s.calls d with
        | none => rfl
        | some call =>
          have hne : call.entry ≠ s.clock := by
            intro heq
            have hsome := h.call_entry d call hd
            rw [heq, h.entries_clock] at hsome
            cases hsome
          rw [refersTo_some, if_neg fun hc => hne hc.1]
      simp [hzero]
    · rw [Function.update_of_ne hxn] at hx
      rw [if_neg fun hc => hxn hc.1.symm]
      exact h.references_eq x other hx

/-- A call joins the task in flight for its key, starts one, or is rejected. -/
theorem Accounted.execute (h : s.Accounted options s.clock)
    (hs : s.execute options key = some s') : s'.Accounted options (s.clock + 1) := by
  rw [StampedeGuard.execute] at hs
  split at hs
  case h_1 e _ =>
    obtain ⟨existing, he, rfl⟩ := Option.map_eq_some_iff.mp hs
    exact h.join he
  case h_2 hnone =>
    split at hs
    case isTrue =>
      cases hs
      exact h.succ
    case isFalse hroom =>
      cases hs
      exact h.admitCall hnone (Nat.lt_of_not_le hroom)

theorem Accounted.step (h : s.Accounted options s.clock) {a : GuardAction K}
    (hs : s.step options a = some s') : s'.Accounted options s'.clock := by
  simp only [StampedeGuard.step, Option.map_eq_some_iff] at hs
  obtain ⟨s₁, hact, rfl⟩ := hs
  have hnext : s₁.Accounted options (s.clock + 1) := by
    cases a with
    | execute key => exact h.execute hact
    | settle e => exact h.succ.settleEntry hact
    | timeout c => exact h.succ.timeout hact
    | leave c => exact h.succ.leave hact
    | releaseTimedOut key =>
      cases hact
      exact h.succ.releaseTimedOut key
  exact { hnext with }

structure Accounting (options : StampedeGuardOptions) (s : StampedeGuard K) : Prop where
  active_eq : s.activeTasks = s.unsettledTasks
  active_le : s.activeTasks ≤ options.maxInFlight
  one_current : ∀ e e' entry entry', s.entries e = some entry → s.entries e' = some entry' →
    entry.key = entry'.key → entry.settled = false → entry.timedOut = false →
    entry'.settled = false → entry'.timedOut = false → e = e'
  late_settle : ∀ e entry s', s.entries e = some entry → entry.timedOut = true →
    s.settleEntry e = some s' → s'.inFlight = s.inFlight ∧ ∀ x ≠ e, s'.entries x = s.entries x
  at_rest : (∀ e entry, s.entries e = some entry → entry.settled = true) →
    (∀ c call, s.calls c = some call → call.phase = .returned) →
    (∀ k, s.inFlight k = none) ∧ s.activeTasks = 0

theorem Accounted.late_settle (h : s.Accounted options n) (he : s.entries e = some entry)
    (htimed : entry.timedOut = true) (hs : s.settleEntry e = some s') :
    s'.inFlight = s.inFlight ∧ ∀ x ≠ e, s'.entries x = s.entries x := by
  have hcur : s.inFlight entry.key ≠ some e := by
    intro hk
    obtain ⟨other, hother, -, hfree, -⟩ := h.current _ e hk
    rw [he, Option.some.injEq] at hother
    subst hother
    rw [htimed] at hfree
    cases hfree
  rw [StampedeGuard.settleEntry, he, Option.bind_some] at hs
  split at hs
  case isTrue => cases hs
  case isFalse =>
    have hkeep : ¬ (entry.references = 0 ∧ s.inFlight entry.key = some e) := fun h => hcur h.2
    simp only [hkeep, if_false, Option.some.injEq] at hs
    subst hs
    exact ⟨rfl, fun x hx => Function.update_of_ne hx _ _⟩

/-- In every run the guard counts the tasks that have not settled, admits no more than its
limit, keeps one current task for a key, and is empty at rest. -/
theorem accounting (hrun : Reaches (step options) (fun _ _ => True) initial s) :
    s.Accounting options := by
  have h : s.Accounted options s.clock :=
    Reaches.invariant (P := fun s => s.Accounted options s.clock) hrun
      (fun _ _ _ h _ hs => h.step hs) accounted_initial
  constructor
  · exact h.active_eq
  · exact h.active_le
  · intro e e' entry entry' he he' hkey hsettled htimed hsettled' htimed'
    have hlisted := h.listed e entry he hsettled htimed
    rw [hkey, h.listed e' entry' he' hsettled' htimed', Option.some.injEq] at hlisted
    exact hlisted.symm
  · exact fun e entry s' he htimed hs => h.late_settle he htimed hs
  · exact h.at_rest

theorem accounting_retried :
    ∃ s ∈ run (step ⟨2, true⟩) (initial : StampedeGuard ℕ)
      [.execute 7, .timeout 0, .leave 0, .execute 7, .settle 0, .settle 3, .leave 3],
      s.activeTasks = 0 ∧ s.Accounting ⟨2, true⟩ := by
  obtain ⟨s, hs, hactive⟩ : ∃ s ∈ run (step ⟨2, true⟩) (initial : StampedeGuard ℕ)
      [.execute 7, .timeout 0, .leave 0, .execute 7, .settle 0, .settle 3, .leave 3],
      s.activeTasks = 0 := by decide +kernel
  have hrun := reaches_of_run (fun _ _ => True) hs (by decide +kernel)
  exact ⟨s, hs, hactive, accounting hrun⟩

end Steps

end StampedeGuard

end LayerCache
