import LayerCache.Invalidation.Bus
import LayerCache.Transition.Run
import Mathlib.Data.List.Nodup

/-! # Subscriptions of the invalidation bus

The calls of `subscribe` take turns: each waits for the one before it. The first subscriber
puts the shared listener on the subscriber's `message` event and then awaits `SUBSCRIBE`. A
message is dispatched once for every listener that is on the event when it comes, and a
listener whose `SUBSCRIBE` has failed stays there.
-/

namespace LayerCache

open Transition

inductive SubscribePhase
  | waiting
  /-- The first subscriber, whose `SUBSCRIBE` has not been answered. -/
  | attaching
  | resolved
  | failed
deriving DecidableEq

structure SubscribeCall (H : Type) where
  handler : H
  phase : SubscribePhase
deriving DecidableEq

inductive HandlerEvent
  | resolved
  | unsubscribed
deriving DecidableEq

/-- Calls are numbered in their order, and a listener has the number of the call that has put
it on the event. `history` is what has happened to the handlers, the latest first. -/
structure BusSubscriptions (H : Type) where
  handlers : List H
  sharedListener : Option ℕ
  listeners : List ℕ
  calls : List (SubscribeCall H)
  history : List (H × HandlerEvent)

inductive SubscriptionAction (H : Type)
  | subscribe (handler : H)
  /-- The call before this one has settled. -/
  | proceed (call : ℕ)
  | subscribed (call : ℕ)
  | failed (call : ℕ)
  /-- The function that a resolved call has returned is called. -/
  | unsubscribe (call : ℕ)
deriving DecidableEq

namespace BusSubscriptions

variable {H : Type} {s s' : BusSubscriptions H} {i j : ℕ} {handler : H} {call : SubscribeCall H}

def initial : BusSubscriptions H := ⟨[], none, [], [], []⟩

def Settled (s : BusSubscriptions H) (i : ℕ) : Prop :=
  ∃ call ∈ s.calls[i]?, call.phase = .resolved ∨ call.phase = .failed

instance (s : BusSubscriptions H) (i : ℕ) : Decidable (s.Settled i) :=
  inferInstanceAs (Decidable (∃ call ∈ s.calls[i]?, _))

/-- What the `message` event of the subscriber calls: every handler, for every listener. -/
def onMessage (bus : RedisInvalidationBus) (s : BusSubscriptions H) (payload : String) :
    List (H × InvalidationMessage) :=
  s.listeners.flatMap fun _ => bus.dispatchToHandlers s.handlers payload

variable [DecidableEq H]

/-- `handlers.add`, and the call resolves. -/
def add (s : BusSubscriptions H) (i : ℕ) (handler : H) : BusSubscriptions H :=
  { s with
    handlers := if handler ∈ s.handlers then s.handlers else s.handlers ++ [handler]
    calls := s.calls.set i ⟨handler, .resolved⟩
    history := (handler, .resolved) :: s.history }

/-- A call whose turn it is. Only the first subscriber attaches to Redis. -/
def enter (s : BusSubscriptions H) (i : ℕ) (handler : H) : BusSubscriptions H :=
  if s.handlers = [] then
    { s with
      sharedListener := some i
      listeners := s.listeners ++ [i]
      calls := s.calls.set i ⟨handler, .attaching⟩ }
  else s.add i handler

def subscribe (s : BusSubscriptions H) (handler : H) : BusSubscriptions H :=
  let called := { s with calls := s.calls ++ [⟨handler, .waiting⟩] }
  if s.calls = [] then called.enter 0 handler else called

/-- The rest of the call that awaits `SUBSCRIBE` is skipped when the command fails. -/
def fail (s : BusSubscriptions H) (i : ℕ) (handler : H) : BusSubscriptions H :=
  { s with calls := s.calls.set i ⟨handler, .failed⟩ }

/-- The last subscriber detaches from Redis, however `UNSUBSCRIBE` ends. -/
def unsubscribe (s : BusSubscriptions H) (handler : H) : BusSubscriptions H :=
  let left := { s with
    handlers := s.handlers.erase handler
    history := (handler, .unsubscribed) :: s.history }
  match left.handlers, left.sharedListener with
  | [], some listener =>
    { left with
      sharedListener := none
      listeners := s.listeners.erase listener }
  | _, _ => left

def act (s : BusSubscriptions H) : SubscriptionAction H → Option (BusSubscriptions H)
  | .subscribe handler => some (s.subscribe handler)
  | .proceed i =>
    match s.calls[i]? with
    | some ⟨handler, .waiting⟩ => if s.Settled (i - 1) then some (s.enter i handler) else none
    | _ => none
  | .subscribed i =>
    match s.calls[i]? with
    | some ⟨handler, .attaching⟩ => some (s.add i handler)
    | _ => none
  | .failed i =>
    match s.calls[i]? with
    | some ⟨handler, .attaching⟩ => some (s.fail i handler)
    | _ => none
  | .unsubscribe i =>
    match s.calls[i]? with
    | some ⟨handler, .resolved⟩ => some (s.unsubscribe handler)
    | _ => none

/-- A `subscribe` call with the handler has resolved, and it has not unsubscribed since. -/
def Subscribed (s : BusSubscriptions H) (handler : H) : Prop :=
  s.history.lookup handler = some .resolved

instance (s : BusSubscriptions H) (handler : H) : Decidable (s.Subscribed handler) :=
  inferInstanceAs (Decidable (_ = _))

/-- A message that comes now is dispatched exactly once to each subscribed handler, and to no
other. -/
def DispatchesOnce (bus : RedisInvalidationBus) (s : BusSubscriptions H) : Prop :=
  ∀ payload message, bus.receive payload = .ok message → ∀ handler,
    (s.onMessage bus payload).filter (·.1 = handler) =
      if s.Subscribed handler then [(handler, message)] else []

/-- The step leads to a state that dispatches messages as it should. -/
def Dispatches (bus : RedisInvalidationBus) (s : BusSubscriptions H) (a : SubscriptionAction H) :
    Prop :=
  ∀ s' ∈ s.act a, s'.DispatchesOnce bus

/-- When the `SUBSCRIBE` of a first subscriber succeeds, one listener is on the event: no
failed attempt has left another behind, and no unsubscription has taken it off. -/
def Listened (s : BusSubscriptions H) (a : SubscriptionAction H) : Prop :=
  ∀ (i : ℕ) (handler : H), a = .subscribed i → s.calls[i]? = some ⟨handler, .attaching⟩ →
    s.listeners.length = 1

structure Inv (s : BusSubscriptions H) : Prop where
  nodup : s.handlers.Nodup
  mem_iff : ∀ handler, handler ∈ s.handlers ↔ s.Subscribed handler
  attaching : ∀ (i : ℕ) (handler : H), s.calls[i]? = some ⟨handler, .attaching⟩ → s.handlers = []
  begun : ∀ (i : ℕ) call, s.calls[i]? = some call → call.phase ≠ .waiting → ∀ j < i, s.Settled j
  listened : s.handlers ≠ [] → s.listeners.length = 1

theorem inv_initial : Inv (initial : BusSubscriptions H) := by
  constructor <;> simp [initial, Subscribed]

theorem filter_onMessage (hnodup : s.handlers.Nodup) {bus : RedisInvalidationBus}
    {payload : String} {message : InvalidationMessage}
    (hmessage : bus.receive payload = .ok message) :
    (s.onMessage bus payload).filter (·.1 = handler) =
      if handler ∈ s.handlers then List.replicate s.listeners.length (handler, message)
      else [] := by
  have hone : (bus.dispatchToHandlers s.handlers payload).filter (·.1 = handler) =
      if handler ∈ s.handlers then [(handler, message)] else [] := by
    rw [RedisInvalidationBus.dispatchToHandlers, hmessage]
    simp only [List.filter_map]
    have hfilter : s.handlers.filter (fun h => decide (h = handler)) =
        List.replicate (s.handlers.count handler) handler := List.filter_eq handler
    rw [show ((fun e : H × InvalidationMessage => decide (e.1 = handler)) ∘
      fun h => (h, message)) = fun h => decide (h = handler) from rfl, hfilter, hnodup.count]
    split <;> rfl
  rw [onMessage, List.filter_flatMap]
  simp only [hone]
  split
  case isTrue => induction s.listeners with
    | nil => rfl
    | cons _ _ ih => simp [List.replicate_succ, ih]
  case isFalse => simp

theorem Inv.dispatchesOnce (h : s.Inv) (bus : RedisInvalidationBus) : s.DispatchesOnce bus := by
  intro payload message hmessage handler
  rw [filter_onMessage h.nodup hmessage]
  by_cases hmem : handler ∈ s.handlers
  · rw [if_pos hmem, if_pos ((h.mem_iff handler).mp hmem),
      h.listened (List.ne_nil_of_mem hmem), List.replicate_one]
  · rw [if_neg hmem, if_neg (mt (h.mem_iff handler).mpr hmem)]

theorem exists_receive (bus : RedisInvalidationBus) :
    ∃ payload message, bus.receive payload = .ok message :=
  let message := Publication.clear.message ⟨"stack", by decide⟩
  ⟨bus.publish message, message,
    receive_publish (by decide) ((nodes_payload _ Publication.clear).mpr trivial)⟩

theorem DispatchesOnce.listened {bus : RedisInvalidationBus} (h : s.DispatchesOnce bus)
    (hnodup : s.handlers.Nodup) (hmem : handler ∈ s.handlers) (hsubscribed : s.Subscribed handler) :
    s.listeners.length = 1 := by
  obtain ⟨payload, message, hmessage⟩ := exists_receive bus
  have hfilter := h payload message hmessage handler
  rw [filter_onMessage hnodup hmessage, if_pos hmem, if_pos hsubscribed] at hfilter
  simpa using congrArg List.length hfilter

theorem lookup_history (history : List (H × HandlerEvent)) (handler x : H) (event : HandlerEvent) :
    ((handler, event) :: history).lookup x =
      if x = handler then some event else history.lookup x := by
  rw [List.lookup_cons]
  by_cases hx : x = handler
  · simp [hx]
  · rw [if_neg hx, show (x == handler) = false by simpa using hx]

def Pending (s : BusSubscriptions H) (i : ℕ) : Prop :=
  ∃ call ∈ s.calls[i]?, call.phase = .waiting ∨ call.phase = .attaching

omit [DecidableEq H] in
theorem Pending.not_settled (h : s.Pending i) : ¬ s.Settled i := by
  rintro ⟨settled, hsettled, hresult⟩
  obtain ⟨call, hcall, hphase⟩ := h
  rw [Option.mem_def.mp hcall] at hsettled
  cases hsettled
  rcases hphase with hphase | hphase <;> simp [hphase] at hresult

omit [DecidableEq H] in
theorem Pending.getElem?_set (h : s.Pending i) (call : SubscribeCall H) (j : ℕ) :
    (s.calls.set i call)[j]? = if i = j then some call else s.calls[j]? := by
  obtain ⟨old, hold, -⟩ := h
  obtain ⟨hi, -⟩ := List.getElem?_eq_some_iff.mp (Option.mem_def.mp hold)
  rw [List.getElem?_set]
  simp [hi]

omit [DecidableEq H] in
theorem Settled.set (h : s.Settled j) (hpending : s.Pending i)
    (hcalls : s'.calls = s.calls.set i call) : s'.Settled j := by
  have hne : i ≠ j := by
    rintro rfl
    exact hpending.not_settled h
  rwa [Settled, hcalls, hpending.getElem?_set, if_neg hne]

theorem Inv.begun_set (h : s.Inv) (hpending : s.Pending i) (hlt : ∀ j < i, s.Settled j)
    (hcalls : s'.calls = s.calls.set i call) (k : ℕ) (call' : SubscribeCall H)
    (hcall' : s'.calls[k]? = some call') (hphase : call'.phase ≠ .waiting) :
    ∀ j < k, s'.Settled j := by
  intro j hj
  rw [hcalls, hpending.getElem?_set] at hcall'
  split at hcall'
  case isTrue heq => exact (hlt j (heq ▸ hj)).set hpending hcalls
  case isFalse => exact (h.begun k call' hcall' hphase j hj).set hpending hcalls

theorem Inv.not_attaching (h : s.Inv) (hpending : s.Pending i) (hlt : ∀ j < i, s.Settled j)
    (hne : i ≠ j) : s.calls[j]? ≠ some ⟨handler, .attaching⟩ := by
  intro hcall
  rcases Nat.lt_or_gt_of_ne hne with hj | hj
  · exact hpending.not_settled (h.begun j _ hcall (by simp) i hj)
  · exact Pending.not_settled ⟨_, hcall, .inr rfl⟩ (hlt j hj)

theorem Inv.add (h : s.Inv) (hpending : s.Pending i) (hlt : ∀ j < i, s.Settled j)
    (hlistened : s.handlers = [] → s.listeners.length = 1) (handler : H) :
    (s.add i handler).Inv where
  nodup := by
    rw [BusSubscriptions.add]
    split
    case isTrue => exact h.nodup
    case isFalse hnot =>
      exact List.nodup_append'.mpr ⟨h.nodup, List.nodup_singleton _, by simpa using hnot⟩
  mem_iff := by
    intro x
    have hlookup : (s.add i handler).Subscribed x ↔ x = handler ∨ s.Subscribed x := by
      rw [Subscribed, BusSubscriptions.add, lookup_history]
      by_cases hx : x = handler <;> simp [hx, Subscribed]
    rw [hlookup, ← h.mem_iff, BusSubscriptions.add]
    split
    case isTrue hmem =>
      constructor
      · exact .inr
      · rintro (rfl | hx)
        · exact hmem
        · exact hx
    case isFalse => rw [List.mem_append, List.mem_singleton, or_comm]
  attaching := by
    intro k x hcall
    rw [BusSubscriptions.add, hpending.getElem?_set] at hcall
    split at hcall
    case isTrue => cases hcall
    case isFalse hne => exact absurd hcall (h.not_attaching hpending hlt hne)
  begun := h.begun_set hpending hlt rfl
  listened := by
    intro _
    by_cases hnil : s.handlers = []
    · exact hlistened hnil
    · exact h.listened hnil

theorem Inv.enter (h : s.Inv) (hpending : s.Pending i) (hlt : ∀ j < i, s.Settled j)
    (handler : H) : (s.enter i handler).Inv := by
  rw [BusSubscriptions.enter]
  split
  case isTrue hnil =>
    exact { h with
      attaching := fun _ _ _ => hnil
      begun := h.begun_set hpending hlt rfl
      listened := fun hne => absurd hnil hne }
  case isFalse hne => exact h.add hpending hlt (fun hnil => absurd hnil hne) handler

theorem Inv.fail (h : s.Inv) (hpending : s.Pending i) (hlt : ∀ j < i, s.Settled j)
    (hnil : s.handlers = []) (handler : H) : (s.fail i handler).Inv :=
  { h with
    attaching := fun _ _ _ => hnil
    begun := h.begun_set hpending hlt rfl }

theorem Inv.subscribe (h : s.Inv) (handler : H) : (s.subscribe handler).Inv := by
  have hold : ∀ {k : ℕ} {call : SubscribeCall H},
      (s.calls ++ [⟨handler, .waiting⟩])[k]? = some call → call.phase ≠ .waiting →
        s.calls[k]? = some call := by
    intro k call hcall hphase
    rcases Nat.lt_or_ge k s.calls.length with hk | hk
    · rwa [List.getElem?_append_left hk] at hcall
    · rw [List.getElem?_append_right hk, List.getElem?_singleton] at hcall
      split at hcall <;> cases hcall
      exact absurd rfl hphase
  have hcalled : Inv { s with calls := s.calls ++ [⟨handler, .waiting⟩] } := by
    refine { h with
      attaching := fun k x hcall => h.attaching k x (hold hcall (by simp))
      begun := fun k call hcall hphase j hj => ?_ }
    obtain ⟨settled, hsettled, hresult⟩ := h.begun k call (hold hcall hphase) hphase j hj
    have hlt : j < s.calls.length :=
      (List.getElem?_eq_some_iff.mp (Option.mem_def.mp hsettled)).1
    exact ⟨settled, (List.getElem?_append_left hlt).trans hsettled, hresult⟩
  rw [BusSubscriptions.subscribe]
  split
  case isTrue hnil =>
    have hfirst : (s.calls ++ [⟨handler, .waiting⟩])[0]? = some ⟨handler, .waiting⟩ := by
      simp [hnil]
    exact hcalled.enter ⟨_, hfirst, .inl rfl⟩ (fun j hj => absurd hj (Nat.not_lt_zero j)) handler
  case isFalse => exact hcalled

theorem Inv.unsubscribe (h : s.Inv) (handler : H) : (s.unsubscribe handler).Inv := by
  have hsubscribed : ∀ x, x ∈ s.handlers.erase handler ↔
      ((handler, HandlerEvent.unsubscribed) :: s.history).lookup x = some .resolved := by
    intro x
    rw [h.nodup.mem_erase_iff, h.mem_iff, Subscribed, lookup_history]
    by_cases hx : x = handler <;> simp [hx]
  have hnil : s.handlers = [] → s.handlers.erase handler = [] := by
    intro hnil
    rw [hnil, List.erase_nil]
  simp only [BusSubscriptions.unsubscribe]
  split
  case h_1 hleft _ =>
    exact { h with
      nodup := h.nodup.erase handler
      mem_iff := hsubscribed
      attaching := fun k x hcall => hnil (h.attaching k x hcall)
      listened := fun hne => absurd hleft hne }
  case h_2 =>
    exact { h with
      nodup := h.nodup.erase handler
      mem_iff := hsubscribed
      attaching := fun k x hcall => hnil (h.attaching k x hcall)
      listened := fun hne => h.listened (mt hnil hne) }

/-- The call that awaits `SUBSCRIBE` comes after calls that have settled. -/
theorem Inv.turn (h : s.Inv) (hcall : s.calls[i]? = some ⟨handler, .attaching⟩) :
    s.Pending i ∧ ∀ j < i, s.Settled j :=
  ⟨⟨_, hcall, .inr rfl⟩, h.begun i _ hcall (by simp)⟩

theorem Inv.step (h : s.Inv) {a : SubscriptionAction H} (hlistened : s.Listened a)
    (hs : s.act a = some s') : s'.Inv := by
  cases a with
  | subscribe handler =>
    cases hs
    exact h.subscribe handler
  | proceed i =>
    simp only [act] at hs
    split at hs
    case h_1 handler hcall =>
      split at hs
      case isTrue hsettled =>
        cases hs
        have hlt : ∀ j < i, s.Settled j := by
          intro j hj
          obtain ⟨call, hcall', hresult⟩ := id hsettled
          rcases Nat.lt_or_ge j (i - 1) with hj' | hj'
          · refine h.begun (i - 1) call hcall' ?_ j hj'
            rcases hresult with hresult | hresult <;> simp [hresult]
          · rwa [show j = i - 1 by omega]
        exact h.enter ⟨_, hcall, .inl rfl⟩ hlt handler
      case isFalse => cases hs
    case h_2 => cases hs
  | subscribed i =>
    simp only [act] at hs
    split at hs
    case h_1 handler hcall =>
      cases hs
      obtain ⟨hpending, hlt⟩ := h.turn hcall
      exact h.add hpending hlt (fun _ => hlistened i handler rfl hcall) handler
    case h_2 => cases hs
  | failed i =>
    simp only [act] at hs
    split at hs
    case h_1 handler hcall =>
      cases hs
      obtain ⟨hpending, hlt⟩ := h.turn hcall
      exact h.fail hpending hlt (h.attaching i handler hcall) handler
    case h_2 => cases hs
  | unsubscribe i =>
    simp only [act] at hs
    split at hs
    case h_1 handler hcall =>
      cases hs
      exact h.unsubscribe handler
    case h_2 => cases hs

/-- A step is the start of a wrong dispatch just where the listener that it is to rely on is
not the only one. -/
theorem Inv.dispatches_iff (h : s.Inv) (bus : RedisInvalidationBus) (a : SubscriptionAction H) :
    s.Dispatches bus a ↔ s.Listened a := by
  constructor
  · rintro hgood i handler rfl hcall
    have hnil := h.attaching i handler hcall
    have hadd : (s.add i handler).DispatchesOnce bus := hgood _ (by simp [act, hcall])
    have hmem : handler ∈ (s.add i handler).handlers := by simp [BusSubscriptions.add, hnil]
    have hsubscribed : (s.add i handler).Subscribed handler := by
      simp [BusSubscriptions.add, Subscribed]
    have hnodup : (s.add i handler).handlers.Nodup := by simp [BusSubscriptions.add, hnil]
    exact hadd.listened hnodup hmem hsubscribed
  · intro hlistened s' hs
    exact (h.step hlistened hs).dispatchesOnce bus

/-- In a run every message that comes is dispatched exactly once to each subscribed handler,
and to no other, just if one listener is on the event whenever the `SUBSCRIBE` of a first
subscriber succeeds. -/
theorem dispatches_along_iff (bus : RedisInvalidationBus) (as : List (SubscriptionAction H)) :
    Along act (Dispatches bus) initial as ↔ Along act Listened initial as :=
  along_congr (fun _ a h => h.dispatches_iff bus a)
    (fun _ _ _ h hlistened hs => h.step hlistened hs) inv_initial as

/-- The first `SUBSCRIBE` fails, and its listener dispatches the messages of the second
subscriber once more. -/
theorem not_dispatchesOnce : ∃ s ∈ run act initial
      [.subscribe 0, .failed 0, .subscribe 1, .proceed 1, .subscribed 1],
    ∀ bus : RedisInvalidationBus, ¬ s.DispatchesOnce bus := by
  obtain ⟨s, hs, hhandlers, hsubscribed, hlisteners⟩ : ∃ s ∈ run act initial
      [.subscribe 0, .failed 0, .subscribe 1, .proceed 1, .subscribed 1],
      s.handlers = [1] ∧ s.Subscribed 1 ∧ s.listeners.length = 2 := by decide +kernel
  refine ⟨s, hs, fun bus hgood => ?_⟩
  have hone : s.listeners.length = 1 :=
    hgood.listened (by simp [hhandlers]) (by simp [hhandlers]) hsubscribed
  omega

end BusSubscriptions

end LayerCache
