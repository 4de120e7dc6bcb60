import LayerCache.Invalidation.Bus
import LayerCache.Invalidation.RedisTagIndex
import LayerCache.Transition.Run

/-! # Invalidation messages that come late

Instances share a layer and a tag index in Redis, and tell each other what they have deleted.
An instance takes the keys of a message out of the index once more, whenever the message comes.
What writes have put there in the meantime goes with it.
-/

namespace LayerCache.LateMessages

open Transition

/-- What an instance has done to a key before it turns to the index. -/
inductive IndexCall
  | write (tags : Option (List String))
  | hit
  | delete
  | miss
  deriving DecidableEq

/-- A call has the read of its tags before it, the rest of its commands, or nothing. -/
inductive CallPhase
  | reading
  | ready (commands : List RedisCommand)
  | sending (commands : List RedisCommand)
  | completed (time : ℕ)
  deriving DecidableEq

structure Call where
  key : String
  call : IndexCall
  phase : CallPhase
  deriving DecidableEq

/-- `handleInvalidationMessage` as far as the index goes: the keys to take out, with the commands
for the first of them once its tags have been read, or the sets that the scan of a clear has
found so far. -/
inductive HandlerPhase
  | inFlight
  | removing (keys : List String) (commands : Option (List RedisCommand))
  | scanning (found : List IndexKey)
  | handled
  deriving DecidableEq

/-- `deletions` has the publisher's own deletions, by the times at which they have emptied the
shared layer. -/
structure Delivery where
  message : InvalidationMessage
  phase : HandlerPhase
  deletions : List ℕ
  deriving DecidableEq

/-- Calls and messages are numbered by the time of their start. `clears` has the times at which
the shared layer has been cleared, `authors` the writes that have put an entry into the index. -/
structure State where
  clock : ℕ
  shared : String → Bool
  db : RedisSets
  calls : ℕ → Option Call
  clears : List ℕ
  deliveries : ℕ → Option Delivery
  authors : IndexKey → String → List ℕ

inductive Action
  | start (key : String) (call : IndexCall)
  | read (i : ℕ)
  | send (i : ℕ)
  | complete (i : ℕ)
  | expire (key : String)
  | clearLayer
  | clearIndex (found : List IndexKey)
  | publish (message : InvalidationMessage) (deletions : List ℕ)
  | scan (n : ℕ) (found : List IndexKey)
  | handle (n : ℕ)

def Call.IsWrite (call : Call) : Prop := ∃ tags, call.call = .write tags

def Call.Begun (call : Call) : Prop :=
  (∃ commands, call.phase = .sending commands) ∨ ∃ time, call.phase = .completed time

def Call.CompletedBefore (call : Call) (time : ℕ) : Prop :=
  ∃ t, call.phase = .completed t ∧ t < time

instance (call : Call) : Decidable call.IsWrite :=
  match h : call.call with
  | .write tags => isTrue ⟨tags, h⟩
  | .hit | .delete | .miss => isFalse fun ⟨_, h'⟩ => by rw [h] at h'; cases h'

instance (call : Call) : Decidable call.Begun :=
  match h : call.phase with
  | .sending commands => isTrue (.inl ⟨commands, h⟩)
  | .completed time => isTrue (.inr ⟨time, h⟩)
  | .reading | .ready _ => isFalse (by simp [Call.Begun, h])

instance (call : Call) (time : ℕ) : Decidable (call.CompletedBefore time) :=
  match h : call.phase with
  | .completed t => decidable_of_iff (t < time) (by simp [Call.CompletedBefore, h])
  | .reading | .ready _ | .sending _ => isFalse (by simp [Call.CompletedBefore, h])

namespace State

def initial : State where
  clock := 0
  shared _ := false
  db _ := []
  calls _ := none
  clears := []
  deliveries _ := none
  authors _ _ := []

def setCall (s : State) (i : ℕ) (call : Call) : State :=
  { s with calls := Function.update s.calls i (some call) }

def setDelivery (s : State) (n : ℕ) (delivery : Delivery) : State :=
  { s with deliveries := Function.update s.deliveries n (some delivery) }

/-- A command runs, of the write that is given, if it is one of a write. -/
def exec (s : State) (author : Option ℕ) (command : RedisCommand) : State :=
  { s with
    db := command.exec s.db
    authors set x :=
      if x ∈ command.exec s.db set then
        match command, author with
        | .sadd set' members, some i =>
          if set = set' ∧ x ∈ members then i :: s.authors set x else s.authors set x
        | _, _ => s.authors set x
      else [] }

/-- One `DEL` for all the sets. -/
def delSets (s : State) (found : List IndexKey) : State :=
  { s with
    db set := if set ∈ found then [] else s.db set
    authors set x := if set ∈ found then [] else s.authors set x }

/-- A write has its value in the shared layer, and a delete has taken it out. -/
def start (s : State) (key : String) (call : IndexCall) : State :=
  let s' := s.setCall s.clock ⟨key, call, .reading⟩
  match call with
  | .write _ => { s' with shared := Function.update s.shared key true }
  | .delete => { s' with shared := Function.update s.shared key false }
  | .hit | .miss => s'

variable (index : RedisTagIndex) (instanceId : String)

/-- The commands of the call, given the tags that the key has. -/
def commands (call : Call) (existingTags : List String) : List RedisCommand :=
  match call.call with
  | .write (some tags) => index.trackCommands call.key existingTags tags
  | .write none | .hit => index.touchCommands call.key
  | .delete | .miss => index.removeCommands call.key existingTags

def read (s : State) (i : ℕ) : Option State :=
  match s.calls i with
  | some call =>
    match call.phase with
    | .reading =>
      let commands := commands index call (s.db (.keyTags call.key))
      some (s.setCall i { call with phase := .ready commands })
    | _ => none
  | none => none

def send (s : State) (i : ℕ) : Option State :=
  match s.calls i with
  | some call =>
    match call.phase with
    | .ready (command :: commands) | .sending (command :: commands) =>
      let author := if call.IsWrite then some i else none
      some ((s.setCall i { call with phase := .sending commands }).exec author command)
    | _ => none
  | none => none

def complete (s : State) (i : ℕ) : Option State :=
  match s.calls i with
  | some call =>
    match call.phase with
    | .sending [] => some (s.setCall i { call with phase := .completed s.clock })
    | _ => none
  | none => none

def begin (message : InvalidationMessage) : HandlerPhase :=
  if message.sourceId = instanceId then .handled
  else if message.scope = .clear then .scanning []
  else if message.operation = some .expire then .handled
  else if message.operation = some .write then .handled
  else .removing (message.keys.getD []) none

/-- One iteration of the scan gives sets that are there. -/
def scan (s : State) (n : ℕ) (found : List IndexKey) : Option State :=
  match s.deliveries n with
  | some ⟨message, .scanning found', deletions⟩ =>
    if ∀ set ∈ found, s.db set ≠ [] then
      some (s.setDelivery n ⟨message, .scanning (found' ++ found), deletions⟩)
    else none
  | _ => none

/-- The next step of the handler of a message, the iterations of a scan apart. -/
def handle (s : State) (n : ℕ) : Option State :=
  match s.deliveries n with
  | some ⟨message, .inFlight, deletions⟩ =>
    some (s.setDelivery n ⟨message, begin instanceId message, deletions⟩)
  | some ⟨message, .removing [] _, deletions⟩ =>
    some (s.setDelivery n ⟨message, .handled, deletions⟩)
  | some ⟨message, .removing (key :: keys) none, deletions⟩ =>
    let commands := index.removeCommands key (s.db (.keyTags key))
    some (s.setDelivery n ⟨message, .removing (key :: keys) (some commands), deletions⟩)
  | some ⟨message, .removing (_ :: keys) (some []), deletions⟩ =>
    some (s.setDelivery n ⟨message, .removing keys none, deletions⟩)
  | some ⟨message, .removing (key :: keys) (some (command :: commands)), deletions⟩ =>
    some ((s.exec none command).setDelivery n
      ⟨message, .removing (key :: keys) (some commands), deletions⟩)
  | some ⟨message, .scanning found, deletions⟩ =>
    some ((s.delSets found).setDelivery n ⟨message, .handled, deletions⟩)
  | _ => none

/-- The publisher has cleared the layer, or has deleted the keys and taken them out of the index.
Other messages have no deletion before them. -/
def Deleted (s : State) (message : InvalidationMessage) (deletions : List ℕ) : Prop :=
  if message.scope = .clear then ∃ d ∈ deletions, d ∈ s.clears
  else if message.operation = some .expire ∨ message.operation = some .write then True
  else ∀ key ∈ message.keys.getD [], ∃ d ∈ deletions, ∃ call ∈ s.calls d,
    call.key = key ∧ call.call = .delete ∧ call.CompletedBefore s.clock

instance (s : State) (message : InvalidationMessage) (deletions : List ℕ) :
    Decidable (s.Deleted message deletions) := by
  unfold Deleted
  infer_instance

def act (s : State) : Action → Option State
  | .start key call => some (s.start key call)
  | .read i => s.read index i
  | .send i => s.send i
  | .complete i => s.complete i
  | .expire key => some { s with shared := Function.update s.shared key false }
  | .clearLayer => some { s with shared _ := false, clears := s.clock :: s.clears }
  | .clearIndex found => some (s.delSets found)
  | .publish message deletions =>
    if s.Deleted message deletions then
      some (s.setDelivery s.clock ⟨message, .inFlight, deletions⟩)
    else none
  | .scan n found => s.scan n found
  | .handle n => s.handle index instanceId n

def tick (s : State) : State := { s with clock := s.clock + 1 }

def step (s : State) (a : Action) : Option State := (s.act index instanceId a).map tick

def completedAt (s : State) (i : ℕ) : Option ℕ :=
  match s.calls i with
  | some ⟨_, _, .completed time⟩ => some time
  | _ => none

end State

open State

/-- The handler is about to take entries of the key out of the index. -/
def Delivery.Removes (delivery : Delivery) (key : String) : Prop :=
  match delivery.phase with
  | .removing (key' :: _) (some (_ :: _)) => key' = key
  | .scanning _ => True
  | _ => False

instance (key : String) : (delivery : Delivery) → Decidable (delivery.Removes key)
  | ⟨_, .removing (key' :: _) (some (_ :: _)), _⟩ => inferInstanceAs (Decidable (key' = key))
  | ⟨_, .scanning _, _⟩ => isTrue trivial
  | ⟨_, .inFlight, _⟩ | ⟨_, .handled, _⟩ | ⟨_, .removing [] _, _⟩ | ⟨_, .removing (_ :: _) none, _⟩
  | ⟨_, .removing (_ :: _) (some []), _⟩ => isFalse id

/-- The shared layer has been rid of the key at the time. -/
def State.Deletes (s : State) (d : ℕ) (key : String) : Prop :=
  d ∈ s.clears ∨ ∃ call ∈ s.calls d, call.key = key ∧ call.call = .delete

instance (s : State) (d : ℕ) (key : String) : Decidable (s.Deletes d key) := by
  unfold State.Deletes
  infer_instance

/-- The write has started before the publisher has deleted its key, and it was complete before the
message was published if it has put anything into the index. -/
def State.Preceded (s : State) (n : ℕ) (delivery : Delivery) (i : ℕ) (call : Call) : Prop :=
  (∃ d ∈ delivery.deletions, i < d ∧ s.Deletes d call.key) ∧
    (call.Begun → call.CompletedBefore n)

instance (s : State) (n : ℕ) (delivery : Delivery) (i : ℕ) (call : Call) :
    Decidable (s.Preceded n delivery i call) := by
  unfold State.Preceded
  infer_instance

/-- A handler takes entries of a key out of the index only while no write of the key has started
since the publisher deleted it, and those before are complete. -/
def State.Timely (s : State) : Action → Prop
  | .handle n => ∀ delivery ∈ s.deliveries n, ∀ i < s.clock, ∀ call ∈ s.calls i,
      call.IsWrite → delivery.Removes call.key → s.Preceded n delivery i call
  | _ => True

instance State.Timely.decidable (s : State) : (a : Action) → Decidable (s.Timely a)
  | .handle n => inferInstanceAs (Decidable (∀ delivery ∈ s.deliveries n, ∀ i < s.clock,
      ∀ call ∈ s.calls i, call.IsWrite → delivery.Removes call.key →
        s.Preceded n delivery i call))
  | .start _ _ | .read _ | .send _ | .complete _ | .expire _ | .clearLayer | .clearIndex _
  | .publish _ _ | .scan _ _ => isTrue trivial

def owner : IndexKey → String → String
  | .keyTags key, _ => key
  | _, member => member

/-- The entries of the key stay in the index, and invalidations find it there as before. -/
structure State.Keeps (index : RedisTagIndex) (s s' : State) (key : String) : Prop where
  entries : ∀ set x, owner set x = key → x ∈ s.db set → x ∈ s'.db set
  tag : ∀ tag, key ∈ RedisTagIndex.keysForTag s.db tag → key ∈ RedisTagIndex.keysForTag s'.db tag
  prefix' : ∀ text, key ∈ index.keysForPrefix s.db text → key ∈ index.keysForPrefix s'.db text

/-- In the run, what handlers take out of the index is not of a key that is live in the shared
layer, and has not been put there by a write that completes after the message was published. -/
def Spared (index : RedisTagIndex) (instanceId : String) (as : List Action) : Prop :=
  ∀ as₁ n as₂, as = as₁ ++ .handle n :: as₂ → ∀ s₁ s₂ s,
    run (step index instanceId) initial as₁ = some s₁ →
    step index instanceId s₁ (.handle n) = some s₂ →
    run (step index instanceId) s₂ as₂ = some s →
    (∀ key, s₁.shared key = true → s₁.Keeps index s₂ key) ∧
    ∀ set x, x ∈ s₁.db set → x ∉ s₂.db set → ∀ i ∈ s₁.authors set x,
    ∀ time, s.completedAt i = some time → time ≤ n

/-- The command adds and takes out entries of the key only. -/
def Owns (key : String) : RedisCommand → Prop
  | .sadd set members => ∀ member ∈ members, owner set member = key
  | .srem set member => owner set member = key
  | .del set => set = .keyTags key

variable {index : RedisTagIndex} {instanceId key x : String} {set : IndexKey}
  {command : RedisCommand} {existingTags tags : List String}

theorem owner_knownKeysKeyFor : owner (index.knownKeysKeyFor key) x = x := by
  rcases index.knownKeysKeyFor_cases key with h | ⟨shard, h⟩
  · rw [h]
    rfl
  · rw [h]
    rfl

theorem owns_touchCommands : ∀ command ∈ index.touchCommands key, Owns key command := by
  intro command hcommand
  cases List.mem_singleton.mp hcommand
  intro member hmember
  cases List.mem_singleton.mp hmember
  exact owner_knownKeysKeyFor

theorem owns_trackCommands :
    ∀ command ∈ index.trackCommands key existingTags tags, Owns key command := by
  intro command hcommand
  rw [RedisTagIndex.trackCommands] at hcommand
  rcases List.mem_append.mp hcommand with hcommand | hcommand
  · rcases List.mem_cons.mp hcommand with rfl | hcommand
    · intro member hmember
      cases List.mem_singleton.mp hmember
      exact owner_knownKeysKeyFor
    · obtain ⟨tag, -, rfl⟩ := List.mem_map.mp hcommand
      exact rfl
  · rcases List.mem_cons.mp hcommand with rfl | hcommand
    · exact rfl
    · split at hcommand
      · cases hcommand
      · rcases List.mem_cons.mp hcommand with rfl | hcommand
        · intro _ _
          exact rfl
        · obtain ⟨tag, -, rfl⟩ := List.mem_map.mp hcommand
          intro member hmember
          exact List.mem_singleton.mp hmember

theorem owns_removeCommands :
    ∀ command ∈ index.removeCommands key existingTags, Owns key command := by
  intro command hcommand
  rw [RedisTagIndex.removeCommands] at hcommand
  rcases List.mem_append.mp hcommand with hcommand | hcommand
  · rcases List.mem_cons.mp hcommand with rfl | hcommand
    · exact owner_knownKeysKeyFor
    · split at hcommand
      · cases List.mem_singleton.mp hcommand
        exact rfl
      · cases hcommand
  · rcases List.mem_cons.mp hcommand with rfl | hcommand
    · exact rfl
    · obtain ⟨tag, -, rfl⟩ := List.mem_map.mp hcommand
      exact rfl

theorem owns_commands (call : Call) :
    ∀ command ∈ commands index call existingTags, Owns call.key command := by
  unfold commands
  cases call.call with
  | write tags =>
    cases tags with
    | none => exact owns_touchCommands
    | some tags => exact owns_trackCommands
  | hit => exact owns_touchCommands
  | delete => exact owns_removeCommands
  | miss => exact owns_removeCommands

theorem Owns.owner_eq (h : Owns key command) {db : RedisSets} (hbefore : x ∈ db set)
    (hafter : x ∉ command.exec db set) : owner set x = key := by
  rw [RedisCommand.mem_exec] at hafter
  cases command with
  | sadd set' members => exact absurd (.inl hbefore) hafter
  | srem set' member =>
    obtain ⟨rfl, rfl⟩ := not_not.mp fun hne => hafter ⟨hbefore, hne⟩
    exact h
  | del set' =>
    obtain rfl := not_not.mp fun hne => hafter ⟨hbefore, hne⟩
    cases h
    rfl

namespace State

variable {s s' : State} {a : Action} {i n time : ℕ} {call : Call} {delivery : Delivery}

def WritesTo (s : State) (i : ℕ) (key : String) : Prop :=
  ∃ call, s.calls i = some call ∧ call.IsWrite ∧ call.Begun ∧ call.key = key

/-- Calls and handlers send commands of their key only, and the authors of an entry are writes of
its key. -/
structure Inv (s : State) : Prop where
  calls : ∀ i call commands, s.calls i = some call →
    call.phase = .ready commands ∨ call.phase = .sending commands →
    ∀ command ∈ commands, Owns call.key command
  deliveries : ∀ n message key keys commands deletions,
    s.deliveries n = some ⟨message, .removing (key :: keys) (some commands), deletions⟩ →
    ∀ command ∈ commands, Owns key command
  authors : ∀ set x, ∀ i ∈ s.authors set x, s.WritesTo i (owner set x)

theorem inv_initial : initial.Inv where
  calls _ _ _ h := nomatch h
  deliveries _ _ _ _ _ _ h := nomatch h
  authors _ _ _ h := nomatch h

theorem update_eq_some {β : Type*} {f : ℕ → Option β} {i j : ℕ} {b b' : β}
    (h : Function.update f i (some b) j = some b') : j = i ∧ b = b' ∨ j ≠ i ∧ f j = some b' := by
  by_cases hj : j = i
  · subst hj
    rw [Function.update_self] at h
    exact .inl ⟨rfl, Option.some.inj h⟩
  · rw [Function.update_of_ne hj] at h
    exact .inr ⟨hj, h⟩

theorem Inv.setCall (h : s.Inv)
    (hcommands : ∀ commands, call.phase = .ready commands ∨ call.phase = .sending commands →
      ∀ command ∈ commands, Owns call.key command)
    (hold : ∀ old, s.calls i = some old → call.key = old.key ∧ call.call = old.call ∧
      (old.Begun → call.Begun)) : (s.setCall i call).Inv := by
  constructor
  · intro j other commands hj hphase
    rcases update_eq_some hj with ⟨-, rfl⟩ | ⟨-, hj⟩
    · exact hcommands commands hphase
    · exact h.calls j other commands hj hphase
  · exact h.deliveries
  · intro set x j hj
    obtain ⟨other, hother, ⟨tags, htags⟩, hbegun, hkey⟩ := h.authors set x j hj
    by_cases hji : j = i
    · subst hji
      obtain ⟨hkey', hcall, hbegun'⟩ := hold other hother
      exact ⟨call, Function.update_self .., ⟨tags, hcall.trans htags⟩, hbegun' hbegun,
        hkey'.trans hkey⟩
    · exact ⟨other, (Function.update_of_ne hji ..).trans hother, ⟨tags, htags⟩, hbegun, hkey⟩

theorem Inv.setDelivery (h : s.Inv)
    (hcommands : ∀ key keys commands, delivery.phase = .removing (key :: keys) (some commands) →
      ∀ command ∈ commands, Owns key command) : (s.setDelivery n delivery).Inv := by
  constructor
  · exact h.calls
  · intro m message key keys commands deletions hm
    rcases update_eq_some hm with ⟨-, rfl⟩ | ⟨-, hm⟩
    · exact hcommands key keys commands rfl
    · exact h.deliveries m message key keys commands deletions hm
  · exact h.authors

theorem Inv.delSets (h : s.Inv) (found : List IndexKey) : (s.delSets found).Inv := by
  constructor
  · exact h.calls
  · exact h.deliveries
  · intro set x i hi
    simp only [State.delSets] at hi
    split at hi
    · cases hi
    · exact h.authors set x i hi

theorem Inv.exec {author : Option ℕ} (h : s.Inv) (howns : Owns key command)
    (hauthor : ∀ i ∈ author, s.WritesTo i key) : (s.exec author command).Inv := by
  constructor
  · exact h.calls
  · exact h.deliveries
  · intro set x i hi
    simp only [State.exec] at hi
    split at hi
    · split at hi
      · rename_i set' members j
        split at hi
        · rename_i hadded
          rcases List.mem_cons.mp hi with rfl | hi
          · obtain ⟨rfl, hx⟩ := hadded
            have hkey : owner set x = key := howns x hx
            rw [hkey]
            exact hauthor i rfl
          · exact h.authors set x i hi
        · exact h.authors set x i hi
      · exact h.authors set x i hi
    · cases hi

theorem Inv.start (h : s.Inv) (hnew : s.calls s.clock = none) (key : String) (call : IndexCall) :
    (s.start key call).Inv := by
  have hset : (s.setCall s.clock ⟨key, call, .reading⟩).Inv := by
    apply h.setCall
    · rintro commands (h | h) <;> cases h
    · intro old hold
      rw [hnew] at hold
      cases hold
  unfold State.start
  cases call with
  | write tags => exact ⟨hset.calls, hset.deliveries, hset.authors⟩
  | delete => exact ⟨hset.calls, hset.deliveries, hset.authors⟩
  | hit => exact hset
  | miss => exact hset

theorem Inv.read (h : s.Inv) (hs : s.read index i = some s') : s'.Inv := by
  unfold State.read at hs
  cases hi : s.calls i with
  | none =>
    rw [hi] at hs
    cases hs
  | some call =>
    rw [hi] at hs
    obtain ⟨key, call, phase⟩ := call
    cases phase with
    | reading =>
      cases hs
      apply h.setCall
      · rintro commands (h | h)
        · cases h
          exact owns_commands _
        · cases h
      · intro old hold
        cases hi.symm.trans hold
        refine ⟨rfl, rfl, ?_⟩
        rintro (⟨_, hphase⟩ | ⟨_, hphase⟩) <;> cases hphase
    | ready commands => cases hs
    | sending commands => cases hs
    | completed time => cases hs

theorem send_cases (hs : s.send i = some s') : ∃ call command commands, s.calls i = some call ∧
    (call.phase = .ready (command :: commands) ∨ call.phase = .sending (command :: commands)) ∧
    s' = (s.setCall i { call with phase := .sending commands }).exec
      (if call.IsWrite then some i else none) command := by
  unfold State.send at hs
  cases hi : s.calls i with
  | none =>
    rw [hi] at hs
    cases hs
  | some call =>
    rw [hi] at hs
    obtain ⟨key, call, phase⟩ := call
    cases phase with
    | reading => cases hs
    | completed time => cases hs
    | ready commands =>
      cases commands with
      | nil => cases hs
      | cons command commands =>
        exact ⟨_, command, commands, rfl, .inl rfl, (Option.some.inj hs).symm⟩
    | sending commands =>
      cases commands with
      | nil => cases hs
      | cons command commands =>
        exact ⟨_, command, commands, rfl, .inr rfl, (Option.some.inj hs).symm⟩

theorem Inv.send (h : s.Inv) (hs : s.send i = some s') : s'.Inv := by
  obtain ⟨call, command, commands, hi, hphase, rfl⟩ := send_cases hs
  have howns := h.calls i call _ hi hphase
  have hset : (s.setCall i { call with phase := .sending commands }).Inv := by
    apply h.setCall
    · rintro rest (hrest | hrest)
      · cases hrest
      · cases hrest
        exact fun command hcommand => howns command (List.mem_cons_of_mem _ hcommand)
    · intro old hold
      cases hi.symm.trans hold
      exact ⟨rfl, rfl, fun _ => .inl ⟨commands, rfl⟩⟩
  apply hset.exec (howns command List.mem_cons_self)
  intro j hj
  split at hj
  · rename_i hwrite
    cases hj
    exact ⟨_, Function.update_self .., hwrite, .inl ⟨commands, rfl⟩, rfl⟩
  · cases hj

theorem complete_cases (hs : s.complete i = some s') : ∃ call, s.calls i = some call ∧
    call.phase = .sending [] ∧ s' = s.setCall i { call with phase := .completed s.clock } := by
  unfold State.complete at hs
  cases hi : s.calls i with
  | none =>
    rw [hi] at hs
    cases hs
  | some call =>
    rw [hi] at hs
    obtain ⟨key, call, phase⟩ := call
    cases phase with
    | reading => cases hs
    | completed time => cases hs
    | ready commands => cases hs
    | sending commands =>
      cases commands with
      | nil => exact ⟨_, rfl, rfl, (Option.some.inj hs).symm⟩
      | cons command commands => cases hs

theorem Inv.complete (h : s.Inv) (hs : s.complete i = some s') : s'.Inv := by
  obtain ⟨call, hi, hphase, rfl⟩ := complete_cases hs
  apply h.setCall
  · rintro commands (hcommands | hcommands) <;> cases hcommands
  · intro old hold
    cases hi.symm.trans hold
    exact ⟨rfl, rfl, fun _ => .inr ⟨s.clock, rfl⟩⟩

theorem Inv.scan {found : List IndexKey} (h : s.Inv) (hs : s.scan n found = some s') :
    s'.Inv := by
  unfold State.scan at hs
  split at hs
  · split at hs
    · cases hs
      apply h.setDelivery
      intro key keys commands hphase
      cases hphase
    · cases hs
  · cases hs

theorem publish_cases {message : InvalidationMessage} {deletions : List ℕ}
    (hs : s.act index instanceId (.publish message deletions) = some s') :
    s.Deleted message deletions ∧
      s' = s.setDelivery s.clock ⟨message, .inFlight, deletions⟩ := by
  simp only [State.act] at hs
  split at hs
  next hdeleted => exact ⟨hdeleted, (Option.some.inj hs).symm⟩
  next => cases hs

theorem begin_ne (message : InvalidationMessage) (keys : List String)
    (commands : List RedisCommand) : begin instanceId message ≠ .removing keys (some commands) := by
  unfold begin
  split
  · exact nofun
  split
  · exact nofun
  split
  · exact nofun
  split
  · exact nofun
  · exact nofun

theorem Inv.handle (h : s.Inv) (hs : s.handle index instanceId n = some s') : s'.Inv := by
  unfold State.handle at hs
  split at hs
  · rename_i message deletions _
    cases hs
    apply h.setDelivery
    intro key keys commands hphase
    exact absurd hphase (begin_ne message _ _)
  · cases hs
    exact h.setDelivery fun _ _ _ hphase => nomatch hphase
  · cases hs
    apply h.setDelivery
    intro key keys commands hphase
    cases hphase
    exact owns_removeCommands
  · cases hs
    exact h.setDelivery fun _ _ _ hphase => nomatch hphase
  · rename_i message key keys command commands deletions hn
    cases hs
    have howns := h.deliveries n message key keys _ deletions hn
    have hexec : (s.exec none command).Inv := by
      apply h.exec (howns command List.mem_cons_self)
      rintro i ⟨⟩
    apply hexec.setDelivery
    intro key' keys' commands' hphase
    cases hphase
    exact fun command hcommand => howns command (List.mem_cons_of_mem _ hcommand)
  · cases hs
    exact (h.delSets _).setDelivery fun _ _ _ hphase => nomatch hphase
  · cases hs

def Numbered (s : State) : Prop := ∀ i, s.calls i ≠ none → i < s.clock

theorem Numbered.fresh (h : s.Numbered) : s.calls s.clock = none := by
  by_contra hne
  exact Nat.lt_irrefl _ (h _ hne)

theorem Inv.act (h : s.Inv) (hnumbered : s.Numbered) (hs : s.act index instanceId a = some s') :
    s'.Inv := by
  cases a with
  | start key call =>
    cases hs
    exact h.start hnumbered.fresh key call
  | read i => exact h.read hs
  | send i => exact h.send hs
  | complete i => exact h.complete hs
  | expire key =>
    cases hs
    exact ⟨h.calls, h.deliveries, h.authors⟩
  | clearLayer =>
    cases hs
    exact ⟨h.calls, h.deliveries, h.authors⟩
  | clearIndex found =>
    cases hs
    exact h.delSets found
  | publish message deletions =>
    obtain ⟨-, rfl⟩ := publish_cases hs
    apply h.setDelivery
    intro key keys commands hphase
    cases hphase
  | scan n found => exact h.scan hs
  | handle n => exact h.handle hs

theorem calls_act (hs : s.act index instanceId a = some s') : s'.clock = s.clock ∧
    (s'.calls = s.calls ∨ ∃ i call, s'.calls = Function.update s.calls i (some call) ∧
      (i = s.clock ∨ ∃ old, s.calls i = some old ∧ ∀ t, old.phase ≠ .completed t)) := by
  cases a with
  | start key call =>
    cases hs
    refine ⟨?_, .inr ⟨s.clock, ⟨key, call, .reading⟩, ?_, .inl rfl⟩⟩
    · unfold State.start
      cases call <;> rfl
    · unfold State.start
      cases call <;> rfl
  | read i =>
    simp only [State.act, State.read] at hs
    split at hs
    · rename_i call hi
      split at hs
      · rename_i hphase
        cases hs
        exact ⟨rfl, .inr ⟨i, _, rfl, .inr ⟨call, hi, by simp [hphase]⟩⟩⟩
      · cases hs
    · cases hs
  | send i =>
    obtain ⟨call, command, commands, hi, hphase, rfl⟩ := send_cases hs
    refine ⟨rfl, .inr ⟨i, _, rfl, .inr ⟨call, hi, ?_⟩⟩⟩
    rintro t ht
    rcases hphase with hphase | hphase
    · cases hphase.symm.trans ht
    · cases hphase.symm.trans ht
  | complete i =>
    obtain ⟨call, hi, hphase, rfl⟩ := complete_cases hs
    exact ⟨rfl, .inr ⟨i, _, rfl, .inr ⟨call, hi, by simp [hphase]⟩⟩⟩
  | expire key =>
    cases hs
    exact ⟨rfl, .inl rfl⟩
  | clearLayer =>
    cases hs
    exact ⟨rfl, .inl rfl⟩
  | clearIndex found =>
    cases hs
    exact ⟨rfl, .inl rfl⟩
  | publish message deletions =>
    obtain ⟨-, rfl⟩ := publish_cases hs
    exact ⟨rfl, .inl rfl⟩
  | scan n found =>
    simp only [State.act, State.scan] at hs
    split at hs
    · split at hs
      · cases hs
        exact ⟨rfl, .inl rfl⟩
      · cases hs
    · cases hs
  | handle n =>
    simp only [State.act, State.handle] at hs
    split at hs <;> cases hs <;> exact ⟨rfl, .inl rfl⟩

theorem step_cases (hs : s.step index instanceId a = some s') :
    ∃ t, s.act index instanceId a = some t ∧ s' = t.tick := by
  obtain ⟨t, ht, rfl⟩ := Option.map_eq_some_iff.mp hs
  exact ⟨t, ht, rfl⟩

theorem Numbered.step (h : s.Numbered) (hs : s.step index instanceId a = some s') :
    s'.Numbered := by
  obtain ⟨t, ht, rfl⟩ := step_cases hs
  obtain ⟨hclock, hcalls⟩ := calls_act ht
  intro i hi
  have hi' : t.calls i ≠ none := hi
  change i < t.clock + 1
  rw [hclock]
  rcases hcalls with heq | ⟨j, call, heq, hj⟩
  · rw [heq] at hi'
    exact Nat.lt_succ_of_lt (h i hi')
  · by_cases hij : i = j
    · subst hij
      rcases hj with rfl | ⟨old, hold, -⟩
      · exact Nat.lt_succ_self _
      · exact Nat.lt_succ_of_lt (h i (by simp [hold]))
    · rw [heq, Function.update_of_ne hij] at hi'
      exact Nat.lt_succ_of_lt (h i hi')

def calling (s : State) (i : ℕ) : Option (String × IndexCall) :=
  (s.calls i).map fun call => (call.key, call.call)

theorem calling_eq_some {call : IndexCall} : s.calling i = some (key, call) ↔
    ∃ phase, s.calls i = some ⟨key, call, phase⟩ := by
  constructor
  · intro h
    obtain ⟨⟨key', call', phase⟩, hi, heq⟩ := Option.map_eq_some_iff.mp h
    cases heq
    exact ⟨phase, hi⟩
  · rintro ⟨phase, hi⟩
    rw [calling, hi]
    rfl

theorem deletes_iff {d : ℕ} :
    s.Deletes d key ↔ d ∈ s.clears ∨ s.calling d = some (key, .delete) := by
  refine or_congr_right ?_
  rw [calling_eq_some]
  constructor
  · rintro ⟨⟨key', call, phase⟩, hd, rfl, rfl⟩
    exact ⟨phase, hd⟩
  · rintro ⟨phase, hd⟩
    exact ⟨_, hd, rfl, rfl⟩

theorem calling_setCall (hi : s.calls i = some call) (phase : CallPhase) :
    (s.setCall i { call with phase }).calling = s.calling := by
  funext j
  by_cases hj : j = i
  · subst hj
    simp [calling, setCall, hi]
  · simp [calling, setCall, hj]

/-- A key that is live in the shared layer has been written since it was last deleted there. -/
structure Live (s : State) : Prop where
  clears : ∀ d ∈ s.clears, d < s.clock
  live : ∀ key, s.shared key = true → ∃ i tags, s.calling i = some (key, .write tags) ∧
    ∀ d, s.Deletes d key → d < i

theorem live_initial : initial.Live where
  clears d hd := by cases hd
  live key hkey := by cases hkey

theorem Live.mono (h : s.Live) (hshared : ∀ key, s'.shared key = true → s.shared key = true)
    (hclears : s'.clears = s.clears) (hcalling : s'.calling = s.calling)
    (hclock : s.clock ≤ s'.clock) : s'.Live := by
  constructor
  · rw [hclears]
    exact fun d hd => (h.clears d hd).trans_le hclock
  · intro key hkey
    obtain ⟨i, tags, hi, hlast⟩ := h.live key (hshared key hkey)
    refine ⟨i, tags, hcalling ▸ hi, fun d hd => hlast d ?_⟩
    rw [deletes_iff, hclears, hcalling] at hd
    exact deletes_iff.mpr hd

theorem Numbered.lt_of_calling (h : s.Numbered) {c : String × IndexCall}
    (hi : s.calling i = some c) : i < s.clock := by
  apply h i
  rintro hnone
  rw [calling, hnone] at hi
  cases hi

theorem Live.start (h : s.Live) (hnumbered : s.Numbered) (key : String) (call : IndexCall) :
    (s.start key call).tick.Live := by
  have hcalls : (s.start key call).calls =
      Function.update s.calls s.clock (some ⟨key, call, .reading⟩) := by
    cases call <;> rfl
  have hclears : (s.start key call).clears = s.clears := by cases call <;> rfl
  have hclock : (s.start key call).clock = s.clock := by cases call <;> rfl
  have hnew : (s.start key call).calling s.clock = some (key, call) := by
    rw [calling, hcalls, Function.update_self]
    rfl
  have hold : ∀ i, i ≠ s.clock → (s.start key call).calling i = s.calling i := fun i hi => by
    rw [calling, hcalls, Function.update_of_ne hi]
    rfl
  constructor
  · intro d hd
    change d < (s.start key call).clock + 1
    rw [hclock]
    exact Nat.lt_succ_of_lt (h.clears d (hclears ▸ hd))
  · intro key' hkey'
    change (s.start key call).shared key' = true at hkey'
    by_cases hwrite : key' = key ∧ ∃ tags, call = .write tags
    · obtain ⟨rfl, tags, rfl⟩ := hwrite
      refine ⟨s.clock, tags, hnew, fun d hd => ?_⟩
      change (s.start key' (.write tags)).Deletes d key' at hd
      rw [deletes_iff, hclears] at hd
      rcases hd with hd | hd
      · exact h.clears d hd
      · have hne : d ≠ s.clock := by
          rintro rfl
          cases hnew.symm.trans hd
        exact hnumbered.lt_of_calling (hold d hne ▸ hd)
    · obtain ⟨hlive, hother⟩ : s.shared key' = true ∧ (key, call) ≠ (key', .delete) := by
        cases call with
        | write tags =>
          have hne : key' ≠ key := fun heq => hwrite ⟨heq, tags, rfl⟩
          exact ⟨(Function.update_of_ne hne ..).symm.trans hkey', by simp⟩
        | delete =>
          have hne : key' ≠ key := by
            rintro rfl
            cases (Function.update_self ..).symm.trans hkey'
          exact ⟨(Function.update_of_ne hne ..).symm.trans hkey', by simp [hne.symm]⟩
        | hit => exact ⟨hkey', by simp⟩
        | miss => exact ⟨hkey', by simp⟩
      obtain ⟨i, tags, hi, hlast⟩ := h.live key' hlive
      refine ⟨i, tags, (hold i (hnumbered.lt_of_calling hi).ne).trans hi, fun d hd => hlast d ?_⟩
      change (s.start key call).Deletes d key' at hd
      rw [deletes_iff, hclears] at hd
      refine deletes_iff.mpr (hd.imp_right fun hd => ?_)
      have hne : d ≠ s.clock := by
        rintro rfl
        exact hother (Option.some.inj (hnew.symm.trans hd))
      exact hold d hne ▸ hd

theorem Live.step (h : s.Live) (hnumbered : s.Numbered)
    (hs : s.step index instanceId a = some s') : s'.Live := by
  obtain ⟨t, ht, rfl⟩ := step_cases hs
  have hclock : s.clock ≤ t.tick.clock := by
    change s.clock ≤ t.clock + 1
    rw [(calls_act ht).1]
    exact Nat.le_succ _
  cases a with
  | start key call =>
    cases ht
    exact h.start hnumbered key call
  | read i =>
    simp only [State.act, State.read] at ht
    split at ht
    · rename_i call hi
      split at ht
      · cases ht
        exact h.mono (fun _ => id) rfl (calling_setCall hi _) hclock
      · cases ht
    · cases ht
  | send i =>
    obtain ⟨call, command, commands, hi, -, rfl⟩ := send_cases ht
    exact h.mono (fun _ => id) rfl (calling_setCall hi _) hclock
  | complete i =>
    obtain ⟨call, hi, -, rfl⟩ := complete_cases ht
    exact h.mono (fun _ => id) rfl (calling_setCall hi _) hclock
  | expire key =>
    cases ht
    refine h.mono (fun key' hkey' => ?_) rfl rfl hclock
    by_cases heq : key' = key
    · subst heq
      cases (Function.update_self ..).symm.trans hkey'
    · exact (Function.update_of_ne heq ..).symm.trans hkey'
  | clearLayer =>
    cases ht
    constructor
    · rintro d hd
      rcases List.mem_cons.mp hd with rfl | hd
      · exact Nat.lt_succ_self _
      · exact Nat.lt_succ_of_lt (h.clears d hd)
    · intro key hkey
      cases hkey
  | clearIndex found =>
    cases ht
    exact h.mono (fun _ => id) rfl rfl hclock
  | publish message deletions =>
    obtain ⟨-, rfl⟩ := publish_cases ht
    exact h.mono (fun _ => id) rfl rfl hclock
  | scan n found =>
    simp only [State.act, State.scan] at ht
    split at ht
    · split at ht
      · cases ht
        exact h.mono (fun _ => id) rfl rfl hclock
      · cases ht
    · cases ht
  | handle n =>
    simp only [State.act, State.handle] at ht
    split at ht <;> cases ht <;> exact h.mono (fun _ => id) rfl rfl hclock

theorem completedAt_eq_some : s.completedAt i = some time ↔
    ∃ call, s.calls i = some call ∧ call.phase = .completed time := by
  unfold completedAt
  constructor
  · intro h
    split at h
    · rename_i key call time' hi
      cases h
      exact ⟨_, hi, rfl⟩
    · cases h
  · rintro ⟨⟨key, call, phase⟩, hi, rfl⟩
    rw [hi]

theorem completedAt_step (h : s.Numbered) (hs : s.step index instanceId a = some s')
    (hi : s.completedAt i = some time) : s'.completedAt i = some time := by
  obtain ⟨t, ht, rfl⟩ := step_cases hs
  obtain ⟨-, hcalls⟩ := calls_act ht
  obtain ⟨call, hcall, hphase⟩ := completedAt_eq_some.mp hi
  apply completedAt_eq_some.mpr
  refine ⟨call, ?_, hphase⟩
  change t.calls i = some call
  rcases hcalls with heq | ⟨j, call', heq, hj⟩
  · rw [heq, hcall]
  · have hij : i ≠ j := by
      rintro rfl
      rcases hj with rfl | ⟨old, hold, hne⟩
      · exact Nat.lt_irrefl _ (h _ (by simp [hcall]))
      · cases hcall.symm.trans hold
        exact hne time hphase
    rw [heq, Function.update_of_ne hij, hcall]

theorem completedAt_run {as : List Action} (h : s.Numbered)
    (hrun : run (step index instanceId) s as = some s') (hi : s.completedAt i = some time) :
    s'.completedAt i = some time := by
  have hreaches : Reaches (step index instanceId) (fun _ _ => True) s s' :=
    reaches_of_run _ hrun (along_of_forall fun _ _ _ => trivial)
  refine (hreaches.invariant (P := fun t => t.Numbered ∧ t.completedAt i = some time)
    ?_ ⟨h, hi⟩).2
  rintro t a t' ⟨ht, hit⟩ - hs
  exact ⟨ht.step hs, completedAt_step ht hs hit⟩

theorem inv_of_run {as : List Action} (hrun : run (step index instanceId) initial as = some s) :
    s.Inv ∧ s.Numbered ∧ s.Live := by
  have hreaches : Reaches (step index instanceId) (fun _ _ => True) initial s :=
    reaches_of_run _ hrun (along_of_forall fun _ _ _ => trivial)
  apply hreaches.invariant (P := fun t => t.Inv ∧ t.Numbered ∧ t.Live) ?_
    ⟨inv_initial, fun _ h => absurd rfl h, live_initial⟩
  rintro t a t' ⟨hinv, ht, hlive⟩ - hs
  refine ⟨?_, ht.step hs, hlive.step ht hs⟩
  obtain ⟨u, hu, rfl⟩ := step_cases hs
  have hinv' := hinv.act ht hu
  exact ⟨hinv'.calls, hinv'.deliveries, hinv'.authors⟩

/-- What a handler takes out of the index belongs to a key that it removes. -/
theorem removes_of_handle (h : s.Inv) (hs : s.handle index instanceId n = some s')
    (hbefore : x ∈ s.db set) (hafter : x ∉ s'.db set) :
    ∃ delivery, s.deliveries n = some delivery ∧ delivery.Removes (owner set x) := by
  unfold State.handle at hs
  split at hs
  · cases hs
    exact absurd hbefore hafter
  · cases hs
    exact absurd hbefore hafter
  · cases hs
    exact absurd hbefore hafter
  · cases hs
    exact absurd hbefore hafter
  · rename_i message key keys command commands deletions hn
    cases hs
    have howns := h.deliveries n message key keys _ deletions hn command List.mem_cons_self
    exact ⟨_, hn, (howns.owner_eq hbefore hafter).symm⟩
  · rename_i message found deletions hn
    exact ⟨_, hn, trivial⟩
  · cases hs

/-- What stays of the entries of a key is found by the lookups of invalidations. -/
theorem keeps_of_entries
    (h : ∀ set x, owner set x = key → x ∈ s.db set → x ∈ s'.db set) : s.Keeps index s' key := by
  refine ⟨h, fun tag => h (.tagKeys tag) key rfl, fun text hmem => ?_⟩
  simp only [RedisTagIndex.keysForPrefix, List.mem_eraseDups, List.mem_flatMap,
    List.mem_filter] at hmem ⊢
  obtain ⟨set, hset, hkey, htext⟩ := hmem
  have hknown : owner set key = key := by
    rcases index.knownKeysKeysForRead_cases hset with rfl | ⟨shard, rfl⟩ <;> rfl
  have hkept : key ∈ s'.db set := h set key hknown hkey
  exact ⟨set, index.knownKeysKeysForRead_of_mem hset hkept, hkept, htext⟩

/-- The entries that a handler takes out in time are not of a live key. -/
theorem Timely.keeps (htimely : s.Timely (.handle n)) (hinv : s.Inv) (hnumbered : s.Numbered)
    (hlive : s.Live) (hs : s.handle index instanceId n = some s') (hkey : s.shared key = true) :
    s.Keeps index s' key := by
  apply keeps_of_entries
  rintro set x rfl hbefore
  by_contra hafter
  obtain ⟨delivery, hn, hremoves⟩ := removes_of_handle hinv hs hbefore hafter
  obtain ⟨i, tags, hi, hlast⟩ := hlive.live _ hkey
  obtain ⟨phase, hcall⟩ := calling_eq_some.mp hi
  obtain ⟨⟨d, -, hlt, hdeletes⟩, -⟩ :=
    htimely delivery hn i (hnumbered.lt_of_calling hi) _ hcall ⟨tags, rfl⟩ hremoves
  exact absurd (hlast d hdeletes) hlt.asymm

end State

/-- Where every message is handled before newer writes of its keys begin, its handler takes nothing
out of the index that is of a live key or of a write completed later. -/
theorem spared_of_timely (index : RedisTagIndex) (instanceId : String) (as : List Action)
    (h : Along (step index instanceId) Timely initial as) : Spared index instanceId as := by
  rintro as₁ n as₂ rfl s₁ s₂ s hrun hs hrest
  have htimely : s₁.Timely (.handle n) := h.of_append hrun
  obtain ⟨hinv, hnumbered, hlive⟩ := inv_of_run hrun
  obtain ⟨t, ht, rfl⟩ := step_cases hs
  constructor
  · intro key hkey
    have hkeeps : s₁.Keeps index t key := htimely.keeps hinv hnumbered hlive ht hkey
    exact ⟨hkeeps.entries, hkeeps.tag, hkeeps.prefix'⟩
  intro set x hbefore hafter i hi time htime
  obtain ⟨delivery, hn, hremoves⟩ := removes_of_handle hinv ht hbefore hafter
  obtain ⟨call, hcall, hwrite, hbegun, hkey⟩ := hinv.authors set x i hi
  have hnumber : i < s₁.clock := hnumbered i (by simp [hcall])
  obtain ⟨time', hphase, hlt⟩ :=
    (htimely delivery hn i hnumber call hcall hwrite (hkey ▸ hremoves)).2 hbegun
  have hcompleted : s₁.completedAt i = some time' :=
    completedAt_eq_some.mpr ⟨call, hcall, hphase⟩
  have hlater :=
    completedAt_run (hnumbered.step hs) hrest (completedAt_step hnumbered hs hcompleted)
  cases hlater.symm.trans htime
  exact hlt.le

def oneShard : RedisTagIndex := ⟨1, Nat.one_pos⟩

def deletion : InvalidationMessage := ⟨.key, some ["user"], "a", some .delete⟩

/-- The key is written and deleted, another key is written, and the message comes before the key
is written again. -/
def onTime : List Action :=
  [.start "user" (.write (some ["team"])), .read 0, .send 0, .send 0, .send 0, .send 0, .complete 0,
    .start "user" .delete, .read 7, .send 7, .send 7, .send 7, .complete 7,
    .start "other" (.write (some ["team"])), .read 13, .send 13, .send 13, .send 13, .send 13,
    .publish deletion [7], .complete 13, .handle 19, .handle 19, .handle 19, .handle 19, .handle 19,
    .start "user" (.write none), .read 26, .send 26, .complete 26]

theorem spared_onTime : Along (step oneShard "b") Timely initial onTime ∧
    Spared oneShard "b" onTime := by
  have htimely : Along (step oneShard "b") Timely initial onTime := by decide +kernel
  exact ⟨htimely, spared_of_timely oneShard "b" onTime htimely⟩

/-- The key is deleted, and written again while the message is on its way. -/
def beforeMessage : List Action :=
  [.start "user" .delete, .read 0, .send 0, .send 0, .complete 0, .publish deletion [0],
    .start "user" (.write (some ["team"])), .read 6, .send 6, .send 6, .send 6, .send 6,
    .complete 6, .handle 5, .handle 5]

def afterMessage : List Action := [.handle 5, .handle 5, .handle 5, .handle 5]

/-- The shared layer has the key, and the index does not know it. -/
theorem not_spared_late :
    (∃ s, run (step oneShard "b") initial (beforeMessage ++ .handle 5 :: afterMessage) = some s ∧
      s.shared "user" = true ∧ RedisTagIndex.keysForTag s.db "team" = [] ∧
      oneShard.keysForPrefix s.db "" = []) ∧
    ¬ Spared oneShard "b" (beforeMessage ++ .handle 5 :: afterMessage) := by
  have hend : (run (step oneShard "b") initial (beforeMessage ++ .handle 5 :: afterMessage)).map
      (fun s => (s.shared "user", RedisTagIndex.keysForTag s.db "team",
        oneShard.keysForPrefix s.db "", s.completedAt 6)) = some (true, [], [], some 12) := by
    decide +kernel
  have hbefore : (run (step oneShard "b") initial beforeMessage).map (fun s =>
      (s.db .legacyKnownKeys, s.authors .legacyKnownKeys "user")) = some (["user"], [6]) := by
    decide +kernel
  have hremoved : (run (step oneShard "b") initial (beforeMessage ++ [.handle 5])).map (fun s =>
      s.db .legacyKnownKeys) = some [] := by
    decide +kernel
  obtain ⟨s, hs, hafter⟩ := Option.map_eq_some_iff.mp hend
  obtain ⟨s₁, hs₁, hentry⟩ := Option.map_eq_some_iff.mp hbefore
  obtain ⟨s₂, hs₂, hgone⟩ := Option.map_eq_some_iff.mp hremoved
  simp only [Prod.mk.injEq] at hafter hentry
  obtain ⟨hshared, hkeys, hknown, hcompleted⟩ := hafter
  obtain ⟨hdb, hauthors⟩ := hentry
  have hstep : step oneShard "b" s₁ (.handle 5) = some s₂ := by
    rwa [run_concat, hs₁, Option.bind_some] at hs₂
  have hrest : run (step oneShard "b") s₂ afterMessage = some s := by
    rwa [List.append_cons, run_append, hs₂, Option.bind_some] at hs
  refine ⟨⟨s, hs, hshared, hkeys, hknown⟩, ?_⟩
  intro hspared
  have hle := (hspared beforeMessage 5 afterMessage rfl s₁ s₂ s hs₁ hstep hrest).2
    .legacyKnownKeys "user" (by simp [hdb]) (by simp [hgone]) 6 (by simp [hauthors]) 12 hcompleted
  omega

end LayerCache.LateMessages
