import LayerCache.Stack.Origins

/-! # Expiring keys

An expiry moves the key epochs and then, in every layer and for every key at once, reads
the entry, ends its fresh window and writes it back. Neither the read nor the write goes
through the chain of the key or looks at a fence. `touched` records when a cell was last
written or deleted by anything else, and `rewrites` what the expiries found and replaced;
both decide nothing.
-/

namespace LayerCache

/-- How far an expiry has come with one key in one layer. `readAt` is the step of the read. -/
inductive RewritePhase (V : Type*)
  | reading
  | loaded (found : Option (Item V)) (readAt : ℕ)
  | setting (found : Item V) (readAt : ℕ) (expired : Item V) (ttl : Option Millis)
  | done (found : Bool)
deriving DecidableEq

structure Rewriting (K V : Type*) where
  layer : ℕ
  key : K
  phase : RewritePhase V
deriving DecidableEq

inductive ExpirePhase (K : Type*)
  | rewriting
  | forgetting (todo : List K)
  | publishing
  | resolved
deriving DecidableEq

/-- One run of `expireKeys`, or the handling of another instance's message. -/
structure Expire (K V : Type*) where
  keys : List K
  localOnly : Bool
  rewritings : List (Rewriting K V)
  phase : ExpirePhase K
deriving DecidableEq

/-- A write of an expiry: the entry it had read, and what was there when it wrote. -/
structure Rewrite (K V : Type*) where
  layer : ℕ
  key : K
  found : Item V
  readAt : ℕ
  replaced : Option (Item V)
  touched : ℕ
deriving DecidableEq

/-- The expiries go by the numbers of the steps of the stack. -/
structure ExpiringStack (K V T : Type) where
  stack : Stack K V T
  expires : ℕ → Option (Expire K V)
  touched : ℕ → K → ℕ
  rewrites : List (Rewrite K V)

inductive ExpireAction (K V T : Type)
  | stack (a : Action K V T)
  | expire (keys : List K) (localOnly : Bool)
  | load (expire i : ℕ)
  | resume (expire i : ℕ)
  | rewrite (expire i : ℕ)
  | finish (expire : ℕ)
  | forget (expire : ℕ)
  | publish (expire : ℕ)

variable {K V T : Type}

def Expire.setRewriting (x : Expire K V) (i : ℕ) (r : Rewriting K V) : Expire K V :=
  { x with rewritings := x.rewritings.set i r }

def Expire.missing [DecidableEq K] (x : Expire K V) : List K :=
  x.keys.filter fun k =>
    !x.rewritings.any fun r => decide (r.key = k) && r.phase matches .done true

namespace Store

/-- The cell that a cleanup deletion is about to empty. -/
def wiping (c : Store K V) (t m i : ℕ) : Option (ℕ × K) := do
  let o ← c.orders t
  let st ← o.strands[m]?
  let (lk, _) ← st.wipe i
  some lk

/-- What a deletion under way is about to empty: a cell, or a layer. -/
def erasing (c : Store K V) (b i : ℕ) : Option (ℕ × Option K) := do
  let r ← c.removals b
  r.todo[i]?

end Store

namespace Stack

/-- The action writes or deletes the layer's entry of the key. -/
def Touches (s : Stack K V T) (l : ℕ) (k : K) : Action K V T → Prop
  | .store (.land t m i) => ∃ x ∈ s.store.landing t m i, x.2.layer = l ∧ x.2.key = k
  | .store (.wipe t m i) => (l, k) ∈ s.store.wiping t m i
  | .store (.erase b i) => ∃ x ∈ s.store.erasing b i, x.1 = l ∧ ∀ k' ∈ x.2, k' = k
  | .read (.purge r) => ∃ reader ∈ s.readers r, reader.index = l ∧ reader.key = k
  | .get (.slide g) => ∃ get ∈ s.gets g, get.key = k ∧
      match get.phase with
      | .sliding _ (l' :: _) _ _ _ => l' = l
      | _ => False
  | _ => False

instance [DecidableEq K] (s : Stack K V T) (l : ℕ) (k : K) : DecidablePred (s.Touches l k) :=
  fun a => by
    induction a using Action.casesOn with
    | store a => induction a using StoreAction.casesOn <;> (unfold Touches; infer_instance)
    | read a => induction a using ReadAction.casesOn <;> (unfold Touches; infer_instance)
    | get a =>
      induction a using GetAction.casesOn with
      | slide g =>
        refine @Option.decidableExistsMem _ _ (fun get => @instDecidableAnd _ _ _ ?_) _
        generalize get.phase = phase
        induction phase using GetPhase.casesOn with
        | sliding _ todo => induction todo using List.casesOn <;> infer_instance
        | _ => infer_instance
      | _ => exact isFalse id
    | _ => exact isFalse id

end Stack

namespace ExpiringStack

def initial (now : Millis) (contents : ℕ → K → Option (Stored V × Option Millis)) :
    ExpiringStack K V T where
  stack := .initial now contents
  expires := fun _ => none
  touched := fun _ _ => 0
  rewrites := []

def putExpire (s : ExpiringStack K V T) (e : ℕ) (x : Expire K V) : ExpiringStack K V T :=
  { s with expires := Function.update s.expires e (some x) }

/-- The layers that an expiry goes through: degraded ones are left out. -/
def expiredLayers (cfg : Config) (s : ExpiringStack K V T) (localOnly : Bool) : List ℕ :=
  (List.range cfg.layers).filter fun l =>
    (!localOnly || cfg.isLocal l) && !s.stack.degraded l

variable [DecidableEq K]

/-- `expireKeys`, or a message that says so: the epochs move, and all the reads are issued. -/
def expire (cfg : Config) (s : ExpiringStack K V T) (keys : List K) (localOnly : Bool) :
    ExpiringStack K V T :=
  { s.putExpire s.stack.clock {
      keys
      localOnly
      rewritings := (s.expiredLayers cfg localOnly).flatMap fun l =>
        keys.map fun k => ⟨l, k, .reading⟩
      phase := .rewriting } with
    stack := { s.stack with store := s.stack.store.bump s.stack.clock (.keys keys) [] } }

def load (s : ExpiringStack K V T) (e i : ℕ) : Option (ExpiringStack K V T) := do
  let x ← s.expires e
  let r ← x.rewritings[i]?
  match r.phase with
  | .reading =>
    some (s.putExpire e (x.setRewriting i { r with
      phase := .loaded (s.stack.store.visible r.layer r.key) s.stack.clock }))
  | _ => none

/-- The answer is looked at: an envelope is written back as expired. -/
def resume (s : ExpiringStack K V T) (e i : ℕ) : Option (ExpiringStack K V T) := do
  let x ← s.expires e
  let r ← x.rewritings[i]?
  match r.phase with
  | .loaded none _ => some (s.putExpire e (x.setRewriting i { r with phase := .done false }))
  | .loaded (some found) readAt =>
    let now := s.stack.store.now
    let expired := expireStoredEnvelope now found.stored now
    some (s.putExpire e (x.setRewriting i { r with
      phase :=
        if isStoredValueEnvelope now found.stored then
          .setting found readAt ⟨expired, found.born⟩ (remainingStoredTtlMs now expired now)
        else .done true }))
  | _ => none

def rewrite (s : ExpiringStack K V T) (e i : ℕ) : Option (ExpiringStack K V T) := do
  let x ← s.expires e
  let r ← x.rewritings[i]?
  match r.phase with
  | .setting found readAt expired ttl =>
    some { s.putExpire e (x.setRewriting i { r with phase := .done true }) with
      stack := { s.stack with
        store := s.stack.store.layerSet ⟨r.layer, r.key, expired, ttl⟩ none }
      rewrites := {
        layer := r.layer
        key := r.key
        found
        readAt
        replaced := (s.stack.store.cells r.layer r.key).map Cell.item
        touched := s.touched r.layer r.key } :: s.rewrites }
  | _ => none

/-- Every layer has been gone through. A message is handled with that. -/
def finish (s : ExpiringStack K V T) (e : ℕ) : Option (ExpiringStack K V T) := do
  let x ← s.expires e
  match x.phase with
  | .rewriting =>
    if x.rewritings.all fun r => r.phase matches .done _ then
      some (s.putExpire e { x with
        phase := if x.localOnly then .resolved else .forgetting x.missing })
    else none
  | _ => none

/-- The keys that were nowhere leave the tag index one by one. -/
def forget [DecidableEq T] (s : ExpiringStack K V T) (e : ℕ) : Option (ExpiringStack K V T) := do
  let x ← s.expires e
  match x.phase with
  | .forgetting [] => some (s.putExpire e { x with phase := .publishing })
  | .forgetting (key :: rest) =>
    some { s.putExpire e { x with phase := .forgetting rest } with
      stack := { s.stack with index := s.stack.index.remove key } }
  | _ => none

def publish (s : ExpiringStack K V T) (e : ℕ) : Option (ExpiringStack K V T) := do
  let x ← s.expires e
  match x.phase with
  | .publishing =>
    some { s.putExpire e { x with phase := .resolved } with
      stack := { s.stack with
        outbox := s.stack.outbox ++ [⟨.keys x.keys, .expire, s.stack.clock⟩] } }
  | _ => none

def actStack [DecidableEq T] (cfg : Config) (s : ExpiringStack K V T) (a : Action K V T) :
    Option (ExpiringStack K V T) :=
  (s.stack.act cfg a).map fun stack =>
    { s with
      stack
      touched := fun l k => if s.stack.Touches l k a then s.stack.clock else s.touched l k }

def act [DecidableEq T] (cfg : Config) (s : ExpiringStack K V T) :
    ExpireAction K V T → Option (ExpiringStack K V T)
  | .stack a => s.actStack cfg a
  | .expire keys localOnly => some (s.expire cfg keys localOnly)
  | .load e i => s.load e i
  | .resume e i => s.resume e i
  | .rewrite e i => s.rewrite e i
  | .finish e => s.finish e
  | .forget e => s.forget e
  | .publish e => s.publish e

def step [DecidableEq T] (cfg : Config) (s : ExpiringStack K V T) (a : ExpireAction K V T) :
    Option (ExpiringStack K V T) :=
  (s.act cfg a).map fun s' => { s' with stack := { s'.stack with clock := s.stack.clock + 1 } }

variable {cfg : Config} {s s' : ExpiringStack K V T} {e i : ℕ}

omit [DecidableEq K] in
theorem load_spec (h : s.load e i = some s') : ∃ x r, s.expires e = some x ∧
    x.rewritings[i]? = some r ∧ r.phase = .reading ∧
      s' = s.putExpire e (x.setRewriting i { r with
        phase := .loaded (s.stack.store.visible r.layer r.key) s.stack.clock }) := by
  simp only [load, Option.bind_eq_bind, Option.bind_eq_some_iff] at h
  obtain ⟨x, hx, r, hr, h⟩ := h
  split at h
  · cases h
    exact ⟨x, r, hx, hr, ‹_›, rfl⟩
  · cases h

omit [DecidableEq K] in
theorem resume_spec (h : s.resume e i = some s') : ∃ x r phase, s.expires e = some x ∧
    x.rewritings[i]? = some r ∧ s' = s.putExpire e (x.setRewriting i { r with phase }) ∧
      ((∃ found, phase = .done found) ∨ ∃ found readAt,
        r.phase = .loaded (some found) readAt ∧
          isStoredValueEnvelope s.stack.store.now found.stored = true ∧
          phase = .setting found readAt
            ⟨expireStoredEnvelope s.stack.store.now found.stored s.stack.store.now, found.born⟩
            (remainingStoredTtlMs s.stack.store.now (expireStoredEnvelope s.stack.store.now
              found.stored s.stack.store.now) s.stack.store.now)) := by
  simp only [resume, Option.bind_eq_bind, Option.bind_eq_some_iff] at h
  obtain ⟨x, hx, r, hr, h⟩ := h
  split at h
  · cases h
    exact ⟨x, r, _, hx, hr, rfl, .inl ⟨false, rfl⟩⟩
  · rename_i found readAt hphase
    cases h
    refine ⟨x, r, _, hx, hr, rfl, ?_⟩
    split
    · exact .inr ⟨found, readAt, hphase, ‹_›, rfl⟩
    · exact .inl ⟨true, rfl⟩
  · cases h

theorem rewrite_spec (h : s.rewrite e i = some s') : ∃ x r found readAt expired ttl,
    s.expires e = some x ∧ x.rewritings[i]? = some r ∧
      r.phase = .setting found readAt expired ttl ∧
      s' = { s.putExpire e (x.setRewriting i { r with phase := .done true }) with
        stack := { s.stack with
          store := s.stack.store.layerSet ⟨r.layer, r.key, expired, ttl⟩ none }
        rewrites := ⟨r.layer, r.key, found, readAt,
          (s.stack.store.cells r.layer r.key).map Cell.item, s.touched r.layer r.key⟩ ::
            s.rewrites } := by
  simp only [rewrite, Option.bind_eq_bind, Option.bind_eq_some_iff] at h
  obtain ⟨x, hx, r, hr, h⟩ := h
  split at h
  · cases h
    exact ⟨x, r, _, _, _, _, hx, hr, ‹_›, rfl⟩
  · cases h

theorem finish_spec (h : s.finish e = some s') : ∃ x phase,
    s.expires e = some x ∧ s' = s.putExpire e { x with phase } := by
  simp only [finish, Option.bind_eq_bind, Option.bind_eq_some_iff] at h
  obtain ⟨x, hx, h⟩ := h
  split at h
  · simp only [Option.ite_none_right_eq_some, Option.some.injEq] at h
    obtain ⟨-, rfl⟩ := h
    exact ⟨x, _, hx, rfl⟩
  · cases h

theorem forget_spec [DecidableEq T] (h : s.forget e = some s') : ∃ x phase index,
    s.expires e = some x ∧
      s' = { s.putExpire e { x with phase } with stack := { s.stack with index } } := by
  simp only [forget, Option.bind_eq_bind, Option.bind_eq_some_iff] at h
  obtain ⟨x, hx, h⟩ := h
  split at h
  · cases h
    exact ⟨x, _, s.stack.index, hx, rfl⟩
  · cases h
    exact ⟨x, _, _, hx, rfl⟩
  · cases h

omit [DecidableEq K] in
theorem publish_spec (h : s.publish e = some s') : ∃ x phase outbox, s.expires e = some x ∧
    s' = { s.putExpire e { x with phase } with stack := { s.stack with outbox } } := by
  simp only [publish, Option.bind_eq_bind, Option.bind_eq_some_iff] at h
  obtain ⟨x, hx, h⟩ := h
  split at h
  · cases h
    exact ⟨x, _, _, hx, rfl⟩
  · cases h

theorem actStack_spec [DecidableEq T] {a : Action K V T} (h : s.actStack cfg a = some s') :
    ∃ stack, s.stack.act cfg a = some stack ∧ s' = { s with
      stack
      touched := fun l k => if s.stack.Touches l k a then s.stack.clock else s.touched l k } := by
  simp only [actStack, Option.map_eq_some_iff] at h
  obtain ⟨stack, hact, rfl⟩ := h
  exact ⟨stack, hact, rfl⟩

end ExpiringStack

end LayerCache
