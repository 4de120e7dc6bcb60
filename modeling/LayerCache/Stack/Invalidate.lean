import LayerCache.Stack.Basic

/-! # Invalidations

A deletion or a clear moves the epochs and issues its layer deletions in one step, waits
for them, drops the keys from the index and publishes. Handling another instance's
message is the same with the local layers only, and publishes nothing.
-/

namespace LayerCache

variable {K V T : Type}

namespace Stack

/-- `delete`, `mdelete` and the tag, pattern and prefix invalidations, once they have collected
their keys. -/
def delete (s : Stack K V T) (keys : List K) (operation : Operation) : Option (Stack K V T) :=
  some (s.putInvalidation s.clock {
    target := .keys keys
    localOnly := false
    forgets := true
    publishes := some operation
    handles := none
    bumped := none
    phase := .called })

def clear (s : Stack K V T) : Option (Stack K V T) :=
  some (s.putInvalidation s.clock {
    target := .all
    localOnly := false
    forgets := true
    publishes := some .clear
    handles := none
    bumped := none
    phase := .called })

/-- A message of another instance; a write only concerns the local layers. -/
def handle (s : Stack K V T) (message : Message K) : Option (Stack K V T) :=
  some (s.putInvalidation s.clock {
    target := message.target
    localOnly := true
    forgets := message.operation ≠ .write
    publishes := none
    handles := some message.sent
    bumped := none
    phase := .called })

/-- The layers that an invalidation deletes from: degraded ones are left out, except by a
clear. -/
def invalidatedLayers (cfg : Config) (s : Stack K V T) (inv : Invalidation K) : List ℕ :=
  (List.range cfg.layers).filter fun l =>
    (!inv.localOnly || cfg.isLocal l) &&
      match inv.target with
      | .keys _ => !s.degraded l
      | .all => true

variable [DecidableEq K]

def bump (cfg : Config) (s : Stack K V T) (d : ℕ) : Option (Stack K V T) := do
  let inv ← s.invalidations d
  match inv.phase with
  | .called =>
    some { s.putInvalidation d { inv with bumped := some s.clock, phase := .removing s.clock } with
      store := s.store.bump s.clock inv.target (s.invalidatedLayers cfg inv)
      writeBehindQueue :=
        match inv.target with
        | .keys _ => s.writeBehindQueue
        | .all => [] }
  | _ => none

def removed (s : Stack K V T) (d : ℕ) : Option (Stack K V T) := do
  let inv ← s.invalidations d
  match inv.phase with
  | .removing removal => do
    let r ← s.store.removals removal
    if r.todo.isEmpty then
      some (s.putInvalidation d { inv with
        phase :=
          if inv.forgets then
            match inv.target with
            | .keys keys => .forgetting keys
            | .all => .forgettingAll
          else .publishing })
    else none
  | _ => none

def forget [DecidableEq T] (s : Stack K V T) (d : ℕ) : Option (Stack K V T) := do
  let inv ← s.invalidations d
  match inv.phase with
  | .forgetting [] => some (s.putInvalidation d { inv with phase := .publishing })
  | .forgetting (key :: rest) =>
    some { s.putInvalidation d { inv with phase := .forgetting rest } with
      index := s.index.remove key }
  | .forgettingAll =>
    some { s.putInvalidation d { inv with phase := .publishing } with index := s.index.clear }
  | _ => none

def publish (s : Stack K V T) (d : ℕ) : Option (Stack K V T) := do
  let inv ← s.invalidations d
  match inv.phase with
  | .publishing =>
    some { s.putInvalidation d { inv with phase := .resolved s.clock } with
      outbox :=
        match inv.publishes with
        | some operation => s.outbox ++ [⟨inv.target, operation, s.clock⟩]
        | none => s.outbox }
  | _ => none

variable {cfg : Config} {s s' : Stack K V T} {d : ℕ}

theorem bump_spec (h : s.bump cfg d = some s') : ∃ inv queue, s.invalidations d = some inv ∧
    inv.phase = .called ∧
      ((∃ ks, inv.target = .keys ks ∧ queue = s.writeBehindQueue) ∨
        (inv.target = .all ∧ queue = [])) ∧
      s' = { s.putInvalidation d
          { inv with bumped := some s.clock, phase := .removing s.clock } with
        store := s.store.bump s.clock inv.target (s.invalidatedLayers cfg inv)
        writeBehindQueue := queue } := by
  simp only [bump, Option.bind_eq_bind, Option.bind_eq_some_iff] at h
  obtain ⟨inv, hd, h⟩ := h
  split at h
  · rename_i hphase
    cases h
    refine ⟨inv, _, hd, hphase, ?_, rfl⟩
    cases htarget : inv.target with
    | keys ks => exact .inl ⟨ks, rfl, rfl⟩
    | all => exact .inr ⟨rfl, rfl⟩
  · cases h

omit [DecidableEq K] in
theorem removed_spec (h : s.removed d = some s') : ∃ inv b r, s.invalidations d = some inv ∧
    inv.phase = .removing b ∧ s.store.removals b = some r ∧ r.todo = [] ∧
      s' = s.putInvalidation d { inv with
        phase :=
          if inv.forgets then
            match inv.target with
            | .keys keys => .forgetting keys
            | .all => .forgettingAll
          else .publishing } := by
  simp only [removed, Option.bind_eq_bind, Option.bind_eq_some_iff] at h
  obtain ⟨inv, hd, h⟩ := h
  split at h
  · rename_i b hphase
    simp only [Option.bind_eq_some_iff] at h
    obtain ⟨r, hr, h⟩ := h
    split at h
    · rename_i htodo
      cases h
      exact ⟨inv, b, r, hd, hphase, hr, by simpa using htodo, rfl⟩
    · cases h
  · cases h

theorem forget_spec [DecidableEq T] (h : s.forget d = some s') : ∃ inv,
    s.invalidations d = some inv ∧
      ((inv.phase = .forgetting [] ∧
        s' = s.putInvalidation d { inv with phase := .publishing }) ∨
      (∃ key rest, inv.phase = .forgetting (key :: rest) ∧
        s' = { s.putInvalidation d { inv with phase := .forgetting rest } with
          index := s.index.remove key }) ∨
      (inv.phase = .forgettingAll ∧
        s' = { s.putInvalidation d { inv with phase := .publishing } with
          index := s.index.clear })) := by
  simp only [forget, Option.bind_eq_bind, Option.bind_eq_some_iff] at h
  obtain ⟨inv, hd, h⟩ := h
  split at h <;> cases h
  · exact ⟨inv, hd, .inl ⟨‹_›, rfl⟩⟩
  · exact ⟨inv, hd, .inr (.inl ⟨_, _, ‹_›, rfl⟩)⟩
  · exact ⟨inv, hd, .inr (.inr ⟨‹_›, rfl⟩)⟩

omit [DecidableEq K] in
theorem publish_spec (h : s.publish d = some s') : ∃ inv outbox, s.invalidations d = some inv ∧
    inv.phase = .publishing ∧
      ((inv.publishes = none ∧ outbox = s.outbox) ∨
        (∃ operation, inv.publishes = some operation ∧
          outbox = s.outbox ++ [⟨inv.target, operation, s.clock⟩])) ∧
      s' = { s.putInvalidation d { inv with phase := .resolved s.clock } with outbox } := by
  simp only [publish, Option.bind_eq_bind, Option.bind_eq_some_iff] at h
  obtain ⟨inv, hd, h⟩ := h
  split at h
  · rename_i hphase
    cases h
    refine ⟨inv, _, hd, hphase, ?_, rfl⟩
    cases hp : inv.publishes with
    | none => exact .inl ⟨rfl, rfl⟩
    | some operation => exact .inr ⟨operation, rfl, rfl⟩
  · cases h

end Stack

end LayerCache
