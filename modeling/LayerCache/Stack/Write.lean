import LayerCache.Stack.Basic

/-! # Writes

A set is one order over its immediate layers and a write-behind operation for each of the
others; a bulk set has a strand for each layer. When the immediate order is through, the
deferred operations join the queue, and a committed write whose own fence is still
current records its keys and tags in the index.
-/

namespace LayerCache

variable {K V T : Type} [DecidableEq K]

/-- What a write stores: the kind, the value (`none` is `null`) and the windows that its options
resolve to for each layer. -/
structure WriteValue (V : Type*) where
  kind : CacheWriteKind
  value : Option V
  windows : ℕ → Windows

def WriteValue.forMinute (value : V) : WriteValue V :=
  ⟨.value, some value, fun _ => ⟨some 60000, none, none⟩⟩

/-- The envelope and the expiry that a write hands to a layer. -/
def buildLayerSetEntry (key : K) (write : WriteValue V) (born : ℕ) (now : Millis) (layer : ℕ) :
    Put K V :=
  let payload := .envelope
    (createStoredValueEnvelope write.kind write.value (write.windows layer) now)
  { layer, key
    item := ⟨payload, born⟩
    ttl := (remainingStoredTtlMs now payload now).or (write.windows layer).freshTtlMs }

namespace Stack

/-- The order of a set or of a fetched value: its cleanup spares the layers that are degraded when
the write is called. -/
def setOrder (cfg : Config) (s : Stack K V T) (key : K) (write : WriteValue V) (fence : Fence)
    (captured born : ℕ) : Order K V :=
  let immediate := (List.range cfg.layers).filter fun l => !cfg.writeBehind l
  { kind := .set
    keys := [key]
    fence := fun _ => fence
    captured
    strands := [.plan (immediate.map (buildLayerSetEntry key write born s.store.now))
      (immediate.filter fun l => !s.degraded l)] }

/-- One `set` or one fetched value: the order carries `fence`, the writer captures its own. -/
def storeEntry (cfg : Config) (s : Stack K V T) (key : K) (write : WriteValue V)
    (tags : Option (List T)) (fence : Fence) (captured born : ℕ) : Stack K V T :=
  let writer : Writer K V T := {
    kind := .set
    entries := [⟨key, tags⟩]
    fence := s.store.epochs.fence
    deferred := ((List.range cfg.layers).filter cfg.writeBehind).map fun l =>
      ⟨.set, [key], fun _ => fence, captured,
        .plan [buildLayerSetEntry key write born s.store.now l] [l]⟩
    phase := .storing }
  { s.putWriter s.clock writer with
    store := s.store.enlist s.clock (s.setOrder cfg key write fence captured born) }

def set (cfg : Config) (s : Stack K V T) (key : K) (write : WriteValue V)
    (tags : Option (List T)) : Option (Stack K V T) :=
  some (s.storeEntry cfg key write tags (s.store.epochs.fence key) s.clock s.clock)

def msetStrand (s : Stack K V T) (entries : List (Entry K T × WriteValue V)) (l : ℕ) :
    Strand K V :=
  .plan (entries.map fun e => buildLayerSetEntry e.1.key e.2 s.clock s.store.now l) [l]

def msetOrder (cfg : Config) (s : Stack K V T) (entries : List (Entry K T × WriteValue V)) :
    Order K V where
  kind := .mset
  keys := entries.map fun e => e.1.key
  fence := s.store.epochs.fence
  captured := s.clock
  strands := ((List.range cfg.layers).filter fun l => !s.degraded l && !cfg.writeBehind l).map
    (s.msetStrand entries)

/-- A bulk set leaves out the layers that are degraded when it is called. -/
def mset (cfg : Config) (s : Stack K V T) (entries : List (Entry K T × WriteValue V)) :
    Option (Stack K V T) :=
  let writer : Writer K V T := {
    kind := .mset
    entries := entries.map (·.1)
    fence := s.store.epochs.fence
    deferred := ((List.range cfg.layers).filter fun l => !s.degraded l && cfg.writeBehind l).map
      fun l => ⟨.mset, entries.map fun e => e.1.key, s.store.epochs.fence, s.clock,
        s.msetStrand entries l⟩
    phase := .storing }
  some { s.putWriter s.clock writer with
    store := s.store.enlist s.clock (s.msetOrder cfg entries) }

/-- The immediate order is through: the deferred operations join the queue. -/
def enqueue (s : Stack K V T) (w : ℕ) : Option (Stack K V T) := do
  let writer ← s.writers w
  match writer.phase with
  | .storing =>
    if s.store.chain.settledAt w then
      some { s.putWriter w { writer with phase := .enqueued } with
        writeBehindQueue := s.writeBehindQueue ++ writer.deferred }
    else none
  | _ => none

/-- Whether there is anything to record: a set must have committed, a bulk set only looks at the
clear epoch here. -/
def verify (s : Stack K V T) (w : ℕ) : Option (Stack K V T) := do
  let writer ← s.writers w
  let order ← s.store.orders w
  match writer.phase with
  | .enqueued =>
    let goesOn :=
      if writer.kind = .mset then
        writer.entries.all fun e =>
          (writer.fence e.key).clearEpoch = s.store.epochs.clearEpoch
      else order.committed
    some (s.putWriter w { writer with
      phase := if goesOn then .tracking writer.entries else .done })
  | _ => none

/-- The next key is recorded unless it is outdated: a set is over then, a bulk set goes on. -/
def track [DecidableEq T] (s : Stack K V T) (w : ℕ) : Option (Stack K V T) := do
  let writer ← s.writers w
  match writer.phase with
  | .tracking [] => some (s.putWriter w { writer with phase := .announcing })
  | .tracking (entry :: rest) =>
    if s.store.epochs.isWriteOutdated entry.key (writer.fence entry.key) then
      some (s.putWriter w { writer with
        phase := if writer.kind = .mset then .tracking rest else .done })
    else
      some { s.putWriter w { writer with phase := .tracking rest } with
        index :=
          match entry.tags with
          | some tags => s.index.track entry.key tags
          | none => s.index.touch entry.key }
  | _ => none

def announce (cfg : Config) (s : Stack K V T) (w : ℕ) : Option (Stack K V T) := do
  let writer ← s.writers w
  match writer.phase with
  | .announcing =>
    some { s.putWriter w { writer with phase := .done } with
      outbox :=
        if cfg.broadcastL1Invalidation then
          s.outbox ++ [⟨.keys (writer.entries.map (·.key)), .write, s.clock⟩]
        else s.outbox }
  | _ => none

def flush (cfg : Config) (s : Stack K V T) : Option (Stack K V T) :=
  match s.flushing, s.writeBehindQueue with
  | none, _ :: _ =>
    some { s with
      flushing := some (s.writeBehindQueue.take cfg.batchSize, none)
      writeBehindQueue := s.writeBehindQueue.drop cfg.batchSize }
  | _, _ => none

def flushNext (s : Stack K V T) : Option (Stack K V T) := do
  let (batch, running) ← s.flushing
  if running.all s.store.chain.settledAt then
    match batch with
    | [] => some { s with flushing := none }
    | d :: rest =>
      some { s with
        flushing := some (rest, some s.clock)
        store := s.store.enlist s.clock {
          kind := d.kind, keys := d.keys, fence := d.fence, captured := d.captured
          strands := [d.strand] } }
  else none

variable {cfg : Config} {s s' : Stack K V T} {w : ℕ}

omit [DecidableEq K] in
theorem enqueue_spec (h : s.enqueue w = some s') : ∃ writer, s.writers w = some writer ∧
    writer.phase = .storing ∧ s.store.chain.settledAt w = true ∧
      s' = { s.putWriter w { writer with phase := .enqueued } with
        writeBehindQueue := s.writeBehindQueue ++ writer.deferred } := by
  simp only [enqueue, Option.bind_eq_bind, Option.bind_eq_some_iff] at h
  obtain ⟨writer, hw, h⟩ := h
  split at h
  · split_ifs at h with hs
    cases h
    exact ⟨writer, hw, ‹_›, hs, rfl⟩
  · cases h

omit [DecidableEq K] in
theorem verify_spec (h : s.verify w = some s') : ∃ writer order phase,
    s.writers w = some writer ∧ s.store.orders w = some order ∧ writer.phase = .enqueued ∧
      (phase = .done ∨
        (phase = .tracking writer.entries ∧ (writer.kind ≠ .mset → order.committed = true))) ∧
      (writer.kind ≠ .mset → order.committed = true → phase = .tracking writer.entries) ∧
      s' = s.putWriter w { writer with phase } := by
  simp only [verify, Option.bind_eq_bind, Option.bind_eq_some_iff] at h
  obtain ⟨writer, hw, order, ho, h⟩ := h
  split at h
  · rename_i hphase
    cases h
    refine ⟨writer, order, _, hw, ho, hphase, ?_, ?_, rfl⟩
    · by_cases hk : writer.kind = .mset
      · simp only [hk, if_true]
        split
        · exact .inr ⟨rfl, by simp⟩
        · exact .inl rfl
      · simp only [hk, if_false]
        split
        · exact .inr ⟨rfl, fun _ => ‹_›⟩
        · exact .inl rfl
    · intro hk hc
      simp [hk, hc]
  · cases h

theorem track_spec [DecidableEq T] (h : s.track w = some s') : ∃ writer,
    s.writers w = some writer ∧
      ((writer.phase = .tracking [] ∧ s' = s.putWriter w { writer with phase := .announcing }) ∨
      (∃ entry rest, writer.phase = .tracking (entry :: rest) ∧
        s.store.epochs.isWriteOutdated entry.key (writer.fence entry.key) = true ∧
        s' = s.putWriter w { writer with
          phase := if writer.kind = .mset then .tracking rest else .done }) ∨
      (∃ entry rest, writer.phase = .tracking (entry :: rest) ∧
        s.store.epochs.isWriteOutdated entry.key (writer.fence entry.key) = false ∧
        s' = { s.putWriter w { writer with phase := .tracking rest } with
          index :=
            match entry.tags with
            | some tags => s.index.track entry.key tags
            | none => s.index.touch entry.key })) := by
  simp only [track, Option.bind_eq_bind, Option.bind_eq_some_iff] at h
  obtain ⟨writer, hw, h⟩ := h
  split at h
  · cases h
    exact ⟨writer, hw, .inl ⟨‹_›, rfl⟩⟩
  · rename_i entry rest hphase
    split at h <;> cases h
    · exact ⟨writer, hw, .inr (.inl ⟨entry, rest, hphase, ‹_›, rfl⟩)⟩
    · rename_i hout
      exact ⟨writer, hw, .inr (.inr ⟨entry, rest, hphase, by simpa using hout, rfl⟩)⟩
  · cases h

omit [DecidableEq K] in
theorem announce_spec (h : s.announce cfg w = some s') : ∃ writer outbox,
    s.writers w = some writer ∧ writer.phase = .announcing ∧
      (outbox = s.outbox ∨
        outbox = s.outbox ++ [⟨.keys (writer.entries.map (·.key)), .write, s.clock⟩]) ∧
      s' = { s.putWriter w { writer with phase := .done } with outbox } := by
  simp only [announce, Option.bind_eq_bind, Option.bind_eq_some_iff] at h
  obtain ⟨writer, hw, h⟩ := h
  split at h
  · rename_i hphase
    cases h
    refine ⟨writer, _, hw, hphase, ?_, rfl⟩
    split
    · exact .inr rfl
    · exact .inl rfl
  · cases h

omit [DecidableEq K] in
theorem flush_spec (h : s.flush cfg = some s') : s.flushing = none ∧
    s' = { s with
      flushing := some (s.writeBehindQueue.take cfg.batchSize, none)
      writeBehindQueue := s.writeBehindQueue.drop cfg.batchSize } := by
  unfold flush at h
  split at h
  · cases h
    exact ⟨‹_›, rfl⟩
  · cases h

theorem flushNext_spec (h : s.flushNext = some s') : ∃ batch running,
    s.flushing = some (batch, running) ∧ (∀ t ∈ running, s.store.chain.settledAt t = true) ∧
      ((batch = [] ∧ s' = { s with flushing := none }) ∨
      (∃ d rest, batch = d :: rest ∧ s' = { s with
        flushing := some (rest, some s.clock)
        store := s.store.enlist s.clock
          ⟨d.kind, d.keys, d.fence, d.captured, [d.strand]⟩ })) := by
  simp only [flushNext, Option.bind_eq_bind, Option.bind_eq_some_iff, Prod.exists] at h
  obtain ⟨batch, running, hf, h⟩ := h
  split_ifs at h with hall
  refine ⟨batch, running, hf, fun t ht => ?_, ?_⟩
  · cases ht
    exact hall
  · split at h <;> cases h
    · exact .inl ⟨rfl, rfl⟩
    · exact .inr ⟨_, _, rfl, rfl⟩

end Stack

end LayerCache
