import LayerCache.Stack.Basic

/-! # Reads

A read goes through the layers in order. An expired entry is deleted on the way; the
first entry it can use is written back to the layers before it, under the fence the
read captured when it began; and when no layer had anything to keep, the key leaves
the tag index.
-/

namespace LayerCache

variable {K V T : Type}

/-- The value of a hit, `undefined` for a negative entry. -/
def hitValue (now : Millis) (stored : Stored V) : Js V :=
  match stored with
  | .plain _ => (resolveStoredValue now stored now).value
  | .envelope e =>
    if isStoredValueEnvelope now stored && e.kind = .empty then .undefined
    else (resolveStoredValue now stored now).value

namespace Reader

/-- On to the next layer, or to the end of the read after the last one. -/
def next (reader : Reader K V) (layers : ℕ) : Reader K V :=
  if reader.index + 1 < layers then { reader with index := reader.index + 1, phase := .ready }
  else { reader with phase := if reader.sawRetainableValue then .done none else .missed }

/-- What the read does with the answer of layer `index`, at the time `now`. -/
def resume (reader : Reader K V) (layers : ℕ) (now : Millis) : Option (Reader K V) :=
  match reader.phase with
  | .loaded none => some (reader.next layers)
  | .loaded (some item) =>
    let resolved := resolveStoredValue now item.stored now
    if resolved.state = .expired then some { reader with phase := .purging }
    else
      let reader := { reader with sawRetainableValue := true }
      if reader.mode = .freshOnly ∧ resolved.state ≠ .fresh then some (reader.next layers)
      else some { reader with
        phase := .touched ⟨item, hitValue now item.stored, resolved.state, reader.index⟩ }
  | _ => none

end Reader

namespace Stack

def openReader [DecidableEq K] (s : Stack K V T) (key : K) (mode : ReadMode) : Stack K V T :=
  s.putReader s.clock {
    key, mode
    fence := s.store.epochs.fence key
    captured := s.clock
    index := 0
    sawRetainableValue := false
    phase := .ready }

/-- A read or one key of a batched read, without fetcher. -/
def read [DecidableEq K] (s : Stack K V T) (key : K) : Option (Stack K V T) :=
  some (s.openReader key .allowStale)

/-- The layer answers; a degraded layer is not asked and counts as empty. -/
def load (s : Stack K V T) (r : ℕ) : Option (Stack K V T) := do
  let reader ← s.readers r
  match reader.phase with
  | .ready =>
    some (s.putReader r { reader with
      phase := .loaded
        (if s.degraded reader.index then none else s.store.visible reader.index reader.key) })
  | _ => none

/-- A read that its layer fails and the stack gets over. -/
def loadFail (s : Stack K V T) (r : ℕ) : Option (Stack K V T) := do
  let reader ← s.readers r
  match reader.phase with
  | .ready => some (s.putReader r { reader with phase := .loaded none })
  | _ => none

variable [DecidableEq K]

/-- The read goes on with what the layer answered. A hit touches the index. -/
def resume (cfg : Config) (s : Stack K V T) (r : ℕ) : Option (Stack K V T) := do
  let reader ← s.readers r
  let reader ← reader.resume cfg.layers s.store.now
  let s := s.putReader r reader
  match reader.phase with
  | .touched _ => some { s with index := s.index.touch reader.key }
  | _ => some s

/-- The deletion of an expired entry reaches the layer it was found in. -/
def purge (cfg : Config) (s : Stack K V T) (r : ℕ) : Option (Stack K V T) := do
  let reader ← s.readers r
  match reader.phase with
  | .purging =>
    some { s.putReader r (reader.next cfg.layers) with
      store := s.store.layerDelete reader.index reader.key }
  | _ => none

/-- The order of a backfill: the entry goes to every layer before the one it was found in,
and the cleanup covers all of these. `ttls` is what the options and layer defaults say for an
entry without deadlines. -/
def backfillOrder (s : Stack K V T) (reader : Reader K V) (hit : Hit V)
    (ttls : ℕ → Option Millis) : Order K V where
  kind := .backfill
  keys := [reader.key]
  fence _ := reader.fence
  captured := reader.captured
  strands := [.plan
    (((List.range hit.layerIndex).filter fun l => !s.degraded l).map fun l =>
      { layer := l, key := reader.key, item := hit.item,
        ttl := (remainingStoredTtlMs s.store.now hit.item.stored s.store.now).or (ttls l) })
    (List.range hit.layerIndex)]

def backfill (s : Stack K V T) (r : ℕ) (ttls : ℕ → Option Millis) : Option (Stack K V T) := do
  let reader ← s.readers r
  match reader.phase with
  | .touched hit =>
    if hit.layerIndex = 0 then some (s.putReader r { reader with phase := .done (some hit) })
    else
      some { s.putReader r { reader with phase := .backfilling hit s.clock } with
        store := s.store.enlist s.clock (s.backfillOrder reader hit ttls) }
  | _ => none

/-- A backfill that an admission limit refuses fails the read. -/
def refuse (s : Stack K V T) (r : ℕ) : Option (Stack K V T) := do
  let reader ← s.readers r
  match reader.phase with
  | .touched hit =>
    if hit.layerIndex = 0 then none else some (s.putReader r { reader with phase := .failed })
  | _ => none

def backfilled (s : Stack K V T) (r : ℕ) : Option (Stack K V T) := do
  let reader ← s.readers r
  match reader.phase with
  | .backfilling hit order =>
    if s.store.chain.settledAt order then
      some (s.putReader r { reader with phase := .done (some hit) })
    else none
  | _ => none

def unindex [DecidableEq T] (s : Stack K V T) (r : ℕ) : Option (Stack K V T) := do
  let reader ← s.readers r
  match reader.phase with
  | .missed =>
    some { s.putReader r { reader with phase := .done none } with
      index := s.index.remove reader.key }
  | _ => none

/-- A read fails with the deletion that its layer fails: the one of an expired entry or one of
the cleanup of its backfill. -/
def failRead (s : Stack K V T) (r : ℕ) : Option (Stack K V T) := do
  let reader ← s.readers r
  match reader.phase with
  | .purging | .backfilling _ _ => some (s.putReader r { reader with phase := .failed })
  | _ => none

end Stack

section

variable {layers : ℕ} {now : Millis} {reader reader' : Reader K V}

theorem Reader.next_cases (reader : Reader K V) (layers : ℕ) :
    (reader.index + 1 < layers ∧
      reader.next layers = { reader with index := reader.index + 1, phase := .ready }) ∨
    (¬ reader.index + 1 < layers ∧ reader.sawRetainableValue = true ∧
      reader.next layers = { reader with phase := .done none }) ∨
    (¬ reader.index + 1 < layers ∧ reader.sawRetainableValue = false ∧
      reader.next layers = { reader with phase := .missed }) := by
  unfold Reader.next
  by_cases h : reader.index + 1 < layers
  · simp [h]
  · cases hs : reader.sawRetainableValue <;> simp [h]

/-- What the read does with an answer: on for nothing, a purge for an expired entry, on for an
entry that is not fresh enough, and a hit otherwise. -/
inductive Reader.Resumes (layers : ℕ) (now : Millis) (reader : Reader K V) : Reader K V → Prop
  | empty (h : reader.phase = .loaded none) : Resumes layers now reader (reader.next layers)
  | expired (item : Item V) (h : reader.phase = .loaded (some item))
      (hstate : (resolveStoredValue now item.stored now).state = .expired) :
      Resumes layers now reader { reader with phase := .purging }
  | unfresh (item : Item V) (h : reader.phase = .loaded (some item))
      (hstate : (resolveStoredValue now item.stored now).state ≠ .expired)
      (hmode : reader.mode = .freshOnly)
      (hfresh : (resolveStoredValue now item.stored now).state ≠ .fresh) :
      Resumes layers now reader ({ reader with sawRetainableValue := true }.next layers)
  | hit (item : Item V) (h : reader.phase = .loaded (some item))
      (hstate : (resolveStoredValue now item.stored now).state ≠ .expired)
      (hmode : reader.mode = .freshOnly → (resolveStoredValue now item.stored now).state = .fresh) :
      Resumes layers now reader { reader with
        sawRetainableValue := true
        phase := .touched ⟨item, hitValue now item.stored,
          (resolveStoredValue now item.stored now).state, reader.index⟩ }

theorem Reader.resumes_of_resume (h : reader.resume layers now = some reader') :
    reader.Resumes layers now reader' := by
  unfold Reader.resume at h
  split at h
  · cases h
    exact .empty ‹_›
  · rename_i item hphase
    simp only at h
    split_ifs at h with hexp hmode
    · cases h
      exact .expired item hphase hexp
    · cases h
      exact .unfresh item hphase hexp hmode.1 hmode.2
    · cases h
      refine .hit item hphase hexp fun hm => ?_
      by_contra hne
      exact hmode ⟨hm, hne⟩
  · cases h

end

namespace Stack

variable {cfg : Config} {s s' : Stack K V T} {r : ℕ}

theorem load_spec (h : s.load r = some s') : ∃ reader, s.readers r = some reader ∧
    reader.phase = .ready ∧ s' = s.putReader r { reader with
      phase := .loaded
        (if s.degraded reader.index then none else s.store.visible reader.index reader.key) } := by
  simp only [load, Option.bind_eq_bind, Option.bind_eq_some_iff] at h
  obtain ⟨reader, hr, h⟩ := h
  split at h <;> cases h
  exact ⟨reader, hr, ‹_›, rfl⟩

theorem loadFail_spec (h : s.loadFail r = some s') : ∃ reader, s.readers r = some reader ∧
    reader.phase = .ready ∧ s' = s.putReader r { reader with phase := .loaded none } := by
  simp only [loadFail, Option.bind_eq_bind, Option.bind_eq_some_iff] at h
  obtain ⟨reader, hr, h⟩ := h
  split at h <;> cases h
  exact ⟨reader, hr, ‹_›, rfl⟩

variable [DecidableEq K]

theorem resume_spec (h : s.resume cfg r = some s') : ∃ reader reader' index,
    s.readers r = some reader ∧ reader.Resumes cfg.layers s.store.now reader' ∧
      (index = s.index ∨ index = s.index.touch reader'.key) ∧
      s' = { s.putReader r reader' with index } := by
  simp only [resume, Option.bind_eq_bind, Option.bind_eq_some_iff] at h
  obtain ⟨reader, hr, reader', hres, h⟩ := h
  split at h <;> cases h
  · exact ⟨reader, reader', _, hr, Reader.resumes_of_resume hres, .inr rfl, rfl⟩
  · exact ⟨reader, reader', _, hr, Reader.resumes_of_resume hres, .inl rfl, rfl⟩

theorem purge_spec (h : s.purge cfg r = some s') : ∃ reader, s.readers r = some reader ∧
    reader.phase = .purging ∧ s' = { s.putReader r (reader.next cfg.layers) with
      store := s.store.layerDelete reader.index reader.key } := by
  simp only [purge, Option.bind_eq_bind, Option.bind_eq_some_iff] at h
  obtain ⟨reader, hr, h⟩ := h
  split at h <;> cases h
  exact ⟨reader, hr, ‹_›, rfl⟩

theorem backfill_spec {ttls : ℕ → Option Millis} (h : s.backfill r ttls = some s') :
    ∃ reader hit, s.readers r = some reader ∧ reader.phase = .touched hit ∧
      ((hit.layerIndex = 0 ∧ s' = s.putReader r { reader with phase := .done (some hit) }) ∨
      (hit.layerIndex ≠ 0 ∧
        s' = { s.putReader r { reader with phase := .backfilling hit s.clock } with
          store := s.store.enlist s.clock (s.backfillOrder reader hit ttls) })) := by
  simp only [backfill, Option.bind_eq_bind, Option.bind_eq_some_iff] at h
  obtain ⟨reader, hr, h⟩ := h
  split at h
  · rename_i hit hphase
    split_ifs at h with hl <;> cases h
    · exact ⟨reader, hit, hr, hphase, .inl ⟨hl, rfl⟩⟩
    · exact ⟨reader, hit, hr, hphase, .inr ⟨hl, rfl⟩⟩
  · cases h

omit [DecidableEq K] in
theorem refuse_spec (h : s.refuse r = some s') : ∃ reader hit, s.readers r = some reader ∧
    reader.phase = .touched hit ∧ s' = s.putReader r { reader with phase := .failed } := by
  simp only [refuse, Option.bind_eq_bind, Option.bind_eq_some_iff] at h
  obtain ⟨reader, hr, h⟩ := h
  split at h
  · rename_i hit hphase
    split_ifs at h
    cases h
    exact ⟨reader, hit, hr, hphase, rfl⟩
  · cases h

omit [DecidableEq K] in
theorem backfilled_spec (h : s.backfilled r = some s') : ∃ reader hit order,
    s.readers r = some reader ∧ reader.phase = .backfilling hit order ∧
      s.store.chain.settledAt order = true ∧
      s' = s.putReader r { reader with phase := .done (some hit) } := by
  simp only [backfilled, Option.bind_eq_bind, Option.bind_eq_some_iff] at h
  obtain ⟨reader, hr, h⟩ := h
  split at h
  · rename_i hit order hphase
    split_ifs at h with hs
    cases h
    exact ⟨reader, hit, order, hr, hphase, hs, rfl⟩
  · cases h

theorem unindex_spec [DecidableEq T] (h : s.unindex r = some s') : ∃ reader,
    s.readers r = some reader ∧ reader.phase = .missed ∧
      s' = { s.putReader r { reader with phase := .done none } with
        index := s.index.remove reader.key } := by
  simp only [unindex, Option.bind_eq_bind, Option.bind_eq_some_iff] at h
  obtain ⟨reader, hr, h⟩ := h
  split at h <;> cases h
  exact ⟨reader, hr, ‹_›, rfl⟩

omit [DecidableEq K] in
theorem failRead_spec (h : s.failRead r = some s') : ∃ reader, s.readers r = some reader ∧
    (reader.phase = .purging ∨ ∃ hit order, reader.phase = .backfilling hit order) ∧
      s' = s.putReader r { reader with phase := .failed } := by
  simp only [failRead, Option.bind_eq_bind, Option.bind_eq_some_iff] at h
  obtain ⟨reader, hr, h⟩ := h
  split at h <;> cases h
  · exact ⟨reader, hr, .inl ‹_›, rfl⟩
  · exact ⟨reader, hr, .inr ⟨_, _, ‹_›⟩, rfl⟩

end Stack

end LayerCache
