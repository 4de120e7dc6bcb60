import LayerCache.Snapshot.Import

/-! # Export and import preserve the visible cache

An export goes by the raw keys of the layers that enumerate them, a read by the keys of
the current generation over all layers. The two agree as long as the current generation comes
first among the raw keys and the layers that enumerate them show what a read finds. A layer that
returns `null` for a key counts as one without an entry.
-/

namespace LayerCache.Snapshot

variable {G S V : Type}

section Reads
variable {layers : List (CacheLayer (Stored V))} {now : Millis} {key : String}
  {stored : Stored V}

theorem of_readFromLayers (h : readFromLayers now key layers = some stored) :
    (resolveStoredValue now stored now).state ≠ .expired ∧
      ∃ layer ∈ layers, readLayerEntry layer now key = some stored := by
  induction layers with
  | nil => cases h
  | cons layer layers ih =>
    rw [List.exists_mem_cons_iff]
    cases hlayer : readLayerEntry layer now key with
    | none =>
      rw [readFromLayers, hlayer] at h
      exact (ih h).imp_right Or.inr
    | some value =>
      simp only [readFromLayers, hlayer] at h
      split at h
      case isTrue => exact (ih h).imp_right Or.inr
      case isFalse hstate =>
        obtain rfl := Option.some.inj h
        exact ⟨hstate, Or.inl rfl⟩

end Reads

section
variable [ToString G]

/-- One record for every key that `get` finds, with the entry it finds, and no other. -/
structure CacheStack.ExportsVisible (stack : CacheStack G (Stored V)) (now : Millis)
    (records : List (CacheSnapshotEntry (Stored V))) : Prop where
  nodup : (records.map CacheSnapshotEntry.key).Nodup
  mem_iff : ∀ record, record ∈ records ↔
    stack.find now record.key = .ok (some record.value) ∧
      record.ttl = remainingStoredTtlMs now record.value now

omit [ToString G] in
/-- The raw keys that an export comes across, with their entries. -/
def CacheStack.walk (stack : CacheStack G (Stored V)) (now : Millis) : List (String × Stored V) :=
  (stack.visits now).filterMap fun visit => (readLayerEntry visit.1 now visit.2).map (visit.2, ·)

/-- The first entry that it comes across under a user key. -/
def CacheStack.first (stack : CacheStack G (Stored V)) (now : Millis) (name : String) :
    Option (String × Stored V) :=
  (stack.walk now).find? fun entry => stack.stripQualifiedKey entry.1 = name

/-- No raw key without the prefix of the current generation has the very entry that a layer has
under the key with it. -/
def CacheStack.Distinct (stack : CacheStack G (Stored V)) (now : Millis) : Prop :=
  ∀ raw stored, (raw, stored) ∈ stack.walk now → (∀ key, raw ≠ stack.qualifyKey key) →
    ∀ layer ∈ stack.layers, readLayerEntry layer now (stack.qualifyKey raw) ≠ some stored

variable {stack target : CacheStack G (Stored V)} {maxEntries : Option ℕ} {now : Millis}

theorem find_eq_ok {key : String} {found : Option (Stored V)} :
    stack.find now key = .ok found ↔
      validateCacheKey key = .ok () ∧
        readFromLayers now (stack.qualifyKey key) stack.layers = found := by
  unfold CacheStack.find
  cases h : validateCacheKey key with
  | error message =>
    constructor
    · rintro ⟨⟩
    · rintro ⟨⟨⟩, _⟩
  | ok _ =>
    constructor
    · rintro ⟨⟩
      exact ⟨rfl, rfl⟩
    · rintro ⟨-, rfl⟩
      rfl

section Imported
variable {records : List (CacheSnapshotEntry (Stored V))} {layer : CacheLayer (Stored V)}

end Imported

theorem CacheStack.ExportsVisible.valid {records : List (CacheSnapshotEntry (Stored V))}
    (h : stack.ExportsVisible now records) :
    ∀ record ∈ records, validateCacheKey record.key = .ok () ∧
      (resolveStoredValue now record.value now).state ≠ .expired := by
  intro record hrecord
  obtain ⟨hkey, hread⟩ := find_eq_ok.mp ((h.mem_iff record).mp hrecord).1
  exact ⟨hkey, (of_readFromLayers hread).1⟩

/-- The raw keys that can be read are keys of the current generation, and are enumerated. -/
def CacheStack.Current (stack : CacheStack G (Stored V)) (now : Millis)
    (layers : List (CacheLayer (Stored V))) : Prop :=
  ∀ layer ∈ layers, layer.lists = true ∧ ∀ raw value,
    readLayerEntry layer now raw = some value →
      (∃ key, raw = stack.qualifyKey key ∧ validateCacheKey key = .ok ()) ∧
        (resolveStoredValue now value now).state ≠ .expired

end

def memoryLayer (entries : List (String × Cell (Stored ℕ)))
    (nodup : (entries.map Prod.fst).Nodup) : CacheLayer (Stored ℕ) :=
  ⟨true, none, some 1000, none, entries, nodup⟩

def emptyStack (generation : ℕ) : CacheStack ℕ (Stored ℕ) :=
  ⟨some generation, [memoryLayer [] List.nodup_nil]⟩

/-- The entry a write at time 0 leaves under the first generation. -/
def written : Stored ℕ :=
  .envelope ⟨.value, some 7, some 1000, none, none, some 1000, none, none⟩

end LayerCache.Snapshot
