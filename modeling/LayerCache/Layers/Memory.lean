import LayerCache.Collections.OrderedMap
import Mathlib.Algebra.Order.Field.Rat
import Mathlib.Data.List.Induction
import Mathlib.Data.Prod.Lex

/-! # The memory layer

The layer keeps its entries in a map whose order is the order of eviction: a write, and under
`lru` a read, deletes the entry and sets it again. Times and lifetimes are of any ordered type
with an addition, and every operation reads the clock it is given.
-/

namespace LayerCache

inductive EvictionPolicy
  | lru
  | lfu
  | fifo
deriving DecidableEq, Repr

structure MemoryEntry (V T : Type) where
  value : V
  expiresAt : Option T
  accessCount : ℕ
  insertedAt : T
deriving DecidableEq, Repr

structure MemoryLayer (V T : Type) where
  defaultTtl : Option T
  maxSize : ℚ
  evictionPolicy : EvictionPolicy
  entries : OrderedMap String (MemoryEntry V T)

/-- The arguments of `set`, with the two times at which it reads the clock. -/
structure MemoryWrite (V T : Type) where
  key : String
  value : V
  ttl : Option T
  now : T
  insertedAt : T
deriving DecidableEq, Repr

namespace MemoryEntry

variable {V T : Type} [LinearOrder T]

def isExpired (entry : MemoryEntry V T) (now : T) : Bool :=
  match entry.expiresAt with
  | some expiresAt => expiresAt ≤ now
  | none => false

def accessed (entry : MemoryEntry V T) : MemoryEntry V T :=
  { entry with accessCount := entry.accessCount + 1 }

/-- The order in which `lfu` evicts. -/
def Before (entry other : MemoryEntry V T) : Prop :=
  entry.accessCount < other.accessCount ∨
    entry.accessCount = other.accessCount ∧ entry.insertedAt < other.insertedAt

instance (entry other : MemoryEntry V T) : Decidable (entry.Before other) :=
  inferInstanceAs (Decidable (_ ∨ _))

def rank (entry : MemoryEntry V T) : ℕ ×ₗ T := toLex (entry.accessCount, entry.insertedAt)

theorem before_iff {entry other : MemoryEntry V T} :
    entry.Before other ↔ entry.rank < other.rank := by
  rw [rank, rank, Prod.Lex.toLex_lt_toLex, Before]

end MemoryEntry

namespace MemoryLayer

variable {V T : Type} {layer : MemoryLayer V T}

def SameOptions (layer other : MemoryLayer V T) : Prop :=
  other.defaultTtl = layer.defaultTtl ∧ other.maxSize = layer.maxSize ∧
    other.evictionPolicy = layer.evictionPolicy

theorem SameOptions.refl (layer : MemoryLayer V T) : SameOptions layer layer := ⟨rfl, rfl, rfl⟩

theorem SameOptions.trans {other third : MemoryLayer V T} (h : SameOptions layer other)
    (h' : SameOptions other third) : SameOptions layer third :=
  ⟨h'.1.trans h.1, h'.2.1.trans h.2.1, h'.2.2.trans h.2.2⟩

def Bounded (layer : MemoryLayer V T) : Prop := (layer.entries.size : ℚ) ≤ layer.maxSize

theorem Bounded.mono {other : MemoryLayer V T} (h : layer.Bounded) (hsame : SameOptions layer other)
    (hsize : other.entries.size ≤ layer.entries.size) : other.Bounded := by
  rw [Bounded, hsame.2.1]
  exact le_trans (by exact_mod_cast hsize) h

def create (defaultTtl : Option T) (maxSize : ℚ) (evictionPolicy : EvictionPolicy) :
    MemoryLayer V T :=
  ⟨defaultTtl, maxSize, evictionPolicy, .empty⟩

theorem bounded_create {defaultTtl : Option T} {maxSize : ℚ} {evictionPolicy : EvictionPolicy}
    (hmax : 1 ≤ maxSize) : (create defaultTtl maxSize evictionPolicy : MemoryLayer V T).Bounded :=
  Nat.cast_zero.le.trans (zero_le_one.trans hmax)

variable [LinearOrder T]

def getEntry (layer : MemoryLayer V T) (key : String) (now : T) :
    MemoryLayer V T × Option V :=
  match layer.entries.get key with
  | none => (layer, none)
  | some entry =>
    if entry.isExpired now then ({ layer with entries := layer.entries.delete key }, none)
    else
      match layer.evictionPolicy with
      | .lru =>
        ({ layer with entries := (layer.entries.delete key).set key entry.accessed },
          some entry.value)
      | .lfu => ({ layer with entries := layer.entries.set key entry.accessed }, some entry.value)
      | .fifo => (layer, some entry.value)

/-- `ttl` leaves the layer as `has` does. -/
def has (layer : MemoryLayer V T) (key : String) (now : T) : MemoryLayer V T × Bool :=
  match layer.entries.get key with
  | none => (layer, false)
  | some entry =>
    if entry.isExpired now then ({ layer with entries := layer.entries.delete key }, false)
    else (layer, true)

/-- The entry that none other comes before, the first of them in the order of the map. -/
def leastUsed (entries : List (String × MemoryEntry V T)) : Option (String × MemoryEntry V T) :=
  entries.foldl (fun victim entry =>
    match victim with
    | none => some entry
    | some victim => if entry.2.Before victim.2 then some entry else some victim) none

def victim (layer : MemoryLayer V T) : Option (String × MemoryEntry V T) :=
  match layer.evictionPolicy with
  | .lru => layer.entries.entries.head?
  | .fifo => layer.entries.entries.head?
  | .lfu => leastUsed layer.entries.entries

/-- The layer without the victim, and the victim, whose value `onEvict` is told unwrapped. -/
def evict (layer : MemoryLayer V T) : MemoryLayer V T × List (String × V) :=
  match layer.victim with
  | some (key, entry) =>
    ({ layer with entries := layer.entries.delete key }, [(key, entry.value)])
  | none => (layer, [])

/-- `while (this.entries.size > this.maxSize) this.evict()` -/
def evictWhileOver : ℕ → MemoryLayer V T → MemoryLayer V T × List (String × V)
  | 0, layer => (layer, [])
  | rounds + 1, layer =>
    if layer.maxSize < layer.entries.size then
      let (layer, evicted) := layer.evict
      let (layer, more) := evictWhileOver rounds layer
      (layer, evicted ++ more)
    else (layer, [])

def shrink (layer : MemoryLayer V T) : MemoryLayer V T × List (String × V) :=
  evictWhileOver layer.entries.size layer

section Writes

variable [Zero T] [Add T]

/-- `ttl && ttl > 0 ? Date.now() + ttl : null`, with `ttl` the default where it is not given. -/
def expiresAt (layer : MemoryLayer V T) (ttl : Option T) (now : T) : Option T :=
  ((ttl.or layer.defaultTtl).filter fun ttl => decide (0 < ttl)).map (now + ·)

def newEntry (layer : MemoryLayer V T) (write : MemoryWrite V T) : MemoryEntry V T where
  value := write.value
  expiresAt := layer.expiresAt write.ttl write.now
  accessCount := 0
  insertedAt := write.insertedAt

def insert (layer : MemoryLayer V T) (write : MemoryWrite V T) : MemoryLayer V T :=
  { layer with entries := (layer.entries.delete write.key).set write.key (layer.newEntry write) }

def set (layer : MemoryLayer V T) (write : MemoryWrite V T) :
    MemoryLayer V T × List (String × V) :=
  (layer.insert write).shrink

def setMany (layer : MemoryLayer V T) : List (MemoryWrite V T) →
    MemoryLayer V T × List (String × V)
  | [] => (layer, [])
  | write :: writes =>
    let (layer, evicted) := layer.set write
    let (layer, more) := setMany layer writes
    (layer, evicted ++ more)

end Writes

def delete (layer : MemoryLayer V T) (key : String) : MemoryLayer V T :=
  { layer with entries := layer.entries.delete key }

def deleteMany (layer : MemoryLayer V T) (keys : List String) : MemoryLayer V T :=
  keys.foldl delete layer

def clear (layer : MemoryLayer V T) : MemoryLayer V T := { layer with entries := .empty }

/-- What `size`, `keys`, `forEachKey` and `exportState` begin with, and the cleanup timer. -/
def pruneExpired (layer : MemoryLayer V T) (now : T) : MemoryLayer V T :=
  { layer with entries := layer.entries.filter fun entry => !entry.isExpired now }

omit [LinearOrder T] in
theorem deleteMany_append (layer : MemoryLayer V T) (keys more : List String) :
    layer.deleteMany (keys ++ more) = (layer.deleteMany keys).deleteMany more := List.foldl_append

omit [LinearOrder T] in
theorem entries_deleteMany (layer : MemoryLayer V T) (keys : List String) :
    (layer.deleteMany keys).entries = keys.foldl OrderedMap.delete layer.entries := by
  induction keys generalizing layer with
  | nil => rfl
  | cons key keys ih => exact ih (layer.delete key)

omit [LinearOrder T] in
theorem mem_keys_deleteMany {key : String} {keys : List String} :
    key ∈ (layer.deleteMany keys).entries.keys ↔ key ∉ keys ∧ key ∈ layer.entries.keys := by
  rw [← OrderedMap.get_isSome_iff, entries_deleteMany, OrderedMap.get_foldl_delete,
    ← OrderedMap.get_isSome_iff]
  split
  case isTrue hmem => simp [hmem]
  case isFalse hmem => simp [hmem]

theorem pruneExpired_deleteMany (layer : MemoryLayer V T) (keys : List String) (now : T) :
    (layer.deleteMany keys).pruneExpired now = (layer.pruneExpired now).deleteMany keys := by
  induction keys generalizing layer with
  | nil => rfl
  | cons key keys ih =>
    have hkey : (layer.delete key).pruneExpired now = (layer.pruneExpired now).delete key := by
      simp only [delete, pruneExpired, OrderedMap.filter_delete]
    calc (layer.deleteMany (key :: keys)).pruneExpired now
        = ((layer.delete key).pruneExpired now).deleteMany keys := ih (layer.delete key)
      _ = (layer.pruneExpired now).deleteMany (key :: keys) := by
          rw [hkey, deleteMany, deleteMany, List.foldl_cons]

/-- A record of an exported state, with the times at which its import reads the clock. -/
structure Record (V T : Type) where
  key : String
  value : V
  expiresAt : Option T
  now : T
  insertedAt : T

def importEntry (layer : MemoryLayer V T) (record : Record V T) : MemoryLayer V T :=
  if record.expiresAt.any fun expiresAt => decide (expiresAt ≤ record.now) then layer
  else
    { layer with
      entries := layer.entries.set record.key
        ⟨record.value, record.expiresAt, 0, record.insertedAt⟩ }

/-- An import sets a key that the layer has in its place, and evicts once at the end. -/
def importState (layer : MemoryLayer V T) (records : List (Record V T)) :
    MemoryLayer V T × List (String × V) :=
  (records.foldl importEntry layer).shrink

theorem sameOptions_getEntry (key : String) (now : T) :
    SameOptions layer (layer.getEntry key now).1 := by
  rw [getEntry]
  split
  · exact .refl _
  · split
    · exact ⟨rfl, rfl, rfl⟩
    · split <;> exact ⟨rfl, rfl, rfl⟩

theorem size_getEntry_le (key : String) (now : T) :
    (layer.getEntry key now).1.entries.size ≤ layer.entries.size := by
  rw [getEntry]
  split
  case h_1 => exact le_rfl
  case h_2 entry hentry =>
    have hmem : key ∈ layer.entries.keys := by simp [← OrderedMap.get_isSome_iff, hentry]
    split
    · exact OrderedMap.size_delete_le
    · split
      · exact (OrderedMap.size_delete_set.trans (OrderedMap.size_delete_of_mem hmem)).le
      · exact (OrderedMap.size_set_of_mem hmem).le
      · exact le_rfl

theorem sameOptions_has (key : String) (now : T) : SameOptions layer (layer.has key now).1 := by
  rw [has]
  split
  · exact .refl _
  · split <;> exact ⟨rfl, rfl, rfl⟩

theorem size_has_le (key : String) (now : T) :
    (layer.has key now).1.entries.size ≤ layer.entries.size := by
  rw [has]
  split
  · exact le_rfl
  · split
    · exact OrderedMap.size_delete_le
    · exact le_rfl

theorem leastUsed_append (entries : List (String × MemoryEntry V T))
    (entry : String × MemoryEntry V T) :
    leastUsed (entries ++ [entry]) =
      match leastUsed entries with
      | none => some entry
      | some victim => if entry.2.Before victim.2 then some entry else some victim := by
  simp only [leastUsed, List.foldl_append, List.foldl_cons, List.foldl_nil]

theorem leastUsed_mem {entries : List (String × MemoryEntry V T)}
    {victim : String × MemoryEntry V T} (h : leastUsed entries = some victim) :
    victim ∈ entries := by
  induction entries using List.reverseRecOn generalizing victim with
  | nil => cases h
  | append_singleton entries entry ih =>
    rw [leastUsed_append] at h
    split at h
    · cases h
      exact List.mem_append_right _ List.mem_cons_self
    · rename_i other hother
      split at h
      · cases h
        exact List.mem_append_right _ List.mem_cons_self
      · cases h
        exact List.mem_append_left _ (ih hother)

theorem leastUsed_eq_none {entries : List (String × MemoryEntry V T)} :
    leastUsed entries = none ↔ entries = [] := by
  constructor
  · intro h
    induction entries using List.reverseRecOn with
    | nil => rfl
    | append_singleton entries entry =>
      rw [leastUsed_append] at h
      split at h
      · cases h
      · split at h <;> cases h
  · rintro rfl
    rfl

theorem leastUsed_rank_le {entries : List (String × MemoryEntry V T)}
    {victim : String × MemoryEntry V T} (h : leastUsed entries = some victim) :
    ∀ entry ∈ entries, victim.2.rank ≤ entry.2.rank := by
  induction entries using List.reverseRecOn generalizing victim with
  | nil => cases h
  | append_singleton entries last ih =>
    rw [leastUsed_append] at h
    rw [List.forall_mem_append, List.forall_mem_singleton]
    split at h
    case h_1 hnone =>
      cases h
      rw [leastUsed_eq_none.mp hnone]
      exact ⟨List.forall_mem_nil _, le_rfl⟩
    case h_2 other hother =>
      split at h
      case isTrue hbefore =>
        cases h
        have hlt := MemoryEntry.before_iff.mp hbefore
        exact ⟨fun entry hentry => hlt.le.trans (ih hother entry hentry), le_rfl⟩
      case isFalse hbefore =>
        cases h
        rw [MemoryEntry.before_iff, not_lt] at hbefore
        exact ⟨ih hother, hbefore⟩

theorem victim_mem {victim : String × MemoryEntry V T} (h : layer.victim = some victim) :
    victim ∈ layer.entries.entries := by
  rw [MemoryLayer.victim] at h
  split at h
  · exact List.mem_of_mem_head? h
  · exact List.mem_of_mem_head? h
  · exact leastUsed_mem h

theorem victim_eq_none : layer.victim = none ↔ layer.entries.entries = [] := by
  rw [victim]
  split
  · exact List.head?_eq_none_iff
  · exact List.head?_eq_none_iff
  · exact leastUsed_eq_none

theorem sameOptions_evict : SameOptions layer layer.evict.1 := by
  rw [evict]
  split <;> exact ⟨rfl, rfl, rfl⟩

theorem size_evict (h : layer.entries.entries ≠ []) :
    layer.evict.1.entries.size + 1 = layer.entries.size := by
  rw [evict]
  split
  case h_1 key entry hvictim =>
    exact OrderedMap.size_delete_of_mem (List.mem_map_of_mem (victim_mem hvictim))
  case h_2 hnone => exact absurd (victim_eq_none.mp hnone) h

theorem sameOptions_evictWhileOver (rounds : ℕ) :
    SameOptions layer (evictWhileOver rounds layer).1 := by
  induction rounds generalizing layer with
  | zero => exact .refl _
  | succ rounds ih =>
    rw [evictWhileOver]
    split
    · exact sameOptions_evict.trans ih
    · exact .refl _

theorem evictWhileOver_of_bounded (rounds : ℕ) (h : layer.Bounded) :
    evictWhileOver rounds layer = (layer, []) := by
  cases rounds with
  | zero => rfl
  | succ rounds => rw [evictWhileOver, if_neg (not_lt.mpr h)]

/-- The loop ends because the layer is within its size. -/
theorem bounded_shrink (hmax : 0 ≤ layer.maxSize) : layer.shrink.1.Bounded := by
  have hloop : ∀ (rounds : ℕ) (layer : MemoryLayer V T), 0 ≤ layer.maxSize →
      layer.entries.size ≤ rounds → (evictWhileOver rounds layer).1.Bounded := by
    intro rounds
    induction rounds with
    | zero =>
      intro layer hmax hsize
      rw [evictWhileOver, Bounded, Nat.le_zero.mp hsize]
      exact hmax
    | succ rounds ih =>
      intro layer hmax hsize
      rw [evictWhileOver]
      split
      case isTrue hover =>
        have hne : layer.entries.entries ≠ [] := by
          intro hnil
          rw [OrderedMap.size, hnil] at hover
          exact absurd hover (by simpa using hmax)
        have hevict := size_evict hne
        have hmax' : 0 ≤ layer.evict.1.maxSize := by
          rw [sameOptions_evict.2.1]
          exact hmax
        exact ih _ hmax' (by omega)
      case isFalse hle => exact not_lt.mp hle
  exact hloop _ _ hmax le_rfl

theorem sameOptions_importEntry (record : Record V T) :
    SameOptions layer (layer.importEntry record) := by
  rw [importEntry]
  split <;> exact ⟨rfl, rfl, rfl⟩

theorem sameOptions_importEntries (records : List (Record V T)) :
    SameOptions layer (records.foldl importEntry layer) := by
  induction records generalizing layer with
  | nil => exact .refl _
  | cons record records ih => exact (sameOptions_importEntry record).trans ih

theorem sameOptions_importState (records : List (Record V T)) :
    SameOptions layer (layer.importState records).1 :=
  (sameOptions_importEntries records).trans (sameOptions_evictWhileOver _)

section Writes

variable [Zero T] [Add T] {write : MemoryWrite V T}

theorem entries_insert : (layer.insert write).entries.entries =
    layer.entries.entries.filter (·.1 ≠ write.key) ++ [(write.key, layer.newEntry write)] :=
  OrderedMap.entries_delete_set

theorem size_insert : (layer.insert write).entries.size =
    if write.key ∈ layer.entries.keys then layer.entries.size else layer.entries.size + 1 := by
  have hsize : (layer.insert write).entries.size = (layer.entries.delete write.key).size + 1 :=
    OrderedMap.size_delete_set
  rw [hsize]
  split
  case isTrue h => exact OrderedMap.size_delete_of_mem h
  case isFalse h => rw [OrderedMap.delete_of_not_mem h]

theorem sameOptions_set : SameOptions layer (layer.set write).1 := by
  have hinsert : SameOptions layer (layer.insert write) := ⟨rfl, rfl, rfl⟩
  exact hinsert.trans (sameOptions_evictWhileOver _)

theorem set_eq (hbounded : layer.Bounded) :
    layer.set write =
      if layer.maxSize < (layer.insert write).entries.size then (layer.insert write).evict
      else (layer.insert write, []) := by
  have hsize : (layer.insert write).entries.size =
      if write.key ∈ layer.entries.keys then layer.entries.size else layer.entries.size + 1 :=
    size_insert
  have hle : (layer.insert write).entries.size ≤ layer.entries.size + 1 := by
    rw [hsize]
    split <;> omega
  have hne : (layer.insert write).entries.entries ≠ [] := by simp [entries_insert]
  have hevict := size_evict hne
  obtain ⟨rounds, hrounds⟩ : ∃ rounds, (layer.insert write).entries.size = rounds + 1 :=
    ⟨_, hevict.symm⟩
  rw [set, shrink, hrounds, evictWhileOver, ← hrounds]
  have hmaxSize : (layer.insert write).maxSize = layer.maxSize := rfl
  rw [hmaxSize]
  split
  case isTrue hover =>
    have hfits : (layer.insert write).evict.1.Bounded := by
      rw [Bounded, sameOptions_evict.2.1, hmaxSize]
      refine le_trans ?_ hbounded
      exact_mod_cast (by omega : (layer.insert write).evict.1.entries.size ≤ layer.entries.size)
    simp only [evictWhileOver_of_bounded rounds hfits, List.append_nil]
  case isFalse => rfl

theorem bounded_set (hmax : 1 ≤ layer.maxSize) : (layer.set write).1.Bounded :=
  bounded_shrink (zero_le_one.trans hmax)

end Writes

end MemoryLayer

end LayerCache
