import LayerCache.Layers.Memory

/-! # The memory layer as a bounded list

Under `lru` and `fifo` the layer answers and evicts as a list of keys with values and deadlines
does: in the order of last use or of last write, an expired key dropped where it is touched,
and the first key dropped where a write makes the list too long.
-/

namespace LayerCache

/-- The calls of a layer, with the times at which they read the clock. -/
inductive MemoryOperation (V T : Type)
  /-- The value is unwrapped at a time of its own. -/
  | get (key : String) (now unwrapping : T)
  | getEntry (key : String) (now : T)
  | has (key : String) (now : T)
  | set (write : MemoryWrite V T)
  | setMany (writes : List (MemoryWrite V T))
  | delete (key : String)
  | clear
deriving DecidableEq, Repr

inductive MemoryAnswer (V W : Type)
  | value (value : Option W)
  | entry (entry : Option V)
  | present (present : Bool)
  | done
deriving DecidableEq, Repr

structure ListedEntry (V T : Type) where
  key : String
  value : V
  deadline : Option T
deriving DecidableEq, Repr

inductive ListOrder
  | lastUse
  | lastWrite
deriving DecidableEq, Repr

structure BoundedList (V T : Type) where
  order : ListOrder
  maxSize : ℚ
  defaultTtl : Option T
  items : List (ListedEntry V T)
deriving DecidableEq

namespace BoundedList

variable {V T W : Type} [LinearOrder T]

def find (list : BoundedList V T) (key : String) : Option (ListedEntry V T) :=
  list.items.find? (·.key = key)

def remove (list : BoundedList V T) (key : String) : BoundedList V T :=
  { list with items := list.items.filter (·.key ≠ key) }

def append (list : BoundedList V T) (item : ListedEntry V T) : BoundedList V T :=
  { list with items := list.items ++ [item] }

def touch (list : BoundedList V T) (key : String) (now : T) :
    BoundedList V T × Option (ListedEntry V T) :=
  match list.find key with
  | none => (list, none)
  | some item =>
    if item.deadline.any (· ≤ now) then (list.remove key, none) else (list, some item)

def read (list : BoundedList V T) (key : String) (now : T) : BoundedList V T × Option V :=
  match list.touch key now with
  | (list, none) => (list, none)
  | (list, some item) =>
    match list.order with
    | .lastUse => ((list.remove key).append item, some item.value)
    | .lastWrite => (list, some item.value)

def dropFirst (list : BoundedList V T) : BoundedList V T × List (String × V) :=
  if list.maxSize < list.items.length then
    match list.items with
    | [] => (list, [])
    | first :: items => ({ list with items := items }, [(first.key, first.value)])
  else (list, [])

section Writes

variable [Zero T] [Add T]

def deadline (list : BoundedList V T) (ttl : Option T) (now : T) : Option T :=
  match ttl.or list.defaultTtl with
  | some ttl => if 0 < ttl then some (now + ttl) else none
  | none => none

def write (list : BoundedList V T) (write : MemoryWrite V T) :
    BoundedList V T × List (String × V) :=
  ((list.remove write.key).append
    ⟨write.key, write.value, list.deadline write.ttl write.now⟩).dropFirst

def writeMany (list : BoundedList V T) : List (MemoryWrite V T) →
    BoundedList V T × List (String × V)
  | [] => (list, [])
  | write :: writes =>
    let (list, evicted) := list.write write
    let (list, more) := writeMany list writes
    (list, evicted ++ more)

def perform (unwrapStoredValue : T → V → W) (list : BoundedList V T) :
    MemoryOperation V T → BoundedList V T × MemoryAnswer V W × List (String × V)
  | .get key now unwrapping =>
    let (list, found) := list.read key now
    (list, .value (found.map (unwrapStoredValue unwrapping)), [])
  | .getEntry key now =>
    let (list, found) := list.read key now
    (list, .entry found, [])
  | .has key now =>
    let (list, found) := list.touch key now
    (list, .present found.isSome, [])
  | .set write =>
    let (list, evicted) := list.write write
    (list, .done, evicted)
  | .setMany writes =>
    let (list, evicted) := list.writeMany writes
    (list, .done, evicted)
  | .delete key => (list.remove key, .done, [])
  | .clear => ({ list with items := [] }, .done, [])

def performAll (unwrapStoredValue : T → V → W) (list : BoundedList V T) :
    List (MemoryOperation V T) → BoundedList V T × List (MemoryAnswer V W × List (String × V))
  | [] => (list, [])
  | operation :: operations =>
    let (list, output) := list.perform unwrapStoredValue operation
    let (list, outputs) := performAll unwrapStoredValue list operations
    (list, output :: outputs)

end Writes

end BoundedList

namespace MemoryLayer

variable {V T W : Type} [LinearOrder T] [Zero T] [Add T]

def perform (unwrapStoredValue : T → V → W) (layer : MemoryLayer V T) :
    MemoryOperation V T → MemoryLayer V T × MemoryAnswer V W × List (String × V)
  | .get key now unwrapping =>
    let (layer, found) := layer.getEntry key now
    (layer, .value (found.map (unwrapStoredValue unwrapping)), [])
  | .getEntry key now =>
    let (layer, found) := layer.getEntry key now
    (layer, .entry found, [])
  | .has key now =>
    let (layer, found) := layer.has key now
    (layer, .present found, [])
  | .set write =>
    let (layer, evicted) := layer.set write
    (layer, .done, evicted)
  | .setMany writes =>
    let (layer, evicted) := layer.setMany writes
    (layer, .done, evicted)
  | .delete key => (layer.delete key, .done, [])
  | .clear => (layer.clear, .done, [])

def performAll (unwrapStoredValue : T → V → W) (layer : MemoryLayer V T) :
    List (MemoryOperation V T) → MemoryLayer V T × List (MemoryAnswer V W × List (String × V))
  | [] => (layer, [])
  | operation :: operations =>
    let (layer, output) := layer.perform unwrapStoredValue operation
    let (layer, outputs) := performAll unwrapStoredValue layer operations
    (layer, output :: outputs)

end MemoryLayer

def ListOrder.policy : ListOrder → EvictionPolicy
  | lastUse => .lru
  | lastWrite => .fifo

namespace MemoryLayer

def listed {V T : Type} (entry : String × MemoryEntry V T) : ListedEntry V T :=
  ⟨entry.1, entry.2.value, entry.2.expiresAt⟩

def toList {V T : Type} (order : ListOrder) (layer : MemoryLayer V T) : BoundedList V T :=
  ⟨order, layer.maxSize, layer.defaultTtl, layer.entries.entries.map listed⟩

variable {V T W : Type} {layer : MemoryLayer V T} {order : ListOrder} {key : String} {now : T}

theorem find_listed (entries : List (String × MemoryEntry V T)) (key : String) :
    (entries.map listed).find? (·.key = key) =
      (entries.lookup key).map fun entry => listed (key, entry) := by
  induction entries with
  | nil => rfl
  | cons entry entries ih =>
    obtain ⟨k, e⟩ := entry
    rw [List.map_cons, List.find?_cons, List.lookup_cons]
    by_cases h : k = key
    · subst h
      simp [listed]
    · have hbeq : (key == k) = false := by simpa using Ne.symm h
      simpa [listed, h, hbeq] using ih

theorem find_toList : (layer.toList order).find key =
    (layer.entries.get key).map fun entry => listed (key, entry) :=
  find_listed _ _

theorem remove_toList : (layer.toList order).remove key = (layer.delete key).toList order := by
  simp only [BoundedList.remove, toList, delete, OrderedMap.delete, List.filter_map]
  rfl

variable [LinearOrder T]

theorem any_expiresAt (entry : MemoryEntry V T) :
    (listed (key, entry)).deadline.any (· ≤ now) = entry.isExpired now := by
  rw [listed, MemoryEntry.isExpired]
  cases entry.expiresAt <;> rfl

theorem touch_toList : (layer.toList order).touch key now =
    match layer.entries.get key with
    | none => (layer.toList order, none)
    | some entry =>
      if entry.isExpired now then ((layer.delete key).toList order, none)
      else (layer.toList order, some (listed (key, entry))) := by
  rw [BoundedList.touch, find_toList]
  cases hget : layer.entries.get key with
  | none => rfl
  | some entry => simp only [Option.map_some, any_expiresAt, remove_toList]

theorem has_toList : ((layer.toList order).touch key now).1 = (layer.has key now).1.toList order ∧
    ((layer.toList order).touch key now).2.isSome = (layer.has key now).2 := by
  rw [touch_toList, has]
  cases hget : layer.entries.get key with
  | none => exact ⟨rfl, rfl⟩
  | some entry =>
    simp only
    split <;> exact ⟨rfl, rfl⟩

theorem read_toList (hpolicy : layer.evictionPolicy = order.policy) :
    (layer.toList order).read key now =
      ((layer.getEntry key now).1.toList order, (layer.getEntry key now).2) := by
  rw [BoundedList.read, touch_toList, getEntry]
  cases hget : layer.entries.get key with
  | none => rfl
  | some entry =>
    by_cases hexpired : entry.isExpired now
    · simp only [hexpired, if_true]
      rfl
    · simp only [hexpired, if_false, Bool.false_eq_true]
      cases order with
      | lastWrite =>
        simp only [hpolicy, ListOrder.policy]
        rfl
      | lastUse =>
        simp only [hpolicy, ListOrder.policy]
        rw [remove_toList]
        simp only [toList, BoundedList.append, delete, OrderedMap.entries_delete_set]
        simp [listed, MemoryEntry.accessed, OrderedMap.delete]

section Writes

variable [Zero T] [Add T] {write : MemoryWrite V T}

theorem deadline_toList (ttl : Option T) :
    (layer.toList order).deadline ttl now = layer.expiresAt ttl now := by
  rw [BoundedList.deadline, expiresAt, toList]
  cases ttl.or layer.defaultTtl with
  | none => rfl
  | some ttl =>
    by_cases h : 0 < ttl
    · simp [h]
    · simp [h, not_lt.mp h]

theorem insert_toList : (layer.insert write).toList order =
    ((layer.toList order).remove write.key).append
      ⟨write.key, write.value, (layer.toList order).deadline write.ttl write.now⟩ := by
  rw [remove_toList, deadline_toList]
  simp only [toList, BoundedList.append, entries_insert, List.map_append]
  rfl

theorem write_toList (hpolicy : layer.evictionPolicy = order.policy) (hbounded : layer.Bounded) :
    (layer.toList order).write write =
      ((layer.set write).1.toList order, (layer.set write).2) := by
  rw [BoundedList.write, ← insert_toList, set_eq hbounded, BoundedList.dropFirst]
  have hlength : ((layer.insert write).toList order).items.length =
      (layer.insert write).entries.size := List.length_map ..
  rw [hlength]
  have hmax : ((layer.insert write).toList order).maxSize = layer.maxSize := rfl
  rw [hmax]
  split
  case isFalse => rfl
  case isTrue hover =>
    have hpolicy' : (layer.insert write).evictionPolicy = order.policy := hpolicy
    have hvictim : (layer.insert write).victim = (layer.insert write).entries.entries.head? := by
      rw [MemoryLayer.victim, hpolicy']
      cases order <;> rfl
    rw [evict, hvictim]
    cases hentries : (layer.insert write).entries.entries with
    | nil => simp only [toList, hentries, List.map_nil, List.head?_nil]
    | cons first rest =>
      have hrest := OrderedMap.entries_delete_head hentries
      simp only [toList, hentries, hrest, List.map_cons, List.head?_cons]
      rfl

theorem writeMany_toList (hpolicy : layer.evictionPolicy = order.policy)
    (hbounded : layer.Bounded) (hmax : 1 ≤ layer.maxSize) (writes : List (MemoryWrite V T)) :
    (layer.toList order).writeMany writes =
        ((layer.setMany writes).1.toList order, (layer.setMany writes).2) ∧
      SameOptions layer (layer.setMany writes).1 ∧ (layer.setMany writes).1.Bounded := by
  induction writes generalizing layer with
  | nil => exact ⟨rfl, .refl _, hbounded⟩
  | cons write writes ih =>
    have hsame : SameOptions layer (layer.set write).1 := sameOptions_set
    have hpolicy' : (layer.set write).1.evictionPolicy = order.policy := hsame.2.2.trans hpolicy
    obtain ⟨hlist, hsame', hbounded'⟩ := ih hpolicy' (bounded_set hmax) (hsame.2.1.symm ▸ hmax)
    refine ⟨?_, hsame.trans hsame', hbounded'⟩
    simp only [BoundedList.writeMany, setMany, write_toList hpolicy hbounded, hlist]

/-- An operation of the layer is one of its list. -/
theorem perform_toList (unwrapStoredValue : T → V → W)
    (hpolicy : layer.evictionPolicy = order.policy) (hbounded : layer.Bounded)
    (hmax : 1 ≤ layer.maxSize) (operation : MemoryOperation V T) :
    (layer.toList order).perform unwrapStoredValue operation =
      ((layer.perform unwrapStoredValue operation).1.toList order,
        (layer.perform unwrapStoredValue operation).2) := by
  cases operation with
  | get key now unwrapping => simp only [BoundedList.perform, perform, read_toList hpolicy]
  | getEntry key now => simp only [BoundedList.perform, perform, read_toList hpolicy]
  | has key now => simp only [BoundedList.perform, perform, has_toList]
  | set write => simp only [BoundedList.perform, perform, write_toList hpolicy hbounded]
  | setMany writes =>
    simp only [BoundedList.perform, perform, (writeMany_toList hpolicy hbounded hmax writes).1]
  | delete key => simp only [BoundedList.perform, perform, remove_toList]
  | clear => rfl

theorem bounded_perform (unwrapStoredValue : T → V → W)
    (hpolicy : layer.evictionPolicy = order.policy) (hbounded : layer.Bounded)
    (hmax : 1 ≤ layer.maxSize) (operation : MemoryOperation V T) :
    SameOptions layer (layer.perform unwrapStoredValue operation).1 ∧
      (layer.perform unwrapStoredValue operation).1.Bounded := by
  cases operation with
  | get key now unwrapping =>
    have hsame : SameOptions layer (layer.getEntry key now).1 := sameOptions_getEntry key now
    exact ⟨hsame, hbounded.mono hsame (size_getEntry_le key now)⟩
  | getEntry key now =>
    have hsame : SameOptions layer (layer.getEntry key now).1 := sameOptions_getEntry key now
    exact ⟨hsame, hbounded.mono hsame (size_getEntry_le key now)⟩
  | has key now =>
    have hsame : SameOptions layer (layer.has key now).1 := sameOptions_has key now
    exact ⟨hsame, hbounded.mono hsame (size_has_le key now)⟩
  | set write => exact ⟨sameOptions_set, bounded_set hmax⟩
  | setMany writes => exact (writeMany_toList hpolicy hbounded hmax writes).2
  | delete key => exact ⟨⟨rfl, rfl, rfl⟩, hbounded.mono ⟨rfl, rfl, rfl⟩ OrderedMap.size_delete_le⟩
  | clear => exact ⟨⟨rfl, rfl, rfl⟩, hbounded.mono ⟨rfl, rfl, rfl⟩ (Nat.zero_le _)⟩

theorem performAll_toList (unwrapStoredValue : T → V → W)
    (hpolicy : layer.evictionPolicy = order.policy) (hbounded : layer.Bounded)
    (hmax : 1 ≤ layer.maxSize) (operations : List (MemoryOperation V T)) :
    (layer.toList order).performAll unwrapStoredValue operations =
        ((layer.performAll unwrapStoredValue operations).1.toList order,
          (layer.performAll unwrapStoredValue operations).2) ∧
      SameOptions layer (layer.performAll unwrapStoredValue operations).1 ∧
      (layer.performAll unwrapStoredValue operations).1.Bounded := by
  induction operations generalizing layer with
  | nil => exact ⟨rfl, .refl _, hbounded⟩
  | cons operation operations ih =>
    obtain ⟨hsame, hbounded'⟩ := bounded_perform unwrapStoredValue hpolicy hbounded hmax operation
    obtain ⟨hlist, hsame', hbounded''⟩ :=
      ih (hsame.2.2.trans hpolicy) hbounded' (hsame.2.1.symm ▸ hmax)
    refine ⟨?_, hsame.trans hsame', hbounded''⟩
    simp only [BoundedList.performAll, performAll, hlist,
      perform_toList unwrapStoredValue hpolicy hbounded hmax]

/-- From an empty layer every sequence of operations answers and evicts as on the list, and
leaves no more entries than the layer may have. -/
theorem performAll_create (unwrapStoredValue : T → V → W) (order : ListOrder) {maxSize : ℚ}
    (hmax : 1 ≤ maxSize) (defaultTtl : Option T) (operations : List (MemoryOperation V T)) :
    let layer : MemoryLayer V T := create defaultTtl maxSize order.policy
    let list : BoundedList V T := ⟨order, maxSize, defaultTtl, []⟩
    (layer.performAll unwrapStoredValue operations).2 =
        (list.performAll unwrapStoredValue operations).2 ∧
      (layer.performAll unwrapStoredValue operations).1.toList order =
        (list.performAll unwrapStoredValue operations).1 ∧
      ((layer.performAll unwrapStoredValue operations).1.entries.size : ℚ) ≤ maxSize := by
  intro layer list
  have hpolicy : layer.evictionPolicy = order.policy := rfl
  obtain ⟨hperform, hsame, hbounded⟩ : _ ∧ SameOptions layer _ ∧ _ :=
    performAll_toList unwrapStoredValue hpolicy (bounded_create hmax) hmax operations
  have hlist : list.performAll unwrapStoredValue operations = _ := hperform
  rw [hlist]
  rw [Bounded, hsame.2.1] at hbounded
  exact ⟨rfl, rfl, hbounded⟩

theorem performAll_create_lastUse :
    ((create none 1 .lru : MemoryLayer ℕ ℤ).performAll (fun _ value => value)
        [.set ⟨"first", 1, none, 0, 0⟩, .set ⟨"second", 2, some 5, 1, 1⟩, .get "second" 6 6]).2 =
      ((⟨.lastUse, 1, none, []⟩ : BoundedList ℕ ℤ).performAll (fun _ value => value)
        [.set ⟨"first", 1, none, 0, 0⟩, .set ⟨"second", 2, some 5, 1, 1⟩, .get "second" 6 6]).2 :=
  (performAll_create (fun _ value => value) .lastUse le_rfl none _).1

end Writes

end MemoryLayer

end LayerCache
