import LayerCache.Keys.Validation
import LayerCache.StoredValue.RoundTrip

/-! # Generations, layers and snapshots

A stack keeps its entries under keys that carry the number of the current generation.
An export walks over the raw keys of the layers and drops that prefix; an import writes
its records under the prefix of the importing stack. No other operation runs meanwhile, and
no layer holds a bare `null`.
-/

namespace LayerCache.Snapshot

structure Cell (S : Type) where
  value : S
  expiresAt : Option Millis
  deriving DecidableEq

def Cell.Live {S : Type} (cell : Cell S) (now : Millis) : Prop := ∀ t ∈ cell.expiresAt, now < t

instance {S : Type} (cell : Cell S) (now : Millis) : Decidable (cell.Live now) :=
  inferInstanceAs (Decidable (∀ t ∈ cell.expiresAt, now < t))

structure CacheLayer (S : Type) where
  /-- Whether the layer has `keys` or `forEachKey`. -/
  lists : Bool
  defaultTtl : Option Millis
  maxSize : Option ℕ
  degradedUntil : Option Millis
  /-- In the order the layer enumerates its keys. -/
  entries : List (String × Cell S)
  nodup : (entries.map Prod.fst).Nodup
  deriving DecidableEq

namespace CacheLayer
variable {S : Type} (layer : CacheLayer S)

def shouldSkipLayer (now : Millis) : Bool := decide (∃ t ∈ layer.degradedUntil, now < t)

def live (now : Millis) : List (String × Cell S) :=
  layer.entries.filter fun entry => decide (entry.2.Live now)

def keys (now : Millis) : List String := (layer.live now).map Prod.fst

def getEntry (now : Millis) (key : String) : Option S :=
  ((layer.live now).lookup key).map Cell.value

/-- Drops the oldest entries of a layer that is over its size. -/
def evict (maxSize : Option ℕ) (entries : List (String × Cell S)) : List (String × Cell S) :=
  match maxSize with
  | none => entries
  | some maxSize => entries.drop (entries.length - maxSize)

theorem evict_sublist (maxSize : Option ℕ) (entries : List (String × Cell S)) :
    (evict maxSize entries).Sublist entries := by
  cases maxSize with
  | none => exact List.Sublist.refl _
  | some m => exact List.drop_sublist _ _

/-- `ttl && ttl > 0 ? now + ttl : null`, with the layer's default where there is none. -/
def expiresAt (ttl : Option Millis) (now : Millis) : Option Millis :=
  ((ttl.or layer.defaultTtl).filter fun ms => decide (0 < ms)).map (now + ·)

def set (key : String) (value : S) (ttl : Option Millis) (now : Millis) : CacheLayer S :=
  { layer with
    entries := evict layer.maxSize
      (layer.entries.filter (·.1 ≠ key) ++ [(key, ⟨value, layer.expiresAt ttl now⟩)])
    nodup := by
      refine List.Nodup.sublist ((evict_sublist _ _).map _) ?_
      rw [List.map_append, List.nodup_append]
      refine ⟨layer.nodup.sublist (List.filter_sublist.map _), List.nodup_singleton _, ?_⟩
      simp only [List.mem_map, List.mem_filter, decide_eq_true_eq, List.map_cons, List.map_nil,
        List.mem_singleton]
      rintro _ ⟨entry, ⟨-, hne⟩, rfl⟩ _ rfl
      exact hne }

end CacheLayer

structure CacheStack (G S : Type) where
  currentGeneration : Option G
  layers : List (CacheLayer S)
  deriving DecidableEq

structure CacheSnapshotEntry (S : Type) where
  key : String
  value : S
  ttl : Option Millis
  deriving DecidableEq

def generationPrefix {G : Type} [ToString G] : Option G → String
  | none => ""
  | some generation => "v" ++ toString generation ++ ":"

def stripGenerationPrefix {G : Type} [ToString G] (key : String) (generation : Option G) :
    String :=
  let pre := (generationPrefix generation).toList
  if pre.isPrefixOf key.toList then String.ofList (key.toList.drop pre.length) else key

section Operations
variable {G S V : Type} [ToString G]

def CacheStack.qualifyKey (stack : CacheStack G S) (key : String) : String :=
  generationPrefix stack.currentGeneration ++ key

def CacheStack.stripQualifiedKey (stack : CacheStack G S) (key : String) : String :=
  stripGenerationPrefix key stack.currentGeneration

/-- `nextGeneration ?? current + 1`, with `current` zero before generations are enabled. -/
def CacheStack.bumpGeneration [Zero G] [One G] [Add G] (stack : CacheStack G S)
    (nextGeneration : Option G) : CacheStack G S :=
  { stack with
    currentGeneration := some (nextGeneration.getD (stack.currentGeneration.getD 0 + 1)) }

def readLayerEntry (layer : CacheLayer S) (now : Millis) (key : String) : Option S :=
  if layer.shouldSkipLayer now then none else layer.getEntry now key

def setAll (layers : List (CacheLayer S)) (now : Millis)
    (write : CacheLayer S → CacheLayer S) : List (CacheLayer S) :=
  layers.map fun layer => if layer.shouldSkipLayer now then layer else write layer

def importEntry (now : Millis) (layers : List (CacheLayer S)) (entry : CacheSnapshotEntry S) :
    List (CacheLayer S) :=
  setAll layers now fun layer => layer.set entry.key entry.value entry.ttl now

/-- Every key is checked before the first record is written. -/
def CacheStack.importState (stack : CacheStack G S) (entries : List (CacheSnapshotEntry S))
    (now : Millis) : Except String (CacheStack G S) := do
  let normalizedEntries ← entries.mapM fun entry => do
    validateCacheKey entry.key
    return { entry with key := stack.qualifyKey entry.key }
  return { stack with layers := normalizedEntries.foldl (importEntry now) stack.layers }

/-- What a layer is given to hold by a write of the windows. -/
def CacheLayer.write (layer : CacheLayer (Stored V)) (key : String) (kind : CacheWriteKind)
    (value : Option V) (windows : Windows) (now : Millis) : CacheLayer (Stored V) :=
  let windows := { windows with freshTtlMs := windows.freshTtlMs.or layer.defaultTtl }
  let payload := Stored.envelope (createStoredValueEnvelope kind value windows now)
  layer.set key payload ((remainingStoredTtlMs now payload now).or windows.freshTtlMs) now

def CacheStack.set (stack : CacheStack G (Stored V)) (key : String) (value : V)
    (windows : Windows) (now : Millis) : Except String (CacheStack G (Stored V)) := do
  validateCacheKey key
  return { stack with
    layers := setAll stack.layers now fun layer =>
      layer.write (stack.qualifyKey key) .value (some value) windows now }

/-- The entry a read finds under a raw key: the first that is not past its windows. -/
def readFromLayers (now : Millis) (key : String) :
    List (CacheLayer (Stored V)) → Option (Stored V)
  | [] => none
  | layer :: rest =>
    match readLayerEntry layer now key with
    | none => readFromLayers now key rest
    | some stored =>
      if (resolveStoredValue now stored now).state = .expired then readFromLayers now key rest
      else some stored

/-- The entry `get` finds under a key. -/
def CacheStack.find (stack : CacheStack G (Stored V)) (now : Millis) (key : String) :
    Except String (Option (Stored V)) := do
  validateCacheKey key
  return readFromLayers now (stack.qualifyKey key) stack.layers

def isNegativeStoredValue (now : Millis) (stored : Stored V) : Bool :=
  match stored with
  | .plain _ => false
  | .envelope e => isStoredValueEnvelope now stored && decide (e.kind = .empty)

/-- What `get` returns for an entry it has found. -/
def hitValue (now : Millis) (stored : Stored V) : Js V :=
  if isNegativeStoredValue now stored then .undefined else (resolveStoredValue now stored now).value

/-- `get` without a fetcher: `none` if nothing is found. -/
def CacheStack.get (stack : CacheStack G (Stored V)) (now : Millis) (key : String) :
    Except String (Option (Js V)) := do
  return (← stack.find now key).map (hitValue now)

/-- The raw keys an export comes across, each with the layer that enumerates it. -/
def CacheStack.visits (stack : CacheStack G S) (now : Millis) : List (CacheLayer S × String) :=
  stack.layers.flatMap fun layer =>
    if layer.lists then (layer.keys now).map fun key => (layer, key) else []

/-- The export after it has come to the names in `exported`. -/
def CacheStack.visitKeys (stack : CacheStack G (Stored V)) (maxEntries : Option ℕ)
    (now : Millis) :
    List String → List (CacheLayer (Stored V) × String) →
      Except String (List (CacheSnapshotEntry (Stored V)))
  | _, [] => .ok []
  | exported, (layer, key) :: rest =>
    let exportedKey := stack.stripQualifiedKey key
    if exportedKey ∈ exported then stack.visitKeys maxEntries now exported rest
    else match readLayerEntry layer now key with
      | none => stack.visitKeys maxEntries now exported rest
      | some stored =>
        let exported := exportedKey :: exported
        if ∃ limit ∈ maxEntries, exported.length > limit then
          .error ("Snapshot export exceeds snapshotMaxEntries limit (" ++
            toString exported.length ++ " > " ++ toString (maxEntries.getD 0) ++ ").")
        else do
          return ⟨exportedKey, stored, remainingStoredTtlMs now stored now⟩ ::
            (← stack.visitKeys maxEntries now exported rest)

def CacheStack.exportState (stack : CacheStack G (Stored V)) (maxEntries : Option ℕ)
    (now : Millis) : Except String (List (CacheSnapshotEntry (Stored V))) :=
  stack.visitKeys maxEntries now [] (stack.visits now)

end Operations

end LayerCache.Snapshot
