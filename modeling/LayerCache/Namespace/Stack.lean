import LayerCache.Invalidation.TagIndex
import LayerCache.Matching.Glob
import LayerCache.Snapshot.Stack

/-! # Tags, patterns and prefixes

The operations of a stack that a namespace uses: writes that assign tags, reads, and the
invalidations that find their keys by tag, by pattern or by prefix. All layers are healthy,
and bounded layers are taken below their bound.
-/

namespace LayerCache.Namespaced

open Snapshot (Cell generationPrefix)

def units (s : String) : List ℕ := s.toList.flatMap Keys.codeUnits

def startsWith (text pre : String) : Bool := (units pre).isPrefixOf (units text)

def wildcards : Glob.Wildcards ℕ where
  star := '*'.toNat
  any := '?'.toNat

/-- `PatternMatcher.matches` -/
def patternMatches (pattern value : String) : Bool :=
  Glob.matchLinear wildcards (units pattern) (units value)

structure Layer (V : Type) where
  /-- Whether the layer has `keys` or `forEachKey`. -/
  lists : Bool
  defaultTtl : Option Millis
  entries : List (String × Cell (Stored V))

namespace Layer
variable {V : Type} (layer : Layer V)

def cell (key : String) : Option (Cell (Stored V)) := layer.entries.lookup key

def getEntry (now : Millis) (key : String) : Option (Stored V) :=
  ((layer.cell key).filter fun cell => decide (cell.Live now)).map Cell.value

def keys (now : Millis) : List String :=
  (layer.entries.filter fun entry => decide (entry.2.Live now)).map Prod.fst

def delete (key : String) : Layer V :=
  { layer with entries := layer.entries.filter (·.1 ≠ key) }

/-- `ttl && ttl > 0 ? now + ttl : null`, with the layer's default where there is none. -/
def set (key : String) (value : Stored V) (ttl : Option Millis) (now : Millis) : Layer V :=
  { layer with
    entries := layer.entries.filter (·.1 ≠ key) ++
      [(key, ⟨value, ((ttl.or layer.defaultTtl).filter fun ms => decide (0 < ms)).map (now + ·)⟩)] }

def write (key : String) (kind : CacheWriteKind) (value : Option V) (windows : Windows)
    (now : Millis) : Layer V :=
  let windows := { windows with freshTtlMs := windows.freshTtlMs.or layer.defaultTtl }
  let payload := Stored.envelope (createStoredValueEnvelope kind value windows now)
  layer.set key payload ((remainingStoredTtlMs now payload now).or windows.freshTtlMs) now

/-- Expires an entry that is found; what is no envelope stays. -/
def expire (now : Millis) (key : String) : Layer V :=
  match layer.getEntry now key with
  | none => layer
  | some stored =>
    if isStoredValueEnvelope now stored then
      let expired := expireStoredEnvelope now stored now
      layer.set key expired (remainingStoredTtlMs now expired now) now
    else layer

end Layer

structure EntryOverrides where
  /-- Absent, or given and perhaps `undefined`. -/
  tags : Option (Option (List String))
  windows : Option Windows

structure CacheWriteOptions (V : Type) where
  tags : Option (List String)
  windows : Windows
  contextOptions : Option (String → CacheWriteKind → Option V →
    Except String (Option EntryOverrides))

structure CacheMSetEntry (V : Type) where
  key : String
  value : V
  options : CacheWriteOptions V

structure ResolvedOptions where
  tags : Option (List String)
  windows : Windows

def MAX_TAGS_PER_OPERATION : ℕ := 128

def validateTags : Option (List String) → Except String Unit
  | none => .ok ()
  | some tags => do
    if tags.length > MAX_TAGS_PER_OPERATION then
      .error ("options.tags must contain at most " ++ toString MAX_TAGS_PER_OPERATION ++ " tags.")
    tags.forM validateTag

def resolveContextOptions {V : Type} (key : String) (kind : CacheWriteKind) (value : Option V)
    (options : CacheWriteOptions V) : Except String ResolvedOptions :=
  match options.contextOptions with
  | none => .ok ⟨options.tags, options.windows⟩
  | some contextOptions =>
    match contextOptions key kind value with
    | .error error => .error
      ("options.contextOptions() failed for key \"" ++ key ++ "\": " ++ error)
    | .ok none => .ok ⟨options.tags, options.windows⟩
    | .ok (some overrides) =>
      let tags := overrides.tags.getD options.tags
      match validateTags (overrides.tags.getD none) with
      | .error error => .error
        ("options.contextOptions() returned invalid entry options for key \"" ++ key ++ "\": " ++
          error)
      | .ok _ => .ok ⟨tags, overrides.windows.getD options.windows⟩

structure CacheStack (G V : Type) where
  currentGeneration : Option G
  layers : List (Layer V)
  tagIndex : TagIndex String String
  /-- A fraction would let through what its whole part does. -/
  invalidationMaxKeys : Option ℕ
  now : Millis

inductive Selection
  | keys (keys : List String)
  | tag (tag : String)
  | tags (tags : List String) (all : Bool)
  | pattern (pattern : String)
  | startingWith (pre : String)

inductive Effect
  | delete
  | expire
  deriving DecidableEq

namespace CacheStack
variable {G V : Type} [ToString G] (stack : CacheStack G V)

def qualifyKey (key : String) : String := generationPrefix stack.currentGeneration ++ key

def store (key : String) (kind : CacheWriteKind) (value : Option V)
    (resolved : ResolvedOptions) : CacheStack G V :=
  { stack with
    layers := stack.layers.map fun layer =>
      layer.write key kind value resolved.windows stack.now
    tagIndex := match resolved.tags with
      | some tags => stack.tagIndex.track key tags
      | none => stack.tagIndex.touch key }

def storeEntry (key : String) (kind : CacheWriteKind) (value : Option V)
    (options : CacheWriteOptions V) : Except String (CacheStack G V) := do
  let resolved ← resolveContextOptions key kind value options
  return stack.store key kind value resolved

def set (key : String) (value : V) (options : CacheWriteOptions V) :
    Except String (CacheStack G V) := do
  validateCacheKey key
  validateTags options.tags
  stack.storeEntry (stack.qualifyKey key) .value (some value) options

/-- All options are resolved before anything is written. -/
def mset (entries : List (CacheMSetEntry V)) : Except String (CacheStack G V) := do
  entries.forM fun entry => validateCacheKey entry.key
  entries.forM fun entry => validateTags entry.options.tags
  let resolved ← entries.mapM fun entry => do
    let key := stack.qualifyKey entry.key
    let options ← resolveContextOptions key .value (some entry.value) entry.options
    return (key, entry.value, options)
  return resolved.foldl (fun stack (key, value, options) =>
    stack.store key .value (some value) options) stack

/-- Writes an entry that was found to a layer before the one that held it. -/
def backfill (now : Millis) (key : String) (ttl : Option Millis) (layer : Layer V) :
    Option (Stored V) → Layer V
  | none => layer
  | some stored => layer.set key stored ((remainingStoredTtlMs now stored now).or ttl) now

/-- Reads through the layers: entries past their windows are deleted on the way, and the
entry that is found is written to the layers before. -/
def readFromLayers (now : Millis) (key : String) (ttl : Option Millis) :
    List (Layer V) → Option (Stored V) × List (Layer V)
  | [] => (none, [])
  | layer :: rest =>
    let (hit, after) := readFromLayers now key ttl rest
    match layer.getEntry now key with
    | none => (hit, backfill now key ttl layer hit :: after)
    | some stored =>
      if (resolveStoredValue now stored now).state = .expired then
        (hit, backfill now key ttl (layer.delete key) hit :: after)
      else (some stored, layer :: rest)

/-- The read of a raw key, with its traces in the tag index. -/
def read (key : String) (ttl : Option Millis) : Option (Stored V) × CacheStack G V :=
  let (hit, layers) := readFromLayers stack.now key ttl stack.layers
  (hit, { stack with
    layers
    tagIndex := if hit.isSome then stack.tagIndex.touch key else stack.tagIndex.remove key })

/-- What a fetcher is run for: there is no fresh entry. -/
def due (now : Millis) (hit : Option (Stored V)) (fetched : Option (CacheWriteKind × Option V)) :
    Option (CacheWriteKind × Option V) :=
  match hit with
  | none => fetched
  | some stored => if (resolveStoredValue now stored now).state = .fresh then none else fetched

/-- `get` with a fetcher: `fetched` is what a run of the fetcher has stored, if anything. An
error of the callback leaves the state as the read has left it. -/
def get (key : String) (fetched : Option (CacheWriteKind × Option V))
    (options : CacheWriteOptions V) : Except String (CacheStack G V) := do
  validateCacheKey key
  validateTags options.tags
  let key := stack.qualifyKey key
  let (hit, stack) := stack.read key options.windows.freshTtlMs
  match due stack.now hit fetched with
  | none => return stack
  | some (kind, value) => return (stack.storeEntry key kind value options).toOption.getD stack

/-- The error reports as many keys as had been counted: the search for keys ends at the first that
is too many. -/
def assertWithinLimit (reported : ℕ → ℕ) (keys : List String) : Except String (List String) :=
  match stack.invalidationMaxKeys with
  | none => .ok keys
  | some maxKeys =>
    if keys.length > maxKeys then
      .error ("Invalidation matched too many keys (" ++ toString (reported maxKeys) ++ " > " ++
        toString maxKeys ++ ").")
    else .ok keys

def collectKeysForTag (tag : String) : Except String (List String) :=
  stack.assertWithinLimit Nat.succ (stack.tagIndex.keysForTag tag)

/-- The keys that the index knows or a layer enumerates and that pass the test. -/
def discover (test : String → Bool) : Except String (List String) :=
  stack.assertWithinLimit Nat.succ
    ((stack.tagIndex.knownKeys ++ stack.layers.flatMap fun layer =>
      if layer.lists then layer.keys stack.now else []).filter test).dedup

def collectKeysWithPrefix (pre : String) : Except String (List String) :=
  stack.discover fun key => startsWith key pre

def collectKeysMatchingPattern (pattern : String) : Except String (List String) :=
  stack.discover (patternMatches pattern)

def intersectKeys : List (List String) → List String
  | [] => []
  | first :: rest => first.dedup.filter fun key => rest.all fun group => key ∈ group

def select : Selection → Except String (List String)
  | .keys keys => do
    keys.forM validateCacheKey
    return keys.map stack.qualifyKey
  | .tag tag => do
    validateTag tag
    stack.collectKeysForTag tag
  | .tags tags all => do
    if tags.isEmpty then return []
    validateTags (some tags)
    let keysByTag ← tags.mapM stack.collectKeysForTag
    let keys := if all then intersectKeys keysByTag else keysByTag.flatten.dedup
    stack.assertWithinLimit (fun _ => keys.length) keys
  | .pattern pattern => do
    validatePattern pattern
    stack.collectKeysMatchingPattern (stack.qualifyKey pattern)
  | .startingWith pre => do
    validateCacheKey pre
    stack.collectKeysWithPrefix (stack.qualifyKey pre)

def deleteKeys (keys : List String) : CacheStack G V :=
  { stack with
    layers := stack.layers.map fun layer => keys.foldl Layer.delete layer
    tagIndex := keys.foldl TagIndex.remove stack.tagIndex }

def expireKeys (keys : List String) : CacheStack G V :=
  let found := keys.filter fun key =>
    stack.layers.any fun layer => (layer.getEntry stack.now key).isSome
  { stack with
    layers := stack.layers.map fun layer => keys.foldl (fun l key => l.expire stack.now key) layer
    tagIndex := (keys.filter fun key => key ∉ found).foldl TagIndex.remove stack.tagIndex }

def invalidate (effect : Effect) (selection : Selection) : Except String (CacheStack G V) := do
  let keys ← stack.select selection
  match effect with
  | .delete => return stack.deleteKeys keys
  | .expire => return stack.expireKeys keys

end CacheStack

end LayerCache.Namespaced
