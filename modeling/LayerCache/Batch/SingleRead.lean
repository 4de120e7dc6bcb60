import LayerCache.Resilience.GuardedFetch
import LayerCache.SingleFlight.RefreshAhead

/-! # A get by itself

One `get` from its call to the end of what it leaves behind, the refresh in the background
included, on a stack where nothing else is under way. The layers of different keys have
nothing to do with each other, so a `get` is a function of what the layers hold under its
key and of the breaker that its fetch goes by. The options of a call are any JavaScript value
that passes the checks.
-/

namespace LayerCache.Batch

open GuardedFetch

/-- A JavaScript value. An object is plain if it has no prototype or one whose constructor is
called `Object`; `ancestor` is a reference back to an object that the value is part of. -/
inductive OptionValue
  | undefined
  | null
  | boolean (b : Bool)
  | number (text : String)
  | string (s : String)
  | bigint (n : ℤ)
  | function (id : ℕ)
  | symbol (id : ℕ)
  | date (time : Option ℤ)
  | url (href : String)
  | regexp (source flags : String)
  | array (items : List OptionValue)
  | map (entries : List (OptionValue × OptionValue))
  | set (items : List OptionValue)
  | object (isPlain : Bool) (fields : List (String × OptionValue))
  | ancestor

namespace OptionValue

def dangerousObjectKeys : List String := ["__proto__", "prototype", "constructor"]

def reservedTypeTags : List String := ["Date", "URL", "RegExp", "Map", "Set"]

def isUndefined : OptionValue → Bool
  | .undefined => true
  | _ => false

/-- Whether a plain object claims a tag that the canonical form has for native values. -/
def isReserved (fields : List (String × OptionValue)) : Bool :=
  match fields.lookup "$type" with
  | some (.string tag) => tag ∈ reservedTypeTags
  | _ => false

/-- The entries of a map are sorted by their keys, and `undefined` has no text to be compared by: it
stands on the left of a comparison unless it comes first. -/
def sortsEntries (entries : List (OptionValue × OptionValue)) : Bool :=
  entries.tail.all fun entry => !entry.1.isUndefined

mutual

/-- Whether `serializeOptions` comes to a text: `normalizeForSerialization` throws at what it has no
canonical form for, and `JSON.stringify` at a bigint. -/
def serializes : OptionValue → Bool
  | .bigint _ | .function _ | .symbol _ | .ancestor => false
  | .date time => time.isSome
  | .array items | .set items => itemsSerialize items
  | .map entries => entriesSerialize entries && sortsEntries entries
  | .object isPlain fields => isPlain && !isReserved fields && fieldsSerialize fields
  | _ => true

def itemsSerialize : List OptionValue → Bool
  | [] => true
  | item :: items => item.serializes && itemsSerialize items

def entriesSerialize : List (OptionValue × OptionValue) → Bool
  | [] => true
  | (key, value) :: entries => key.serializes && value.serializes && entriesSerialize entries

def fieldsSerialize : List (String × OptionValue) → Bool
  | [] => true
  | (key, value) :: fields =>
    (key ∈ dangerousObjectKeys || value.serializes) && fieldsSerialize fields

end

example : serializes (.object true [("ttl", .number "1000"), ("tags", .array [.string "a"])]) =
    true := by
  decide

end OptionValue

variable {K V : Type}

/-- What the layers hold under one key, each entry with its expiry. -/
abbrev Cells (V : Type*) := ℕ → Option (Stored V × Option Millis)

/-- What a call goes by: its options, and the stack's own where they are silent. `ttls` is for
entries without deadlines. -/
structure Settings (V : Type*) where
  ttls : ℕ → Option Millis
  refreshAheadMs : ℕ → Millis
  circuitBreaker : Option BreakerOptions
  caching : CachingOptions V

/-- What a fetcher is told. Without a state it runs for a miss. -/
structure FetcherContext (V : Type*) where
  currentValue : Js V
  state : Option StoredValueState
  layer : Option ℕ

abbrev Fetcher (V : Type*) := FetcherContext V → Option (Option (Option V))

structure MGetEntry (K V : Type*) where
  key : K
  fetch : Option (Fetcher V)
  options : Option OptionValue

/-- A stack with nothing under way, and nobody else at its coordinator. Only the options of a call
ask for a sliding TTL. -/
structure Idle (K V : Type*) where
  now : Millis
  layers : ℕ
  degraded : ℕ → Bool
  writeBehind : ℕ → Bool
  singleFlightCoordinator : Bool
  isDisconnecting : Bool
  validateCacheKey : K → Bool
  validateWriteOptions : OptionValue → Bool
  slidingTtl : OptionValue → Bool
  settings : Option OptionValue → Settings V

/-- Where a `get` can be turned away: by a limit on what may be under way at once, the write
chain's for its writes, the stampede guard's for its task and the rate limiter's for its fetch, or
by the breaker of its fetch. -/
inductive Stage
  | backfill
  | guard
  | recheck
  | breaker
  | fetch
  | store
deriving DecidableEq

structure Found (V : Type*) where
  stored : Stored V
  value : Js V
  state : StoredValueState
  layerIndex : ℕ

/-- How a `get` ends: with its value, unless it rejects, what it leaves in the layers and, if it has
called its fetcher, whether that has yielded something. -/
structure Outcome (V : Type*) where
  value : Option (Js V)
  cells : Cells V
  fulfilled : Option Bool

namespace Idle

/-- A degraded layer is not asked, and a layer answers with an entry until its own expiry. -/
def readLayerEntry (cfg : Idle K V) (cells : Cells V) (l : ℕ) : Option (Stored V) :=
  if cfg.degraded l then none
  else (cells l).bind fun cell =>
    if cell.2.all fun e => cfg.now < e then some cell.1 else none

def layerSet (cfg : Idle K V) (stored : Stored V) (ttl : Option Millis) :
    Option (Stored V × Option Millis) :=
  some (stored, (ttl.filter fun ttl => 0 < ttl).map fun ttl => cfg.now + ttl)

/-- The entry goes to the layers before the one it was found in, unless the write is refused. -/
def backfill (cfg : Idle K V) (ttls : ℕ → Option Millis) (admitted : Bool) (stored : Stored V)
    (index : ℕ) (cells : Cells V) : Option (Cells V) :=
  if index = 0 then some cells
  else if admitted then
    some fun l =>
      if l < index ∧ !cfg.degraded l then
        cfg.layerSet stored ((remainingStoredTtlMs cfg.now stored cfg.now).or (ttls l))
      else cells l
  else none

/-- `readFromLayers` over the layers in `todo`: what it finds, if it does not reject, and what it
leaves. -/
def readFromLayers (cfg : Idle K V) (ttls : ℕ → Option Millis) (mode : ReadMode)
    (admitted : Bool) : List ℕ → Cells V → Option (Option (Found V)) × Cells V
  | [], cells => (some none, cells)
  | l :: todo, cells =>
    match cfg.readLayerEntry cells l with
    | none => cfg.readFromLayers ttls mode admitted todo cells
    | some stored =>
      let resolved := resolveStoredValue cfg.now stored cfg.now
      if resolved.state = .expired then
        cfg.readFromLayers ttls mode admitted todo (Function.update cells l none)
      else if mode = .freshOnly ∧ resolved.state ≠ .fresh then
        cfg.readFromLayers ttls mode admitted todo cells
      else
        match cfg.backfill ttls admitted stored l cells with
        | none => (none, cells)
        | some cells => (some (some ⟨stored, hitValue cfg.now stored, resolved.state, l⟩), cells)

variable (cfg : Idle K V) (settings : Settings V) (admits : Stage → Bool)

/-- `storeEntry`, as far as the layers that are written at once. -/
def storeEntry (write : WriteValue V) (cells : Cells V) : Cells V := fun l =>
  if l < cfg.layers ∧ !cfg.writeBehind l ∧ !cfg.degraded l then
    cfg.layerSet (write.entry cfg.now l)
      ((remainingStoredTtlMs cfg.now (write.entry cfg.now l) cfg.now).or
        (write.windows l).freshTtlMs)
  else cells l

def fetchAndPopulate (fetch : Fetcher V) (context : FetcherContext V) (cells : Cells V) :
    Outcome V :=
  if admits .breaker && admits .fetch then
    match fetch context with
    | none => ⟨none, cells, some false⟩
    | some fetched =>
      match settings.caching.write fetched with
      | none => ⟨some (.ofFetched fetched), cells, some true⟩
      | some write =>
        if admits .store then
          ⟨some (.ofFetched fetched), cfg.storeEntry write cells, some true⟩
        else ⟨none, cells, some true⟩
  else ⟨none, cells, none⟩

/-- The task has the coordinator's lock for the asking; it looks for a fresh value first, except
after a confirmed miss with a coordinator. -/
def fetchWithGuards (fetch : Fetcher V) (initialMissConfirmed : Bool)
    (context : FetcherContext V) (cells : Cells V) : Outcome V :=
  if !admits .guard then ⟨none, cells, none⟩
  else if initialMissConfirmed && cfg.singleFlightCoordinator then
    cfg.fetchAndPopulate settings admits fetch context cells
  else
    match cfg.readFromLayers settings.ttls .freshOnly (admits .recheck) (List.range cfg.layers)
      cells with
    | (none, cells) => ⟨none, cells, none⟩
    | (some (some hit), cells) => ⟨some hit.value, cells, none⟩
    | (some none, cells) => cfg.fetchAndPopulate settings admits fetch context cells

/-- What a fresh hit writes for a sliding TTL: the renewed entry, up to the layer of the hit. -/
def slide (slidingTtl : Bool) (hit : Found V) (cells : Cells V) : Cells V :=
  match refreshedStored cfg.now ⟨hit.stored, 0⟩ slidingTtl with
  | none => cells
  | some (item, ttl) => fun l =>
    if l ≤ hit.layerIndex ∧ !cfg.degraded l then cfg.layerSet item.stored ttl else cells l

/-- The hit is served, and its refresh in the background runs to its end, whatever that is. -/
def refresh (fetch : Fetcher V) (hit : Found V) (cells : Cells V) : Outcome V :=
  { cfg.fetchWithGuards settings admits fetch false
      ⟨hit.value, some hit.state, some hit.layerIndex⟩ cells with
    value := some hit.value }

def applyFreshReadPolicies (slidingTtl : Bool) (fetch : Option (Fetcher V)) (hit : Found V)
    (cells : Cells V) : Outcome V :=
  let options : GetOptions := ⟨fetch.isSome, slidingTtl, settings.refreshAheadMs⟩
  let cells := cfg.slide slidingTtl hit cells
  match fetch with
  | some fetch =>
    if shouldScheduleBackgroundRefresh cfg.now hit.stored options hit.layerIndex then
      cfg.refresh settings admits fetch hit cells
    else ⟨some hit.value, cells, none⟩
  | none => ⟨some hit.value, cells, none⟩

/-- A hit is served as it is, unless it is stale beyond its window for that and there is a
fetcher. -/
def serve (slidingTtl : Bool) (fetch : Option (Fetcher V)) (hit : Found V) (cells : Cells V) :
    Outcome V :=
  match hit.state, fetch with
  | .fresh, fetch => cfg.applyFreshReadPolicies settings admits slidingTtl fetch hit cells
  | .staleWhileRevalidate, some fetch => cfg.refresh settings admits fetch hit cells
  | _, some fetch =>
    let outcome := cfg.fetchWithGuards settings admits fetch false
      ⟨hit.value, some hit.state, some hit.layerIndex⟩ cells
    { outcome with value := outcome.value.or (some hit.value) }
  | _, none => ⟨some hit.value, cells, none⟩

def getPrepared (entry : MGetEntry K V) (cells : Cells V) : Outcome V :=
  let settings := cfg.settings entry.options
  match cfg.readFromLayers settings.ttls .allowStale (admits .backfill) (List.range cfg.layers)
    cells with
  | (none, cells) => ⟨none, cells, none⟩
  | (some (some hit), cells) =>
    cfg.serve settings admits (entry.options.any cfg.slidingTtl) entry.fetch hit cells
  | (some none, cells) =>
    match entry.fetch with
    | none => ⟨some .undefined, cells, none⟩
    | some fetch => cfg.fetchWithGuards settings admits fetch true ⟨.undefined, none, none⟩ cells

def accepts (entry : MGetEntry K V) : Bool :=
  cfg.validateCacheKey entry.key && entry.options.all cfg.validateWriteOptions

def breakerKey (entry : MGetEntry K V) : Option (BreakerKey K) :=
  entry.fetch.map fun _ =>
    resolveCircuitBreakerKey entry.key (cfg.settings entry.options).circuitBreaker

variable [DecidableEq K] (breakers : CircuitBreakerManager (BreakerKey K))

/-- By itself, a `get` does not come up against a limit, but its breaker may be open. -/
def alone (entry : MGetEntry K V) : Stage → Bool
  | .breaker => (cfg.breakerKey entry).all fun key => (breakers.assertClosed cfg.now key).1.isOk
  | _ => true

def get (entry : MGetEntry K V) (cells : Cells V) : Outcome V :=
  if cfg.accepts entry && !cfg.isDisconnecting then
    cfg.getPrepared (cfg.alone breakers entry) entry cells
  else ⟨none, cells, none⟩

/-- What a `get` leaves of the breakers: a fetcher that is called has found its breaker closed, and
how it went is recorded. -/
def settle (entry : MGetEntry K V) (fulfilled : Option Bool) :
    CircuitBreakerManager (BreakerKey K) :=
  match cfg.breakerKey entry, fulfilled with
  | some key, some fulfilled =>
    let closed := (breakers.assertClosed cfg.now key).2
    if fulfilled then closed.recordSuccess key
    else recordCircuitFailure closed cfg.now key (cfg.settings entry.options).circuitBreaker
  | _, _ => breakers

end Idle

end LayerCache.Batch
