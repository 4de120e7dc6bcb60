import LayerCache.StoredValue.Basic
import Mathlib.Algebra.Order.Round
import Mathlib.Order.Interval.Set.Basic

/-! # The TTL of a write

What a write puts into a layer is decided when the write gets to that layer: a policy, the options
and the layer's own TTL give a base, which grows with the accesses to the key and is moved by
a random amount. Numbers may be given for each layer by its name. The policies that go by the
local calendar have it as a parameter.
-/

namespace LayerCache.Ttl

/-- A number for every layer, or numbers for the layers that are named: `number | LayerTtlMap`. -/
inductive LayerNumber
  | number (ms : Millis)
  | map (entries : List (String × Option Millis))
  deriving DecidableEq, Repr

structure CacheAdaptiveTtlOptions where
  hotAfter : Option ℚ
  step : Option LayerNumber
  maxTtl : Option LayerNumber
  deriving DecidableEq, Repr

/-- The option `adaptiveTtl`: `boolean | CacheAdaptiveTtlOptions`. -/
inductive AdaptiveTtl
  | boolean (enabled : Bool)
  | options (o : CacheAdaptiveTtlOptions)
  deriving DecidableEq, Repr

inductive CacheTtlPolicy (K V : Type*)
  | function (policy : K → Option V → Option Millis)
  | untilMidnight
  | nextHour
  | aligned (alignTo : Millis)

structure CacheEntryWriteOptions (K V : Type*) where
  ttl : Option LayerNumber
  ttlPolicy : Option (CacheTtlPolicy K V)
  negativeTtl : Option LayerNumber
  staleWhileRevalidate : Option LayerNumber
  staleIfError : Option LayerNumber
  ttlJitter : Option LayerNumber
  adaptiveTtl : Option AdaptiveTtl

/-- What `contextOptions` returns. A property it does not have is not the same as one that is
`undefined`. -/
structure EntryOverrides (K V : Type*) where
  ttl : Option (Option LayerNumber)
  ttlPolicy : Option (Option (CacheTtlPolicy K V))
  negativeTtl : Option (Option LayerNumber)
  staleWhileRevalidate : Option (Option LayerNumber)
  staleIfError : Option (Option LayerNumber)
  ttlJitter : Option (Option LayerNumber)
  adaptiveTtl : Option (Option AdaptiveTtl)

/-- A resolver that yields nothing throws, or returns what is no plain object. -/
structure CacheWriteOptions (K V : Type*) extends CacheEntryWriteOptions K V where
  contextOptions : Option (K → Option V → CacheWriteKind → Option (Option (EntryOverrides K V)))

/-- The options of a stack that are defaults for those of its writes. -/
structure CacheStackOptions where
  negativeTtl : Option LayerNumber
  staleWhileRevalidate : Option LayerNumber
  staleIfError : Option LayerNumber
  ttlJitter : Option LayerNumber
  adaptiveTtl : Option AdaptiveTtl
  deriving DecidableEq, Repr

structure CacheLayer where
  name : String
  defaultTtl : Option Millis
  deriving DecidableEq, Repr

/-- The numbers that `secureRandom` yields, one after the other. -/
abbrev SecureRandom := ℕ → Set.Ico (0 : ℚ) 1

theorem zero_mem_unitInterval : (0 : ℚ) ∈ Set.Ico (0 : ℚ) 1 := ⟨le_rfl, zero_lt_one⟩

/-- What the TTL of an entry depends on apart from the options: how often each key has been
accessed, the clock at the start and at the turn of each layer, and the random source. -/
structure Circumstances (K : Type*) where
  hits : K → Option ℕ
  now : Millis
  clock : ℕ → Millis
  random : SecureRandom
  nextMidnight : Millis → Millis
  nextHour : Millis → Millis

variable {K V : Type*}

def validateNonNegativeNumber (value : Millis) : Bool := decide (0 ≤ value)

def validatePositiveNumber (value : Option ℚ) : Bool := value.all fun value => decide (0 < value)

def validateLayerNumberOption : Option LayerNumber → Bool
  | none => true
  | some (.number ms) => validateNonNegativeNumber ms
  | some (.map entries) => entries.all fun entry => entry.2.all validateNonNegativeNumber

def validateAdaptiveTtlOptions : Option AdaptiveTtl → Bool
  | some (.options o) =>
    validatePositiveNumber o.hotAfter && validateLayerNumberOption o.step &&
      validateLayerNumberOption o.maxTtl
  | _ => true

def validateTtlPolicy : Option (CacheTtlPolicy K V) → Bool
  | some (.aligned alignTo) => validatePositiveNumber (some alignTo)
  | _ => true

def validateContextEntryOptions (o : EntryOverrides K V) : Bool :=
  validateLayerNumberOption o.ttl.join && validateLayerNumberOption o.negativeTtl.join &&
    validateLayerNumberOption o.staleWhileRevalidate.join &&
    validateLayerNumberOption o.staleIfError.join && validateLayerNumberOption o.ttlJitter.join &&
    validateTtlPolicy o.ttlPolicy.join && validateAdaptiveTtlOptions o.adaptiveTtl.join

def CacheStackOptions.validateConfiguration (o : CacheStackOptions) : Bool :=
  validateLayerNumberOption o.negativeTtl && validateLayerNumberOption o.staleWhileRevalidate &&
    validateLayerNumberOption o.staleIfError && validateLayerNumberOption o.ttlJitter &&
    validateAdaptiveTtlOptions o.adaptiveTtl

def readLayerNumber (layerName : String) : LayerNumber → Option Millis
  | .number ms => some ms
  | .map entries => (entries.lookup layerName).join

def resolveLayerMs (layerName : String) (override globalDefault : Option LayerNumber)
    (fallback : Option Millis) : Option Millis :=
  match override, globalDefault with
  | some value, _ => (readLayerNumber layerName value).or fallback
  | none, some value => (readLayerNumber layerName value).or fallback
  | none, none => fallback

def defaultNegativeTtlMs : Millis := 60000

def resolvePolicyTtl (env : Circumstances K) (clock : Millis) (key : K) (value : Option V) :
    CacheTtlPolicy K V → Option Millis
  | .function policy => policy key value
  | .untilMidnight => some (max 1 ⌈env.nextMidnight clock - clock⌉)
  | .nextHour => some (max 1 ⌈env.nextHour clock - clock⌉)
  | .aligned alignTo => some (max 1 (⌈(clock + 1) / alignTo⌉ * alignTo - clock))

/-- The configuration of an adaptive TTL that is turned on. -/
def AdaptiveTtl.config : AdaptiveTtl → Option CacheAdaptiveTtlOptions
  | .boolean false => none
  | .boolean true => some ⟨none, none, none⟩
  | .options o => some o

def CacheAdaptiveTtlOptions.stepMs (config : CacheAdaptiveTtlOptions) (layerName : String)
    (ttl : Millis) : Millis :=
  (resolveLayerMs layerName config.step none (some (max 1 (round (ttl / 2) : ℤ)))).getD 0

def CacheAdaptiveTtlOptions.maxTtlMs (config : CacheAdaptiveTtlOptions) (layerName : String)
    (ttl : Millis) : Millis :=
  (resolveLayerMs layerName config.maxTtl none (some (ttl + config.stepMs layerName ttl * 4))).getD
    ttl

def applyAdaptiveTtl (hits : Option ℕ) (layerName : String) (ttl : Option Millis)
    (adaptiveTtl : Option AdaptiveTtl) : Option Millis :=
  match ttl, adaptiveTtl.bind AdaptiveTtl.config, hits with
  | some ttl, some config, some hits =>
    let hotAfter := config.hotAfter.getD 3
    if ttl = 0 ∨ hits < hotAfter then some ttl
    else
      let multiplier : ℤ := ⌊hits / hotAfter⌋
      some (min (config.maxTtlMs layerName ttl) (ttl + config.stepMs layerName ttl * multiplier))
  | ttl, _, _ => ttl

/-- The jittered TTL, and how many random numbers have been drawn by then. -/
def applyJitter (random : SecureRandom) (drawn : ℕ) (ttl jitter : Option Millis) :
    Option Millis × ℕ :=
  match ttl, jitter with
  | some ttl, some jitter =>
    if ttl ≤ 0 ∨ jitter ≤ 0 then (some ttl, drawn)
    else (some (max 1 (round (ttl + ((random drawn).1 * 2 - 1) * jitter))), drawn + 1)
  | ttl, _ => (ttl, drawn)

def resolveBaseTtl (env : Circumstances K) (clock : Millis) (key : K) (layerName : String)
    (kind : CacheWriteKind) (options : CacheEntryWriteOptions K V) (fallbackTtl : Option Millis)
    (globalNegativeTtl globalTtl : Option LayerNumber) (value : Option V) : Option Millis :=
  match kind with
  | .value =>
    resolveLayerMs layerName options.ttl globalTtl
      ((options.ttlPolicy.bind (resolvePolicyTtl env clock key value)).or fallbackTtl)
  | .empty =>
    resolveLayerMs layerName options.negativeTtl globalNegativeTtl
      ((resolveLayerMs layerName options.ttl globalTtl fallbackTtl).or (some defaultNegativeTtlMs))

def resolveFreshTtl (env : Circumstances K) (clock : Millis) (drawn : ℕ) (key : K)
    (layerName : String) (kind : CacheWriteKind) (options : CacheEntryWriteOptions K V)
    (fallbackTtl : Option Millis) (globalNegativeTtl globalTtl : Option LayerNumber)
    (value : Option V) : Option Millis × ℕ :=
  let baseTtl := resolveBaseTtl env clock key layerName kind options fallbackTtl globalNegativeTtl
    globalTtl value
  let adaptiveTtl := applyAdaptiveTtl (env.hits key) layerName baseTtl options.adaptiveTtl
  let jitter := resolveLayerMs layerName options.ttlJitter none none
  applyJitter env.random drawn adaptiveTtl jitter

/-- A stack as far as its writes go. It has a layer at least. -/
structure StackConfiguration where
  layers : List CacheLayer
  options : CacheStackOptions
  layers_ne : layers ≠ []
  valid : options.validateConfiguration = true

structure LayerSetEntry (K V : Type*) where
  key : K
  value : StoredValueEnvelope V
  ttl : Option Millis
  deriving DecidableEq, Repr

structure WriteRequest (K V : Type*) where
  key : K
  kind : CacheWriteKind
  value : Option V
  options : CacheEntryWriteOptions K V

variable (cfg : StackConfiguration) (env : Circumstances K)

/-- The stack hands its negative TTL to the resolver and no TTL of its own. -/
def buildLayerSetEntry (l : ℕ) (layer : CacheLayer) (r : WriteRequest K V) (drawn : ℕ) :
    LayerSetEntry K V × ℕ :=
  let clock := env.clock l
  let freshTtl := resolveFreshTtl env clock drawn r.key layer.name r.kind r.options layer.defaultTtl
    cfg.options.negativeTtl none r.value
  let payload := createStoredValueEnvelope r.kind r.value
    { freshTtlMs := freshTtl.1
      staleWhileRevalidateMs := resolveLayerMs layer.name r.options.staleWhileRevalidate
        cfg.options.staleWhileRevalidate none
      staleIfErrorMs := resolveLayerMs layer.name r.options.staleIfError cfg.options.staleIfError
        none } env.now
  ({ key := r.key
     value := payload
     ttl := (remainingStoredTtlMs clock (.envelope payload) env.now).or freshTtl.1 }, freshTtl.2)

/-- The entries for the layers in `todo`, built one after the other. -/
def buildLayerSetEntries : List (ℕ × WriteRequest K V) → ℕ → List (ℕ × LayerSetEntry K V)
  | [], _ => []
  | (l, r) :: todo, drawn =>
    match cfg.layers[l]? with
    | none => buildLayerSetEntries todo drawn
    | some layer =>
      let built := buildLayerSetEntry cfg env l layer r drawn
      (l, built.1) :: buildLayerSetEntries todo built.2

def CacheEntryWriteOptions.override (base : CacheEntryWriteOptions K V)
    (o : EntryOverrides K V) : CacheEntryWriteOptions K V where
  ttl := o.ttl.getD base.ttl
  ttlPolicy := o.ttlPolicy.getD base.ttlPolicy
  negativeTtl := o.negativeTtl.getD base.negativeTtl
  staleWhileRevalidate := o.staleWhileRevalidate.getD base.staleWhileRevalidate
  staleIfError := o.staleIfError.getD base.staleIfError
  ttlJitter := o.ttlJitter.getD base.ttlJitter
  adaptiveTtl := o.adaptiveTtl.getD base.adaptiveTtl

def resolveContextOptions (key : K) (kind : CacheWriteKind) (value : Option V)
    (options : CacheWriteOptions K V) : Option (CacheEntryWriteOptions K V) :=
  match options.contextOptions with
  | none => some options.toCacheEntryWriteOptions
  | some contextOptions =>
    match contextOptions key value kind with
    | none => none
    | some none => some options.toCacheEntryWriteOptions
    | some (some overrides) =>
      if validateContextEntryOptions overrides then
        some (options.toCacheEntryWriteOptions.override overrides)
      else none

/-- The layers of a stack, and which of them are degraded or written behind. -/
structure LayerStates where
  degraded : ℕ → Bool
  writeBehind : ℕ → Bool

/-- The layers that are written behind have their turn after the others. -/
def LayerStates.turns (s : LayerStates) (layers : List CacheLayer) : List ℕ :=
  let indices := List.range layers.length
  (indices.filter (fun l => !s.writeBehind l) ++ indices.filter s.writeBehind).filter
    fun l => !s.degraded l

structure WriteEntry (K V : Type*) where
  key : K
  value : Option V
  options : CacheWriteOptions K V

/-- The calls that write: a set, a batch, and what a read stores that has called its fetcher. -/
inductive Write (K V : Type*)
  | set (entry : WriteEntry K V)
  | mset (entries : List (WriteEntry K V))
  | fetched (kind : CacheWriteKind) (entry : WriteEntry K V)

variable (states : LayerStates)

def WriteEntry.resolve (kind : CacheWriteKind) (entry : WriteEntry K V) :
    Option (WriteRequest K V) :=
  (resolveContextOptions entry.key kind entry.value entry.options).map fun options =>
    { key := entry.key, kind, value := entry.value, options }

/-- What `storeEntry` hands to the layers. -/
def storeEntry (kind : CacheWriteKind) (entry : WriteEntry K V) :
    Option (List (ℕ × LayerSetEntry K V)) :=
  (entry.resolve kind).map fun r =>
    buildLayerSetEntries cfg env ((states.turns cfg.layers).map fun l => (l, r)) 0

/-- What `writeBatch` hands to the layers. The entries are built key by key. -/
def writeBatch (entries : List (WriteEntry K V)) : Option (List (ℕ × LayerSetEntry K V)) :=
  (entries.mapM (WriteEntry.resolve .value)).map fun rs =>
    buildLayerSetEntries cfg env
      (rs.flatMap fun r =>
        ((List.range cfg.layers.length).filter fun l => !states.degraded l).map fun l => (l, r)) 0

/-- What a write hands to the layers, unless it rejects before. -/
def Write.stored : Write K V → Option (List (ℕ × LayerSetEntry K V))
  | .set entry => storeEntry cfg env states .value entry
  | .mset entries => writeBatch cfg env states entries
  | .fetched .value entry => storeEntry cfg env states .value entry
  | .fetched .empty entry => storeEntry cfg env states .empty { entry with value := none }

end LayerCache.Ttl
