import LayerCache.Store.Basic
import LayerCache.Invalidation.Bus
import LayerCache.Invalidation.TagIndex

/-! # A cache stack

The state of one `CacheStack` while any number of its operations are under way. Each
asynchronous operation is a record that says how far it has come; the records are
numbered by the step that created them, and a record's `captured` is the step at
which it took its fence.
-/

namespace LayerCache

/-- How a stack is set up. `writeBehind` and `isLocal` are per layer. -/
structure Config where
  layers : ℕ
  isLocal : ℕ → Bool
  writeBehind : ℕ → Bool
  batchSize : ℕ
  broadcastL1Invalidation : Bool
  stampedePrevention : Bool
  singleFlightCoordinator : Bool

/-- A memory layer in front of a remote one, written through. -/
def memoryOverRedis : Config where
  layers := 2
  isLocal := fun l => l = 0
  writeBehind := fun _ => false
  batchSize := 100
  broadcastL1Invalidation := false
  stampedePrevention := true
  singleFlightCoordinator := false

inductive ReadMode
  | allowStale
  | freshOnly
deriving DecidableEq

structure Hit (V : Type*) where
  item : Item V
  value : Js V
  state : StoredValueState
  layerIndex : ℕ
deriving DecidableEq

/-- How far a read has come with layer `index`. -/
inductive ReadPhase (V : Type*)
  | ready
  | loaded (found : Option (Item V))
  | purging
  | touched (hit : Hit V)
  | backfilling (hit : Hit V) (order : ℕ)
  | missed
  | done (hit : Option (Hit V))
  | failed
deriving DecidableEq

/-- One run of `readFromLayers`, also a single key of `mget` or a `getEntry`. -/
structure Reader (K V : Type*) where
  key : K
  mode : ReadMode
  fence : Fence
  captured : ℕ
  index : ℕ
  sawRetainableValue : Bool
  phase : ReadPhase V
deriving DecidableEq

structure Entry (K T : Type*) where
  key : K
  tags : Option (List T)
deriving DecidableEq

structure Deferred (K V : Type*) where
  kind : OrderKind
  keys : List K
  fence : K → Fence
  captured : ℕ
  strand : Strand K V

inductive WritePhase (K T : Type*)
  | storing
  | enqueued
  | tracking (todo : List (Entry K T))
  | announcing
  | done
deriving DecidableEq

/-- One run of `storeEntry` or `writeBatch`; its immediate order has the same number. `fence`
is what the run itself captured, which may be later than the fence of its order. -/
structure Writer (K V T : Type*) where
  kind : OrderKind
  entries : List (Entry K T)
  fence : K → Fence
  deferred : List (Deferred K V)
  phase : WritePhase K T

inductive InvalidationPhase (K : Type*)
  | called
  | removing (removal : ℕ)
  | forgetting (todo : List K)
  | forgettingAll
  | publishing
  | resolved (step : ℕ)
deriving DecidableEq

/-- A deletion or a clear, or the handling of the message sent at step `handles`. -/
structure Invalidation (K : Type*) where
  target : Target K
  localOnly : Bool
  forgets : Bool
  publishes : Option Operation
  handles : Option ℕ
  bumped : Option ℕ
  phase : InvalidationPhase K
deriving DecidableEq

/-- What a caller is handed, with the step its value stems from. -/
structure Answer (V : Type*) where
  value : Js V
  born : Option ℕ
deriving DecidableEq

structure GetOptions where
  hasFetcher : Bool
  slidingTtl : Bool
  refreshAheadMs : ℕ → Millis

inductive GetPhase (V : Type*)
  | reading
  | sliding (answer : Answer V) (todo : List ℕ) (stored : Item V) (ttl : Option Millis)
      (refresh : Bool)
  | entering (fallback : Option (Answer V))
  | waiting (task : ℕ) (fallback : Option (Answer V))
  | done (answer : Answer V)
  | failed
deriving DecidableEq

/-- A `get`, whose reader has the same number, or a background refresh. -/
structure Get (K V : Type*) where
  key : K
  options : GetOptions
  background : Bool
  fence : Fence
  phase : GetPhase V

inductive TaskPhase (V : Type*)
  | idle (missed : Bool)
  | rechecking (reader : ℕ)
  | fetching (born : ℕ)
  | storing (writer : ℕ) (answer : Answer V)
  | resolved (answer : Option (Answer V))
deriving DecidableEq

/-- An entry of the stampede guard with the task it runs, under its creator's fence. -/
structure Task (K V : Type*) where
  key : K
  fence : Fence
  captured : ℕ
  references : ℕ
  settled : Bool
  phase : TaskPhase V
deriving DecidableEq

/-- A message on the bus, with the step that published it. -/
structure Message (K : Type*) where
  target : Target K
  operation : Operation
  sent : ℕ
deriving DecidableEq

structure Stack (K V T : Type) where
  clock : ℕ
  store : Store K V
  degraded : ℕ → Bool
  index : TagIndex K T
  readers : ℕ → Option (Reader K V)
  writers : ℕ → Option (Writer K V T)
  writeBehindQueue : List (Deferred K V)
  flushing : Option (List (Deferred K V) × Option ℕ)
  invalidations : ℕ → Option (Invalidation K)
  gets : ℕ → Option (Get K V)
  tasks : ℕ → Option (Task K V)
  inFlight : K → Option ℕ
  backgroundRefreshes : K → Option ℕ
  outbox : List (Message K)

namespace Stack

variable {K V T : Type}

/-- A stack with nothing under way over any contents of the layers. Contents count as born
at step zero, and the steps of the stack are numbered from one. -/
def initial (now : Millis) (contents : ℕ → K → Option (Stored V × Option Millis)) :
    Stack K V T where
  clock := 1
  store :=
    { now
      cells := fun l k => (contents l k).map fun c => ⟨⟨c.1, 0⟩, c.2, none⟩
      epochs := .initial
      chain := .empty
      orders := fun _ => none
      removals := fun _ => none }
  degraded := fun _ => false
  index := .empty
  readers := fun _ => none
  writers := fun _ => none
  writeBehindQueue := []
  flushing := none
  invalidations := fun _ => none
  gets := fun _ => none
  tasks := fun _ => none
  inFlight := fun _ => none
  backgroundRefreshes := fun _ => none
  outbox := []

def slowEntry (l k : ℕ) : Option (Stored ℕ × Option Millis) :=
  if l = 1 ∧ k = 0 then some (.plain 5, none) else none

def putReader (s : Stack K V T) (r : ℕ) (reader : Reader K V) : Stack K V T :=
  { s with readers := Function.update s.readers r (some reader) }

def putWriter (s : Stack K V T) (w : ℕ) (writer : Writer K V T) : Stack K V T :=
  { s with writers := Function.update s.writers w (some writer) }

def putInvalidation (s : Stack K V T) (d : ℕ) (inv : Invalidation K) : Stack K V T :=
  { s with invalidations := Function.update s.invalidations d (some inv) }

def putGet (s : Stack K V T) (g : ℕ) (get : Get K V) : Stack K V T :=
  { s with gets := Function.update s.gets g (some get) }

def putTask (s : Stack K V T) (i : ℕ) (task : Task K V) : Stack K V T :=
  { s with tasks := Function.update s.tasks i (some task) }

/-- Nothing is under way and the write-behind queue is empty. -/
structure Quiescent (s : Stack K V T) : Prop where
  readers : ∀ r < s.clock, ∀ reader ∈ s.readers r,
    (reader.phase matches .done _ | .failed) = true
  writers : ∀ w < s.clock, ∀ writer ∈ s.writers w, (writer.phase matches .done) = true
  queue : s.writeBehindQueue.isEmpty = true
  flushing : s.flushing.isNone = true
  invalidations : ∀ d < s.clock, ∀ inv ∈ s.invalidations d,
    (inv.phase matches .resolved _) = true
  gets : ∀ g < s.clock, ∀ get ∈ s.gets g, (get.phase matches .done _ | .failed) = true
  tasks : ∀ i < s.clock, ∀ task ∈ s.tasks i, task.settled = true
  orders : ∀ t < s.clock, ∀ o ∈ s.store.orders t, s.store.chain.settledAt t = true

instance (s : Stack K V T) : Decidable s.Quiescent :=
  decidable_of_iff
    ((∀ r < s.clock, ∀ reader ∈ s.readers r, (reader.phase matches .done _ | .failed) = true) ∧
      (∀ w < s.clock, ∀ writer ∈ s.writers w, (writer.phase matches .done) = true) ∧
      s.writeBehindQueue.isEmpty = true ∧ s.flushing.isNone = true ∧
      (∀ d < s.clock, ∀ inv ∈ s.invalidations d, (inv.phase matches .resolved _) = true) ∧
      (∀ g < s.clock, ∀ get ∈ s.gets g, (get.phase matches .done _ | .failed) = true) ∧
      (∀ i < s.clock, ∀ task ∈ s.tasks i, task.settled = true) ∧
      ∀ t < s.clock, ∀ o ∈ s.store.orders t, s.store.chain.settledAt t = true)
    ⟨fun ⟨hr, hw, hq, hf, hd, hg, hi, ho⟩ => ⟨hr, hw, hq, hf, hd, hg, hi, ho⟩,
      fun ⟨hr, hw, hq, hf, hd, hg, hi, ho⟩ => ⟨hr, hw, hq, hf, hd, hg, hi, ho⟩⟩

end Stack

end LayerCache
