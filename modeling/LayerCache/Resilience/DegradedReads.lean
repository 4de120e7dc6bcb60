import LayerCache.SingleFlight.RefreshAhead
import LayerCache.Transition.Program

/-! # Reads over layers that fail

The read operations of a stack, call by call. What is called answers as the surroundings have it:
they change with every answer, and so stand for the layers, the clock, the other operations that
are under way, and everything else that a read depends on.
-/

namespace LayerCache.Degradation

inductive LayerOperation
  | get
  | getEntry
  | getMany
  | set
  | has
  | delete
deriving DecidableEq

inductive Rejection
  | layer (layer : ℕ) (operation : LayerOperation)
  | other (reason : String)
deriving DecidableEq

/-- What can reject beside the layers: a stack that cannot start, the limits on writes, tasks and
fetches, their timeouts, an index, a coordinator, a breaker, a bus, the write-behind queue. -/
inductive Checkpoint
  | startup
  | admission
  | index
  | guard
  | coordinator
  | breaker
  | limiter
  | queue
  | bus
deriving DecidableEq

inductive Role
  | worker
  | waiter
deriving DecidableEq

inductive Question
  | shouldSkipLayer (layer : ℕ)
  | isWriteOutdated (key : String)
  | slides (key : String)
  | cacheNullValues (key : String)
  | negativeCache (key : String)
  | shouldCache (key : String)
deriving DecidableEq

/-- Answers to what a read asks for; `none` is a layer's rejection. -/
structure Surroundings (σ V : Type) where
  now : σ → Millis
  holds : Question → σ → Bool × σ
  refuses : Checkpoint → σ → Option String × σ
  degrade : ℕ → σ → σ
  read : ℕ → LayerOperation → String → σ → Option (Option (Stored V)) × σ
  getMany : ℕ → List String → σ → Option (String → Option (Stored V)) × σ
  has : ℕ → String → σ → Option Bool × σ
  set : ℕ → String → σ → Option Unit × σ
  delete : ℕ → String → σ → Option Unit × σ
  fetch : String → σ → Except String (Option (Option V)) × σ
  role : String → σ → Role × σ
  polls : σ → ℕ × σ

/-- What has come of the layers and the fetcher. An entry that a layer has answered with is noted
when it is looked at. -/
inductive Event (V : Type)
  | skipped (layer : ℕ)
  | rejected (layer : ℕ) (operation : LayerOperation)
  | missing (layer : ℕ) (key : String)
  | found (layer : ℕ) (key : String) (stored : Stored V) (now : Millis)
  | present (layer : ℕ) (key : String) (answer : Bool)
  | fetched (value : Option (Option V))

structure Run (σ V : Type) where
  state : σ
  log : List (Event V)

abbrev Action (σ V α : Type) := Program Rejection (Run σ V) α

structure Config where
  layers : ℕ
  implements : ℕ → LayerOperation → Bool
  writeBehind : ℕ → Bool
  gracefulDegradation : Bool
  stampedePrevention : Bool
  singleFlightCoordinator : Bool

structure Reading (V : Type) where
  stored : Stored V
  now : Millis
  layerIndex : ℕ

variable {σ V : Type}

def Reading.state (hit : Reading V) : StoredValueState :=
  (resolveStoredValue hit.now hit.stored hit.now).state

def Reading.value (hit : Reading V) : Js V := hitValue hit.now hit.stored

variable (config : Config) (env : Surroundings σ V)

def call {α : Type} (answer : σ → α × σ) : Action σ V α :=
  Program.ask fun run => ((answer run.state).1, { run with state := (answer run.state).2 })

def note (event : Event V) : Action σ V Unit :=
  Program.ask fun run => ((), { run with log := run.log ++ [event] })

def now : Action σ V Millis := Program.ask fun run => (env.now run.state, run)

def check (checkpoint : Checkpoint) : Action σ V Unit := do
  match ← call (env.refuses checkpoint) with
  | none => pure ()
  | some reason => throw (.other reason)

def callLayer {α : Type} (layer : ℕ) (operation : LayerOperation)
    (answer : σ → Option α × σ) : Action σ V α := do
  match ← call answer with
  | some a => pure a
  | none => do
    note (.rejected layer operation)
    throw (.layer layer operation)

def shouldSkipLayer (layer : ℕ) : Action σ V Bool := do
  if ← call (env.holds (.shouldSkipLayer layer)) then
    note (.skipped layer)
    pure true
  else pure false

def handleLayerFailure (layer : ℕ) (error : Rejection) : Action σ V Unit :=
  if config.gracefulDegradation then call fun s => ((), env.degrade layer s) else throw error

def setLayer (layer : ℕ) (key : String) : Action σ V Unit :=
  (callLayer layer .set (env.set layer key)).recover (handleLayerFailure config env layer)

def deleteFrom (layer : ℕ) (key : String) : Action σ V Unit :=
  callLayer layer .delete (env.delete layer key)

def callRead (layer : ℕ) (key : String) : Action σ V (Option (Stored V)) := do
  let operation : LayerOperation := if config.implements layer .getEntry then .getEntry else .get
  match ← callLayer layer operation (env.read layer operation key) with
  | none => do
    note (.missing layer key)
    pure none
  | some stored => pure (some stored)

def readLayerEntry (layer : ℕ) (key : String) : Action σ V (Option (Stored V)) := do
  if ← shouldSkipLayer env layer then pure none
  else (callRead config env layer key).recover fun error => do
    handleLayerFailure config env layer error
    pure none

def resolve (layer : ℕ) (key : String) (stored : Stored V) : Action σ V (Reading V) := do
  let now ← now env
  note (.found layer key stored now)
  pure ⟨stored, now, layer⟩

def activeLayers : List ℕ → Action σ V (List ℕ)
  | [] => pure []
  | layer :: layers => do
    if ← shouldSkipLayer env layer then activeLayers layers
    else do
      let active ← activeLayers layers
      pure (layer :: active)

/-- `Promise.all` of calls that answer nothing. -/
def runAll (calls : List (Action σ V Unit)) : Action σ V Unit := do
  let _ ← Program.all calls
  pure ()

def runFencedWrite (key : String) (operation cleanup : Action σ V Unit) : Action σ V Bool := do
  check env .admission
  if ← call (env.holds (.isWriteOutdated key)) then pure false
  else do
    operation
    if ← call (env.holds (.isWriteOutdated key)) then do
      cleanup
      pure false
    else pure true

/-- Layer sets that reject degrade their layers. The deletions that clean up after an outdated
backfill are of all layers before the one of the hit, and nothing catches their rejections. -/
def backfill (key : String) (upTo : ℕ) : Action σ V Unit :=
  if upTo = 0 then pure ()
  else do
    let active ← activeLayers env (List.range upTo)
    let _ ← runFencedWrite env key
      (runAll (active.map fun layer => setLayer config env layer key))
      (runAll ((List.range upTo).map fun layer => deleteFrom env layer key))
    pure ()

/-- The read goes on with the layers in `todo`. -/
def readFromLayers (key : String) (mode : ReadMode) :
    List ℕ → Bool → Action σ V (Option (Reading V))
  | [], sawRetainableValue => do
    if sawRetainableValue then pure none
    else do
      check env .index
      pure none
  | layer :: todo, sawRetainableValue => do
    match ← readLayerEntry config env layer key with
    | none => readFromLayers key mode todo sawRetainableValue
    | some stored => do
      let hit ← resolve env layer key stored
      if hit.state = .expired then do
        deleteFrom env layer key
        readFromLayers key mode todo sawRetainableValue
      else if mode = .freshOnly ∧ hit.state ≠ .fresh then readFromLayers key mode todo true
      else do
        check env .index
        backfill config env key layer
        pure (some hit)

/-- `getEntry`; a layer that is skipped is not read. -/
def getEntry (key : String) : List ℕ → Bool → Action σ V (Option (Reading V))
  | [], sawRetainableValue => do
    if sawRetainableValue then pure none
    else do
      check env .index
      pure none
  | layer :: todo, sawRetainableValue => do
    if ← shouldSkipLayer env layer then getEntry key todo sawRetainableValue
    else
      match ← readLayerEntry config env layer key with
      | none => getEntry key todo sawRetainableValue
      | some stored => do
        let hit ← resolve env layer key stored
        if hit.state = .expired then do
          deleteFrom env layer key
          getEntry key todo sawRetainableValue
        else do
          check env .index
          backfill config env key layer
          pure (some hit)

def askHas (layer : ℕ) (key : String) : Action σ V Bool :=
  if config.implements layer .has then callLayer layer .has (env.has layer key)
  else do
    let value ← callLayer layer .get (env.read layer .get key)
    pure value.isSome

def callHas (layer : ℕ) (key : String) : Action σ V Bool := do
  let answer ← askHas config env layer key
  note (.present layer key answer)
  pure answer

/-- A rejection is reported, whether or not it degrades the layer. -/
def reportRecoverableLayerFailure (layer : ℕ) (error : Rejection) : Action σ V Unit :=
  if config.gracefulDegradation then handleLayerFailure config env layer error else pure ()

def has (key : String) : List ℕ → Action σ V Bool
  | [] => pure false
  | layer :: todo => do
    if ← shouldSkipLayer env layer then has key todo
    else do
      let found ← (callHas config env layer key).recover fun error => do
        reportRecoverableLayerFailure config env layer error
        pure false
      if found then pure true else has key todo

def writeLayer (key : String) (layer : ℕ) : Action σ V Unit := do
  if ← call (env.holds (.isWriteOutdated key)) then pure ()
  else if ← shouldSkipLayer env layer then pure ()
  else setLayer config env layer key

/-- The deletion that cleans up after an outdated write. -/
def cleanUp (key : String) (layer : ℕ) : Action σ V Unit :=
  (deleteFrom env layer key).recover (handleLayerFailure config env layer)

/-- What is behind the queue is written later, and what rejects there does not reach the caller as
it is. -/
def writeAcrossLayers (key : String) : Action σ V Bool := do
  let layers := (List.range config.layers).filter fun layer => !config.writeBehind layer
  let immediate ← activeLayers env layers
  let committed ← runFencedWrite env key (runAll (layers.map (writeLayer config env key)))
    (runAll (immediate.map (cleanUp config env key)))
  check env .queue
  pure committed

def storeEntry (key : String) : Action σ V Unit := do
  if ← writeAcrossLayers config env key then
    if ← call (env.holds (.isWriteOutdated key)) then pure ()
    else do
      check env .index
      check env .bus
  else pure ()

def callFetcher (key : String) : Action σ V (Option (Option V)) := do
  match ← call (env.fetch key) with
  | .ok fetched => do
    note (.fetched fetched)
    pure fetched
  | .error reason => throw (.other reason)

/-- A value is stored if the options say so and the write is not outdated. -/
def storeIf (question : Question) (key : String) : Action σ V Unit := do
  if ← call (env.holds question) then
    if ← call (env.holds (.isWriteOutdated key)) then pure () else storeEntry config env key
  else pure ()

/-- Whether a fetched value is no value to be stored as such. -/
def isNothing (cacheNullValues : Bool) : Option (Option V) → Bool
  | none => true
  | some none => !cacheNullValues
  | some (some _) => false

def fetchAndPopulate (key : String) : Action σ V (Js V) := do
  check env .breaker
  check env .limiter
  let fetched ← callFetcher env key
  let cacheNullValues ← call (env.holds (.cacheNullValues key))
  if isNothing cacheNullValues fetched then do
    storeIf config env (.negativeCache key) key
    pure .undefined
  else do
    storeIf config env (.shouldCache key) key
    pure (.ofFetched fetched)

def fetchTask (key : String) (initialMissConfirmed : Bool) : Action σ V (Js V) := do
  if initialMissConfirmed && config.singleFlightCoordinator then fetchAndPopulate config env key
  else
    match ← readFromLayers config env key .freshOnly (List.range config.layers) false with
    | some hit => pure hit.value
    | none => fetchAndPopulate config env key

/-- A coordinator runs the worker under its lock or the waiter without it, and may itself reject
before and after. -/
def execute (key : String) (worker waiter : Action σ V (Js V)) : Action σ V (Js V) := do
  check env .coordinator
  match ← call (env.role key) with
  | .worker => do
    let value ← worker
    check env .coordinator
    pure value
  | .waiter => waiter

/-- Polls for a fresh value, until one is found or the deadline has come. -/
def poll (key : String) : ℕ → Action σ V (Option (Js V))
  | 0 => pure none
  | polls + 1 => do
    match ← readFromLayers config env key .freshOnly (List.range config.layers) false with
    | some hit => pure (some hit.value)
    | none => poll key polls

/-- The waiter asks the coordinator again as often as it has `retries`. -/
def waitForFreshValue (key : String) : ℕ → Action σ V (Js V)
  | 0 => do
    let polls ← call env.polls
    match ← poll config env key polls with
    | some value => pure value
    | none => throw (.other "Single-flight wait timed out.")
  | retries + 1 => do
    let polls ← call env.polls
    match ← poll config env key polls with
    | some value => pure value
    | none => execute env key (fetchAndPopulate config env key) (waitForFreshValue key retries)

/-- Without the coordinator the task runs all the same, if the stack degrades. -/
def singleFlightTask (key : String) (initialMissConfirmed : Bool) : Action σ V (Js V) :=
  if config.singleFlightCoordinator then
    (execute env key (fetchTask config env key initialMissConfirmed)
      (waitForFreshValue config env key 1)).recover fun error =>
        if config.gracefulDegradation then fetchTask config env key initialMissConfirmed
        else throw error
  else fetchTask config env key initialMissConfirmed

/-- A caller that joins a task waits for it as if it had run it itself. A timeout comes before the
outcome of the task. -/
def fetchWithGuards (key : String) (initialMissConfirmed : Bool) : Action σ V (Js V) :=
  if config.stampedePrevention then do
    check env .guard
    let outcome ← (singleFlightTask config env key initialMissConfirmed).attempt
    check env .guard
    match outcome with
    | .ok value => pure value
    | .error error => throw error
  else singleFlightTask config env key initialMissConfirmed

/-- The layers that a fresh hit renews for a sliding TTL, one after the other. -/
def slideLayers (key : String) : List ℕ → Action σ V Unit
  | [] => pure ()
  | layer :: layers => do
    if ← shouldSkipLayer env layer then slideLayers key layers
    else do
      setLayer config env layer key
      slideLayers key layers

def applyFreshReadPolicies (key : String) (hit : Reading V) : Action σ V Unit := do
  if ← call (env.holds (.slides key)) then
    slideLayers config env key (List.range (hit.layerIndex + 1))
  else pure ()

def getPrepared (key : String) (hasFetcher : Bool) : Action σ V (Js V) := do
  match ← readFromLayers config env key .allowStale (List.range config.layers) false with
  | some hit =>
    if hit.state = .fresh then do
      applyFreshReadPolicies config env key hit
      pure hit.value
    else if hit.state = .staleWhileRevalidate ∨ hasFetcher = false then pure hit.value
    else (fetchWithGuards config env key false).recover fun _ => pure hit.value
  | none => if hasFetcher then fetchWithGuards config env key true else pure .undefined

structure MGetEntry where
  key : String
  /-- The fetcher and the options, by number; calls with the same are alike. -/
  fetch : Option ℕ
  options : Option ℕ
deriving DecidableEq

/-- What the batched path does with a layer's answers for the pending keys. It returns the keys
still pending and the results that are new. -/
def takeAnswers (layer : ℕ) :
    List (String × Option (Stored V)) → Action σ V (List String × List (String × Js V))
  | [] => pure ([], [])
  | (key, none) :: answers => do
    let (pending, results) ← takeAnswers layer answers
    pure (key :: pending, results)
  | (key, some stored) :: answers => do
    let hit ← resolve env layer key stored
    if hit.state = .expired then do
      deleteFrom env layer key
      let (pending, results) ← takeAnswers layer answers
      pure (key :: pending, results)
    else do
      check env .index
      backfill config env key layer
      let (pending, results) ← takeAnswers layer answers
      pure (pending, (key, hit.value) :: results)

def noteMissing (layer : ℕ) : List (String × Option (Stored V)) → Action σ V Unit
  | [] => pure ()
  | (key, none) :: answers => do
    note (.missing layer key)
    noteMissing layer answers
  | (_, some _) :: answers => noteMissing layer answers

/-- Nothing catches the rejection of a `getMany`. -/
def readMany (layer : ℕ) (keys : List String) :
    Action σ V (List (String × Option (Stored V))) :=
  if config.implements layer .getMany then do
    let answer ← callLayer layer .getMany (env.getMany layer keys)
    let answers := keys.map fun key => (key, answer key)
    noteMissing layer answers
    pure answers
  else Program.all (keys.map fun key => do
    let stored ← readLayerEntry config env layer key
    pure (key, stored))

def forget : List String → Action σ V Unit
  | [] => pure ()
  | _ :: keys => do
    check env .index
    forget keys

def scanLayers : List ℕ → List String → Action σ V (List (String × Js V))
  | [], pending => do
    forget env pending
    pure []
  | layer :: todo, pending => do
    if ← shouldSkipLayer env layer then scanLayers todo pending
    else if pending.isEmpty then pure []
    else do
      let answers ← readMany config env layer pending
      let (pending, results) ← takeAnswers config env layer answers
      let more ← scanLayers todo pending
      pure (results ++ more)

/-- Entries of one key with different fetchers or options conflict. -/
def conflict (entries : List MGetEntry) : Bool :=
  entries.any fun entry => entries.any fun other =>
    decide (entry.key = other.key) && decide (entry ≠ other)

def mget (entries : List MGetEntry) : Action σ V (List (Js V)) := do
  check env .startup
  let keys := (entries.map fun entry => entry.key).dedup
  if entries.isEmpty then pure []
  else if entries.all fun entry => entry.fetch.isNone && entry.options.isNone then do
    let results ← scanLayers config env (List.range config.layers) keys
    pure (entries.map fun entry => (results.lookup entry.key).getD .undefined)
  else if conflict entries then throw (.other "mget received conflicting entries.")
  else do
    let results ← Program.all (entries.dedup.map fun entry => do
      let value ← getPrepared config env entry.key entry.fetch.isSome
      pure (entry.key, value))
    pure (entries.map fun entry => (results.lookup entry.key).getD .undefined)

inductive Read
  | get (key : String) (hasFetcher : Bool)
  | getEntry (key : String)
  | has (key : String)
  | mget (entries : List MGetEntry)

inductive Answer (V : Type)
  | get (value : Js V)
  | getEntry (hit : Option (Reading V))
  | has (found : Bool)
  | mget (values : List (Js V))

def perform : Read → Action σ V (Answer V)
  | .get key hasFetcher => do
    check env .startup
    let value ← getPrepared config env key hasFetcher
    pure (.get value)
  | .getEntry key => do
    check env .startup
    let hit ← getEntry config env key (List.range config.layers) false
    pure (.getEntry hit)
  | .has key => do
    check env .startup
    let found ← has config env key (List.range config.layers)
    pure (.has found)
  | .mget entries => do
    let values ← mget config env entries
    pure (.mget values)

end LayerCache.Degradation
