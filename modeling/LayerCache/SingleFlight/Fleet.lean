import LayerCache.SingleFlight.RefreshAhead

/-! # Stacks that share a layer and a lock

Any number of stacks serve `get`s of one key with fetchers. Each has layers of its own
in front of the layer they share, and all go to one single-flight coordinator, whose lock
nobody loses before releasing it. Layers do not fail and nothing is deleted or
invalidated; a layer may drop an entry that has expired. Steps are numbered, and gets and
tasks go by the number of the step that created them.
-/

namespace LayerCache

/-- How one of the stacks is set up: `locals` layers come before the shared one. -/
structure Instance (V : Type*) where
  locals : ℕ
  writeBehind : Bool
  stampedePrevention : Bool
  gracefulDegradation : Bool
  refreshAheadMs : ℕ → Millis
  caching : CachingOptions V

def isFresh (now : Millis) (item : Item V) : Bool :=
  (resolveStoredValue now item.stored now).state = .fresh

namespace Fleet

variable {ι V : Type}

/-- How far one run of `readFromLayers` has come. -/
inductive Lookup (V : Type*)
  | looking (layer : ℕ)
  | purging (layer : ℕ)
  | backfilling (hit : Hit V) (todo : List ℕ)
  | done (hit : Option (Hit V))
deriving DecidableEq

inductive Result (V : Type*)
  | found (hit : Hit V)
  | fetched (value : Js V)
deriving DecidableEq

def Result.value : Result V → Js V
  | .found hit => hit.value
  | .fetched value => value

inductive GetPhase (V : Type*)
  | reading (lookup : Lookup V)
  | entering (missed : Bool) (fallback : Option (Js V))
  | waiting (task : ℕ) (fallback : Option (Js V))
  | done (value : Option (Js V))
deriving DecidableEq

/-- A `get` with a fetcher, or a background refresh, of the stack `owner`. -/
structure Get (ι V : Type*) where
  owner : ι
  background : Bool
  phase : GetPhase V

/-- A task tries for the lock. With it, the task looks at the layers, fetches and stores; without
it, the task polls them until its deadline and then tries for the lock once more. -/
inductive TaskPhase (V : Type*)
  | acquiring
  | rechecking (lookup : Lookup V)
  | ready
  | fetching
  | storing (todo : List (ℕ × Item V)) (value : Js V)
  | polling (lookup : Lookup V)
  | retrying
  | settling (result : Option (Result V))
  | resolved (result : Option (Result V))
deriving DecidableEq

/-- An entry of a stampede guard with its task. `missed` is `initialMissConfirmed`; `acquired` are
the stored entries that were fresh when the task got the lock. -/
structure Task (ι V : Type*) where
  owner : ι
  missed : Bool
  references : ℕ
  degraded : Bool
  acquired : List (Item V)
  phase : TaskPhase V

/-- A run of a fetcher, with all that had been stored in the shared layer when it started. -/
structure Invocation (V : Type*) where
  time : Millis
  stored : List (Item V)

end Fleet

/-- `stores` lists what has been stored in the shared layer, the last entry first. It decides
nothing, like `invocations` and the `acquired` of the tasks. -/
structure Fleet (ι V : Type) where
  clock : ℕ
  now : Millis
  shared : Option (Item V)
  locals : ι → ℕ → Option (Item V)
  lock : Option ℕ
  gets : ℕ → Option (Fleet.Get ι V)
  tasks : ℕ → Option (Fleet.Task ι V)
  inFlight : ι → Option ℕ
  backgroundRefreshes : ι → Option ℕ
  deferred : List (Item V)
  stores : List (Item V)
  invocations : List (Fleet.Invocation V)

namespace Fleet

variable {ι V : Type}

/-- Nothing is under way, and the shared layer may hold an entry. -/
def initial (now : Millis) (contents : Option (Stored V)) : Fleet ι V where
  clock := 1
  now
  shared := contents.map (⟨·, 0⟩)
  locals := fun _ _ => none
  lock := none
  gets := fun _ => none
  tasks := fun _ => none
  inFlight := fun _ => none
  backgroundRefreshes := fun _ => none
  deferred := []
  stores := (contents.map (⟨·, 0⟩)).toList
  invocations := []

def holdsFresh (s : Fleet ι V) : Bool := s.shared.any (isFresh s.now)

def putGet (s : Fleet ι V) (g : ℕ) (get : Get ι V) : Fleet ι V :=
  { s with gets := Function.update s.gets g (some get) }

def putTask (s : Fleet ι V) (t : ℕ) (task : Task ι V) : Fleet ι V :=
  { s with tasks := Function.update s.tasks t (some task) }

def tick (s : Fleet ι V) (d : Millis) : Option (Fleet ι V) :=
  if 0 ≤ d then some { s with now := s.now + d } else none

section

variable [DecidableEq ι] (cfg : ι → Instance V)

def cell (s : Fleet ι V) (i : ι) (l : ℕ) : Option (Item V) :=
  if l < (cfg i).locals then s.locals i l else s.shared

def setCell (s : Fleet ι V) (i : ι) (l : ℕ) (item : Option (Item V)) : Fleet ι V :=
  if l < (cfg i).locals then
    { s with locals := Function.update s.locals i (Function.update (s.locals i) l item) }
  else { s with shared := item }

/-- An entry lands in a layer, and is taken down if that is the shared one. -/
def store (s : Fleet ι V) (i : ι) (l : ℕ) (item : Item V) : Fleet ι V :=
  let s' := s.setCell cfg i l (some item)
  if l < (cfg i).locals then s' else { s' with stores := item :: s.stores }

def lapse (s : Fleet ι V) (i : ι) (l : ℕ) : Option (Fleet ι V) := do
  let item ← s.cell cfg i l
  if (resolveStoredValue s.now item.stored s.now).state = .expired then
    some (s.setCell cfg i l none)
  else none

def Lookup.next (locals layer : ℕ) : Lookup V :=
  if layer < locals then .looking (layer + 1) else .done none

def Lookup.resume (locals : ℕ) (now : Millis) (mode : ReadMode) (layer : ℕ) :
    Option (Item V) → Lookup V
  | none => .next locals layer
  | some item =>
    let resolved := resolveStoredValue now item.stored now
    if resolved.state = .expired then .purging layer
    else if mode = .freshOnly ∧ resolved.state ≠ .fresh then .next locals layer
    else .backfilling ⟨item, hitValue now item.stored, resolved.state, layer⟩ (List.range layer)

inductive Actor
  | get (g : ℕ)
  | task (t : ℕ)
deriving DecidableEq

/-- A `get` reads what is stale too; a task and a waiter look for a fresh entry. -/
def lookupOf (s : Fleet ι V) : Actor → Option (ι × ReadMode × Lookup V)
  | .get g => do
    let get ← s.gets g
    match get.phase with
    | .reading lookup => some (get.owner, .allowStale, lookup)
    | _ => none
  | .task t => do
    let task ← s.tasks t
    match task.phase with
    | .rechecking lookup | .polling lookup => some (task.owner, .freshOnly, lookup)
    | _ => none

def putLookup (s : Fleet ι V) (lookup : Lookup V) : Actor → Fleet ι V
  | .get g =>
    match s.gets g with
    | some get => s.putGet g { get with phase := .reading lookup }
    | none => s
  | .task t =>
    match s.tasks t with
    | some task =>
      s.putTask t { task with
        phase :=
          match task.phase with
          | .polling _ => .polling lookup
          | _ => .rechecking lookup }
    | none => s

def look (s : Fleet ι V) (a : Actor) : Option (Fleet ι V) := do
  let (i, mode, lookup) ← s.lookupOf a
  match lookup with
  | .looking l =>
    some (s.putLookup (.resume (cfg i).locals s.now mode l (s.cell cfg i l)) a)
  | _ => none

/-- The deletion of an expired entry reaches the layer. -/
def purge (s : Fleet ι V) (a : Actor) : Option (Fleet ι V) := do
  let (i, _, lookup) ← s.lookupOf a
  match lookup with
  | .purging l => some ((s.putLookup (.next (cfg i).locals l) a).setCell cfg i l none)
  | _ => none

/-- A hit is written to the next of the layers before it, until it is in all of them. -/
def backfill (s : Fleet ι V) (a : Actor) : Option (Fleet ι V) := do
  let (i, _, lookup) ← s.lookupOf a
  match lookup with
  | .backfilling hit [] => some (s.putLookup (.done (some hit)) a)
  | .backfilling hit (l :: todo) =>
    if l < (cfg i).locals then
      some ((s.putLookup (.backfilling hit todo) a).setCell cfg i l (some hit.item))
    else none
  | _ => none

def get (s : Fleet ι V) (i : ι) : Option (Fleet ι V) :=
  some (s.putGet s.clock ⟨i, false, .reading (.looking 0)⟩)

def scheduleBackgroundRefresh (s : Fleet ι V) (i : ι) : Fleet ι V :=
  match s.backgroundRefreshes i with
  | some _ => s
  | none =>
    { s.putGet s.clock ⟨i, true, .entering false none⟩ with
      backgroundRefreshes := Function.update s.backgroundRefreshes i (some s.clock) }

/-- The read of a `get` is over. -/
def conclude (s : Fleet ι V) (g : ℕ) : Option (Fleet ι V) := do
  let get ← s.gets g
  match get.phase with
  | .reading (.done none) => some (s.putGet g { get with phase := .entering true none })
  | .reading (.done (some hit)) =>
    let s' := s.putGet g { get with phase := .done (some hit.value) }
    match hit.state with
    | .fresh =>
      some (if shouldScheduleBackgroundRefresh s.now hit.item.stored
          ⟨true, false, (cfg get.owner).refreshAheadMs⟩ hit.layerIndex then
        s'.scheduleBackgroundRefresh get.owner
      else s')
    | .staleWhileRevalidate => some (s'.scheduleBackgroundRefresh get.owner)
    | _ => some (s.putGet g { get with phase := .entering false (some hit.value) })
  | _ => none

/-- `StampedeGuard.execute`: joins the task in flight, or creates it. -/
def enter (s : Fleet ι V) (g : ℕ) : Option (Fleet ι V) := do
  let get ← s.gets g
  match get.phase with
  | .entering missed fallback =>
    let task : Task ι V := {
      owner := get.owner
      missed
      references := 1
      degraded := false
      acquired := []
      phase := .acquiring }
    let fresh := (s.putGet g { get with phase := .waiting s.clock fallback }).putTask s.clock task
    if (cfg get.owner).stampedePrevention then
      match s.inFlight get.owner with
      | some t => do
        let joined ← s.tasks t
        some ((s.putGet g { get with phase := .waiting t fallback }).putTask t
          { joined with references := joined.references + 1 })
      | none =>
        some { fresh with inFlight := Function.update s.inFlight get.owner (some s.clock) }
    else some fresh
  | _ => none

/-- A caller leaves with what the task has come to; the last one takes the task out of the map. -/
def leave (s : Fleet ι V) (g : ℕ) : Option (Fleet ι V) := do
  let get ← s.gets g
  match get.phase with
  | .waiting t fallback => do
    let task ← s.tasks t
    match task.phase with
    | .resolved result =>
      let s' := (s.putTask t { task with references := task.references - 1 }).putGet g
        { get with phase := .done ((result.map Result.value).or fallback) }
      some { s' with
        inFlight :=
          if task.references - 1 = 0 ∧ s.inFlight task.owner = some t then
            Function.update s.inFlight task.owner none
          else s.inFlight
        backgroundRefreshes :=
          if get.background then Function.update s.backgroundRefreshes get.owner none
          else s.backgroundRefreshes }
    | _ => none
  | _ => none

end

/-- With the lock, the task skips its look at the layers after a confirmed miss. Without it, the
task is a waiter. -/
def acquire (s : Fleet ι V) (t : ℕ) : Option (Fleet ι V) := do
  let task ← s.tasks t
  match task.phase, s.lock with
  | .acquiring, none =>
    some { s.putTask t { task with
        acquired := s.stores.filter (isFresh s.now)
        phase := if task.missed then .ready else .rechecking (.looking 0) } with
      lock := some t }
  | .acquiring, some _ => some (s.putTask t { task with phase := .polling (.looking 0) })
  | _, _ => none

def breakDown (s : Fleet ι V) (t : ℕ) : Option (Fleet ι V) := do
  let task ← s.tasks t
  match task.phase with
  | .acquiring => some (s.putTask t { task with phase := .settling none })
  | _ => none

/-- A lookup of the task is over. A waiter that has found nothing sleeps and polls again. -/
def looked (s : Fleet ι V) (t : ℕ) : Option (Fleet ι V) := do
  let task ← s.tasks t
  match task.phase with
  | .rechecking (.done none) => some (s.putTask t { task with phase := .ready })
  | .polling (.done none) => some (s.putTask t { task with phase := .polling (.looking 0) })
  | .rechecking (.done (some hit)) | .polling (.done (some hit)) =>
    some (s.putTask t { task with phase := .settling (some (.found hit)) })
  | _ => none

def giveUp (s : Fleet ι V) (t : ℕ) : Option (Fleet ι V) := do
  let task ← s.tasks t
  match task.phase with
  | .polling (.done none) => some (s.putTask t { task with phase := .retrying })
  | _ => none

/-- A waiter past its deadline tries for the lock. With it, it fetches without another look; without
it, the time is up. -/
def retry (s : Fleet ι V) (t : ℕ) : Option (Fleet ι V) := do
  let task ← s.tasks t
  match task.phase, s.lock with
  | .retrying, none =>
    some { s.putTask t { task with
        acquired := s.stores.filter (isFresh s.now)
        phase := .ready } with
      lock := some t }
  | .retrying, some _ => some (s.putTask t { task with phase := .settling none })
  | _, _ => none

def fetch (s : Fleet ι V) (t : ℕ) : Option (Fleet ι V) := do
  let task ← s.tasks t
  match task.phase with
  | .ready =>
    some { s.putTask t { task with phase := .fetching } with
      invocations := ⟨s.now, s.stores⟩ :: s.invocations }
  | _ => none

/-- A breaker or the rate limiter refuses to call the fetcher. -/
def refuse (s : Fleet ι V) (t : ℕ) : Option (Fleet ι V) := do
  let task ← s.tasks t
  match task.phase with
  | .ready => some (s.putTask t { task with phase := .settling none })
  | _ => none

section

variable [DecidableEq ι] (cfg : ι → Instance V)

/-- The writes of `storeEntry` that are made at once. -/
def puts (s : Fleet ι V) (i : ι) (write : WriteValue V) : List (ℕ × Item V) :=
  (List.range (if (cfg i).writeBehind then (cfg i).locals else (cfg i).locals + 1)).map fun l =>
    (l, ⟨write.entry s.now l, s.clock⟩)

/-- The fetcher rejects, or yields something to be stored or not. -/
def fetched (s : Fleet ι V) (t : ℕ) (value : Option (Option (Option V))) :
    Option (Fleet ι V) := do
  let task ← s.tasks t
  match task.phase with
  | .fetching =>
    match value with
    | none => some (s.putTask t { task with phase := .settling none })
    | some value =>
      match (cfg task.owner).caching.write value with
      | none =>
        some (s.putTask t { task with phase := .settling (some (.fetched (.ofFetched value))) })
      | some write =>
        some { s.putTask t { task with
            phase := .storing (s.puts cfg task.owner write) (.ofFetched value) } with
          deferred :=
            if (cfg task.owner).writeBehind then
              s.deferred ++ [⟨write.entry s.now (cfg task.owner).locals, s.clock⟩]
            else s.deferred }
  | _ => none

def land (s : Fleet ι V) (t n : ℕ) : Option (Fleet ι V) := do
  let task ← s.tasks t
  match task.phase with
  | .storing todo value => do
    let (l, item) ← todo[n]?
    some ((s.putTask t { task with phase := .storing (todo.eraseIdx n) value }).store cfg
      task.owner l item)
  | _ => none

def stored (s : Fleet ι V) (t : ℕ) : Option (Fleet ι V) := do
  let task ← s.tasks t
  match task.phase with
  | .storing [] value =>
    some (s.putTask t { task with phase := .settling (some (.fetched value)) })
  | _ => none

/-- Whether an error makes the stack start the task over without the coordinator. -/
def startsOver (task : Task ι V) (result : Option (Result V)) : Bool :=
  result.isNone && (cfg task.owner).gracefulDegradation && !task.degraded

def settle (s : Fleet ι V) (t : ℕ) : Option (Fleet ι V) := do
  let task ← s.tasks t
  match task.phase with
  | .settling result =>
    some { s.putTask t (if startsOver cfg task result then
        { task with
          degraded := true
          phase := if task.missed then .ready else .rechecking (.looking 0) }
        else { task with phase := .resolved result }) with
      lock := if s.lock = some t then none else s.lock }
  | _ => none

def flush (s : Fleet ι V) (n : ℕ) : Option (Fleet ι V) := do
  let item ← s.deferred[n]?
  some { s with
    shared := some item
    stores := item :: s.stores
    deferred := s.deferred.eraseIdx n }

inductive Action (ι V : Type*)
  | tick (d : Millis)
  | lapse (i : ι) (l : ℕ)
  | look (a : Actor)
  | purge (a : Actor)
  | backfill (a : Actor)
  | get (i : ι)
  | conclude (g : ℕ)
  | enter (g : ℕ)
  | leave (g : ℕ)
  | acquire (t : ℕ)
  | breakDown (t : ℕ)
  | looked (t : ℕ)
  | giveUp (t : ℕ)
  | retry (t : ℕ)
  | fetch (t : ℕ)
  | refuse (t : ℕ)
  | fetched (t : ℕ) (value : Option (Option (Option V)))
  | land (t n : ℕ)
  | stored (t : ℕ)
  | settle (t : ℕ)
  | flush (n : ℕ)
deriving DecidableEq

def act (s : Fleet ι V) : Action ι V → Option (Fleet ι V)
  | .tick d => s.tick d
  | .lapse i l => s.lapse cfg i l
  | .look a => s.look cfg a
  | .purge a => s.purge cfg a
  | .backfill a => s.backfill cfg a
  | .get i => s.get i
  | .conclude g => s.conclude cfg g
  | .enter g => s.enter cfg g
  | .leave g => s.leave g
  | .acquire t => s.acquire t
  | .breakDown t => s.breakDown t
  | .looked t => s.looked t
  | .giveUp t => s.giveUp t
  | .retry t => s.retry t
  | .fetch t => s.fetch t
  | .refuse t => s.refuse t
  | .fetched t value => s.fetched cfg t value
  | .land t n => s.land cfg t n
  | .stored t => s.stored t
  | .settle t => s.settle cfg t
  | .flush n => s.flush n

def step (s : Fleet ι V) (a : Action ι V) : Option (Fleet ι V) :=
  (s.act cfg a).map fun s' => { s' with clock := s.clock + 1 }

end

end Fleet

end LayerCache
