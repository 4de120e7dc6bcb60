import LayerCache.StoredValue.Basic
import LayerCache.Maintenance.Epochs
import LayerCache.Transition.Chain

/-! # The layers and the serialized writes

The layers hold a cell for each key, and everything that is written to them through
the per-key chain is an order: a set, a bulk set or a backfill, with the fence it
captured. An order starts when the earlier orders for its keys have settled, checks
the fence, writes, checks the fence again and wipes what it wrote if the fence has
moved. The writes and deletions of one order reach the layers one by one and in any
order. Steps are numbered; `born`, `captured` and `writer` record these numbers for
the proofs and decide nothing.
-/

namespace LayerCache

open TailChain (Chain)

/-- An entry as it travels between layers, with the step its value stems from. -/
structure Item (V : Type*) where
  stored : Stored V
  born : ℕ
deriving DecidableEq

/-- What a layer keeps under a key, and the order that put it there. -/
structure Cell (V : Type*) where
  item : Item V
  expiresAt : Option Millis
  writer : Option ℕ
deriving DecidableEq

structure Put (K V : Type*) where
  layer : ℕ
  key : K
  item : Item V
  ttl : Option Millis
deriving DecidableEq

inductive StrandPhase (K V : Type*)
  | planned
  | writing (active : List K) (todo : List (Put K V))
  | wiping (todo : List (ℕ × K))
  | finished (ok : Bool)
deriving DecidableEq

/-- The writes of an order that are checked together: all of a set or a backfill, those of
one layer in a bulk set. `sweep` lists the layers that the cleanup deletes from. -/
structure Strand (K V : Type*) where
  puts : List (Put K V)
  sweep : List ℕ
  phase : StrandPhase K V
deriving DecidableEq

inductive OrderKind
  | set
  | mset
  | backfill
deriving DecidableEq

structure Order (K V : Type*) where
  kind : OrderKind
  keys : List K
  fence : K → Fence
  captured : ℕ
  strands : List (Strand K V)

inductive Target (K : Type*)
  | keys (ks : List K)
  | all
deriving DecidableEq

/-- The layer deletions of an invalidation, those still under way in `todo`; without a key
it is a whole layer that is cleared. -/
structure Removal (K : Type*) where
  target : Target K
  layers : List ℕ
  todo : List (ℕ × Option K)
deriving DecidableEq

/-- `removals` are numbered by the step that moved the epochs. -/
structure Store (K V : Type*) where
  now : Millis
  cells : ℕ → K → Option (Cell V)
  epochs : Epochs K
  chain : Chain K
  orders : ℕ → Option (Order K V)
  removals : ℕ → Option (Removal K)

variable {K V : Type}

namespace Strand

def plan (puts : List (Put K V)) (sweep : List ℕ) : Strand K V := ⟨puts, sweep, .planned⟩

def done (st : Strand K V) : Bool :=
  match st.phase with
  | .finished _ => true
  | _ => false

/-- The next write to reach its layer, of those under way. -/
def land (st : Strand K V) (i : ℕ) : Option (Put K V × Strand K V) :=
  match st.phase with
  | .writing active todo =>
    (todo[i]?).map fun p => (p, { st with phase := .writing active (todo.eraseIdx i) })
  | _ => none

def wipe (st : Strand K V) (i : ℕ) : Option ((ℕ × K) × Strand K V) :=
  match st.phase with
  | .wiping todo =>
    (todo[i]?).map fun lk =>
      (lk, { st with
        phase := if (todo.eraseIdx i).isEmpty then .finished false else .wiping (todo.eraseIdx i) })
  | _ => none

variable [DecidableEq K]

/-- Without an active key there is nothing to write; a degraded layer is skipped. -/
def start (st : Strand K V) (active : List K) (skipped : ℕ → Bool) : Strand K V :=
  { st with
    phase :=
      if active.isEmpty then .finished false
      else .writing active (st.puts.filter fun p => p.key ∈ active && !skipped p.layer) }

/-- The second look at the fence, once every write has come back. -/
def check (st : Strand K V) (outdated : K → Bool) : Option (Strand K V) :=
  match st.phase with
  | .writing active [] =>
    let stale := active.filter outdated
    let todo := stale.flatMap fun k => st.sweep.map fun l => (l, k)
    some { st with
      phase :=
        if stale.isEmpty then .finished true
        else if todo.isEmpty then .finished false
        else .wiping todo }
  | _ => none

end Strand

def Order.setStrand (o : Order K V) (n : ℕ) (st : Strand K V) : Order K V :=
  { o with strands := o.strands.set n st }

/-- The verdict of the fenced write: every strand found its fence unmoved. -/
def Order.committed (o : Order K V) : Bool :=
  o.strands.all fun st =>
    match st.phase with
    | .finished ok => ok
    | _ => false

def Target.Covers (k : K) : Target K → Prop
  | .keys ks => k ∈ ks
  | .all => True

def Removal.new (target : Target K) (layers : List ℕ) : Removal K where
  target
  layers
  todo :=
    match target with
    | .keys ks => layers.flatMap fun l => ks.map fun k => (l, some k)
    | .all => layers.map fun l => (l, none)

namespace Store

/-- The layers hold `contents`, and nothing has been written or invalidated yet. -/
def initial (now : Millis) (contents : ℕ → K → Option (Stored V × Option Millis)) : Store K V where
  now
  cells := fun l k => (contents l k).map fun c => ⟨⟨c.1, 0⟩, c.2, none⟩
  epochs := .initial
  chain := .empty
  orders := fun _ => none
  removals := fun _ => none

/-- A layer answers with an entry until its own expiry. -/
def visible (c : Store K V) (l : ℕ) (k : K) : Option (Item V) :=
  (c.cells l k).bind fun cell =>
    if cell.expiresAt.all fun e => c.now < e then some cell.item else none

def tick (c : Store K V) (d : Millis) : Store K V := { c with now := c.now + d }

/-- A new order takes its place at the end of the chain of each of its keys. -/
def enlist [DecidableEq K] (c : Store K V) (n : ℕ) (o : Order K V) : Store K V :=
  { c with
    chain := c.chain.enlist n o.keys
    orders := Function.update c.orders n (some o) }

def putOrder (c : Store K V) (t : ℕ) (o : Order K V) : Store K V :=
  { c with orders := Function.update c.orders t (some o) }

def putRemoval (c : Store K V) (b : ℕ) (r : Removal K) : Store K V :=
  { c with removals := Function.update c.removals b (some r) }

section

variable [DecidableEq K]

def setCell (c : Store K V) (l : ℕ) (k : K) (cell : Option (Cell V)) : Store K V :=
  { c with cells := Function.update c.cells l (Function.update (c.cells l) k cell) }

/-- A layer's `set`, with the expiry that the layer gives the entry. -/
def layerSet (c : Store K V) (p : Put K V) (writer : Option ℕ) : Store K V :=
  c.setCell p.layer p.key <| some {
    item := p.item
    expiresAt := (p.ttl.filter fun ttl => 0 < ttl).map fun ttl => c.now + ttl
    writer }

def layerDelete (c : Store K V) (l : ℕ) (k : K) : Store K V := c.setCell l k none

def layerClear (c : Store K V) (l : ℕ) : Store K V :=
  { c with cells := Function.update c.cells l fun _ => none }

/-- The order's turn: the fence is checked for each of its keys. -/
def start (c : Store K V) (skipped : ℕ → Bool) (t : ℕ) : Option (Store K V) := do
  let chain ← c.chain.start t
  let o ← c.orders t
  let active := o.keys.filter fun k => !c.epochs.isWriteOutdated k (o.fence k)
  let skipped := if o.kind = .set then skipped else fun _ => false
  some { c with
    chain
    orders := Function.update c.orders t
      (some { o with strands := o.strands.map fun st => st.start active skipped }) }

def land (c : Store K V) (t n i : ℕ) : Option (Store K V) := do
  let o ← c.orders t
  let st ← o.strands[n]?
  let (p, st) ← st.land i
  some ((c.putOrder t (o.setStrand n st)).layerSet p (some t))

/-- A write that its layer fails and the stack gets over. -/
def landFail (c : Store K V) (t n i : ℕ) : Option (Store K V) := do
  let o ← c.orders t
  let st ← o.strands[n]?
  let (_, st) ← st.land i
  some (c.putOrder t (o.setStrand n st))

def check (c : Store K V) (t n : ℕ) : Option (Store K V) := do
  let o ← c.orders t
  let st ← o.strands[n]?
  let st ← st.check fun k => c.epochs.isWriteOutdated k (o.fence k)
  some (c.putOrder t (o.setStrand n st))

def wipe (c : Store K V) (t n i : ℕ) : Option (Store K V) := do
  let o ← c.orders t
  let st ← o.strands[n]?
  let ((l, k), st) ← st.wipe i
  some ((c.putOrder t (o.setStrand n st)).layerDelete l k)

def wipeFail (c : Store K V) (t n i : ℕ) : Option (Store K V) := do
  let o ← c.orders t
  let st ← o.strands[n]?
  let (_, st) ← st.wipe i
  some (c.putOrder t (o.setStrand n st))

def settle (c : Store K V) (t : ℕ) : Option (Store K V) := do
  let o ← c.orders t
  let chain ← c.chain.settle t
  if o.strands.all Strand.done then some { c with chain } else none

/-- An invalidation moves the epochs and issues its layer deletions at once. -/
def bump (c : Store K V) (n : ℕ) (target : Target K) (layers : List ℕ) : Store K V :=
  { c with
    epochs :=
      match target with
      | .keys ks => c.epochs.bumpKeyEpochs ks
      | .all => c.epochs.beginClearEpoch
    removals := Function.update c.removals n (some (.new target layers)) }

def erase (c : Store K V) (b i : ℕ) : Option (Store K V) := do
  let r ← c.removals b
  let (l, k) ← r.todo[i]?
  let c := c.putRemoval b { r with todo := r.todo.eraseIdx i }
  match k with
  | some k => some (c.layerDelete l k)
  | none => some (c.layerClear l)

def eraseFail (c : Store K V) (b i : ℕ) : Option (Store K V) := do
  let r ← c.removals b
  let _ ← r.todo[i]?
  some (c.putRemoval b { r with todo := r.todo.eraseIdx i })

end

end Store

end LayerCache
