import LayerCache.Expiry.TtlResolver
import LayerCache.Stack.Read

/-! # A stack of the repository's layers

The four kinds of layers, as far as one key of one of them goes, and a stack of any number of them
at rest: nothing is under way but the call that is looked at, no layer fails, and none is full. What
takes time in a call has a clock reading of its own. A slot also records when its entry was placed,
which fresh TTL the layer had for it and which one its write resolved for each layer of the stack;
the record decides nothing.
-/

namespace LayerCache.Layered

open Ttl

variable {K V : Type}

inductive LayerKind
  | memory
  | redis
  | disk
  | memcached
deriving DecidableEq, Repr

structure Layer extends CacheLayer where
  kind : LayerKind
deriving DecidableEq, Repr

/-- What lies under a key: an entry, `null`, or bytes that do not decode. A memory layer keeps its
values as they are. -/
inductive Payload (V : Type*)
  | stored (entry : Stored V)
  | null
  | corrupt
deriving DecidableEq, Repr

structure Slot (V : Type*) where
  payload : Payload V
  expiresAt : Option Millis
  placedAt : Millis
  freshTtl : Option Millis
  resolved : List (Option Millis)
deriving DecidableEq, Repr

/-- Memcached takes whole seconds, and the layer rounds up. -/
def LayerKind.keepsUntil (now ttl : Millis) : LayerKind → Millis
  | .memcached => now + ⌈ttl / 1000⌉ * 1000
  | _ => now + ttl

/-- A TTL that is not given is the layer's own, and without a positive one an entry stays. -/
def Layer.expiresAt (layer : Layer) (now : Millis) (ttl : Option Millis) : Option Millis :=
  match ttl.or layer.defaultTtl with
  | none => none
  | some ttl => if 0 < ttl then some (layer.kind.keepsUntil now ttl) else none

namespace Slot

def isExpired (slot : Slot V) (now : Millis) : Bool :=
  slot.expiresAt.any fun expiresAt => decide (expiresAt ≤ now)

/-- What the layer answers with, and what it keeps. What has expired is gone, and what does not
decode is deleted. -/
def getEntry (now : Millis) : Option (Slot V) → Option (Stored V) × Option (Slot V)
  | none => (none, none)
  | some slot =>
    if slot.isExpired now then (none, none)
    else
      match slot.payload with
      | .stored entry => (some entry, some slot)
      | .null => (none, some slot)
      | .corrupt => (none, none)

/-- The existence test. Only the disk layer looks at what it finds. -/
def has (now : Millis) (slot : Option (Slot V)) : LayerKind → Bool × Option (Slot V)
  | .disk => ((getEntry now slot).1.isSome, (getEntry now slot).2)
  | _ =>
    match slot with
    | none => (false, none)
    | some slot => if slot.isExpired now then (false, none) else (true, some slot)

end Slot

/-- An entry that a write builds for the layer as the layer keeps it. -/
def Layer.writeSlot (layer : Layer) (placed : Millis) (entry : LayerSetEntry K V)
    (resolved : List (Option Millis)) : Slot V where
  payload := .stored (.envelope entry.value)
  expiresAt := layer.expiresAt placed entry.ttl
  placedAt := placed
  freshTtl := entry.value.freshTtlMs
  resolved

/-- What a backfill falls back on for an entry without deadlines: the TTL of the reading call or of
the layer. -/
def Layer.fallbackTtl (layer : Layer) (ttl : Option LayerNumber) : Option Millis :=
  resolveLayerMs layer.name ttl none layer.defaultTtl

/-- The fresh TTL of the `l`-th layer for a copy: what the write of the entry has resolved for it.
An entry that no write of the stack has made has the fallback. -/
def Layer.copiedTtl (layer : Layer) (ttl : Option LayerNumber) (l : ℕ)
    (resolved : List (Option Millis)) : Option Millis :=
  resolved[l]?.getD (layer.fallbackTtl ttl)

/-- An entry of another layer as a backfill puts it into this one, the `l`-th. -/
def Layer.backfillSlot (layer : Layer) (planned filled : Millis) (stored : Stored V)
    (ttl : Option LayerNumber) (l : ℕ) (resolved : List (Option Millis)) : Slot V where
  payload := .stored stored
  expiresAt := layer.expiresAt filled
    ((remainingStoredTtlMs planned stored planned).or (layer.fallbackTtl ttl))
  placedAt := filled
  freshTtl := layer.copiedTtl ttl l resolved
  resolved

structure LayeredStack (K V : Type*) where
  layers : List Layer
  degraded : ℕ → Bool
  slots : ℕ → K → Option (Slot V)

/-- When a call asks a layer, plans its backfill and fills a layer. -/
structure Moments where
  asked : ℕ → Millis
  planned : Millis
  filled : ℕ → Millis

def Moments.at (now : Millis) : Moments := ⟨fun _ => now, now, fun _ => now⟩

/-- An entry that a read can use, and the layer that answered with it. -/
structure ReadHit (V : Type*) where
  stored : Stored V
  value : Js V
  state : StoredValueState
  layerIndex : ℕ
deriving DecidableEq, Repr

namespace LayeredStack

/-- The slot under a key of a layer changes, and no other. -/
def setSlot [DecidableEq K] (s : LayeredStack K V) (l : ℕ) (k : K) (slot : Option (Slot V)) :
    LayeredStack K V :=
  { s with slots := fun l' k' => if l' = l ∧ k' = k then slot else s.slots l' k' }

def answer (s : LayeredStack K V) (now : Millis) (l : ℕ) (k : K) : Option (Stored V) :=
  (Slot.getEntry now (s.slots l k)).1

/-- What the write of the entry under a key of a layer has resolved. -/
def resolved (s : LayeredStack K V) (l : ℕ) (k : K) : List (Option Millis) :=
  ((s.slots l k).map Slot.resolved).getD []

variable [DecidableEq K]

def readLayerEntry (s : LayeredStack K V) (now : Millis) (l : ℕ) (k : K) :
    Option (Stored V) × LayeredStack K V :=
  if s.degraded l then (none, s)
  else (s.answer now l k, s.setSlot l k (Slot.getEntry now (s.slots l k)).2)

/-- The entry goes to the layers before the one it was found in. -/
def backfill (s : LayeredStack K V) (m : Moments) (k : K) (stored : Stored V) (index : ℕ)
    (ttl : Option LayerNumber) : LayeredStack K V :=
  { s with
    slots := fun l k' =>
      match s.layers[l]? with
      | none => s.slots l k'
      | some layer =>
        if k' = k ∧ l < index ∧ !s.degraded l then
          some (layer.backfillSlot m.planned (m.filled l) stored ttl l (s.resolved index k))
        else s.slots l k' }

/-- `readFromLayers` over the layers in `todo`, for a read that takes stale entries. -/
def readFromLayers (m : Moments) (k : K) (ttl : Option LayerNumber) :
    List ℕ → LayeredStack K V → Option (ReadHit V) × LayeredStack K V
  | [], s => (none, s)
  | l :: todo, s =>
    let read := s.readLayerEntry (m.asked l) l k
    match read.1 with
    | none => readFromLayers m k ttl todo read.2
    | some stored =>
      let resolved := resolveStoredValue (m.asked l) stored (m.asked l)
      if resolved.state = .expired then readFromLayers m k ttl todo (read.2.setSlot l k none)
      else
        (some ⟨stored, hitValue (m.asked l) stored, resolved.state, l⟩,
          read.2.backfill m k stored l ttl)

/-- A `get` without a fetcher and without a sliding TTL serves a hit in whatever state it is. -/
def getPrepared (s : LayeredStack K V) (m : Moments) (k : K) (ttl : Option LayerNumber) :
    Js V × LayeredStack K V :=
  match readFromLayers m k ttl (List.range s.layers.length) s with
  | (some hit, s) => (hit.value, s)
  | (none, s) => (.undefined, s)

end LayeredStack

end LayerCache.Layered
