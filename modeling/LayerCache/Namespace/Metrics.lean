import Mathlib.Algebra.BigOperators.Group.Multiset.Basic
import Mathlib.Algebra.Field.Rat
import Mathlib.Algebra.Order.Ring.Rat
import Mathlib.Tactic.FieldSimp
import Mathlib.Tactic.Linarith
import Mathlib.Tactic.Ring

/-! # The metrics of a namespace

A namespace runs each of its operations in a capture: what is recorded in the asynchronous context
of the operation is recorded in the capture too, and is merged into the metrics of the namespace
once the operation is over. A failed operation hands its capture on by a property of the error.
-/

namespace LayerCache.NamespaceMetrics

inductive Counter
  | hits | misses | fetches | sets | deletes | backfills | invalidations | staleHits | refreshes
  | refreshErrors | writeFailures | singleFlightWaits | negativeCacheHits | circuitBreakerTrips
  | degradedOperations
  deriving DecidableEq

inductive LayerCounter | hitsByLayer | missesByLayer
  deriving DecidableEq

structure CacheLayerLatency where
  avgMs : ℚ
  maxMs : ℚ
  count : ℕ
  deriving DecidableEq

/-- A layer that a map of the source has no entry for counts as zero. -/
structure CacheMetricsSnapshot (L : Type*) where
  counters : Counter → ℕ
  byLayer : LayerCounter → L → ℕ
  latencyByLayer : L → Option CacheLayerLatency

variable {N L : Type*} [DecidableEq N] [DecidableEq L]

def empty : CacheMetricsSnapshot L := ⟨fun _ => 0, fun _ _ => 0, fun _ => none⟩

def increment (metrics : CacheMetricsSnapshot L) (field : Counter) (amount : ℕ) :
    CacheMetricsSnapshot L :=
  { metrics with
    counters := fun f => if f = field then metrics.counters f + amount else metrics.counters f }

def incrementLayer (metrics : CacheMetricsSnapshot L) (map : LayerCounter) (layerName : L) :
    CacheMetricsSnapshot L :=
  { metrics with
    byLayer := fun m l =>
      if m = map ∧ l = layerName then metrics.byLayer m l + 1 else metrics.byLayer m l }

def CacheLayerLatency.sampled (existing : Option CacheLayerLatency) (durationMs : ℚ) :
    CacheLayerLatency :=
  match existing with
  | none => ⟨durationMs, durationMs, 1⟩
  | some existing =>
    let count := existing.count + 1
    ⟨existing.avgMs + (durationMs - existing.avgMs) / count,
      if durationMs > existing.maxMs then durationMs else existing.maxMs, count⟩

def recordLatencySample (metrics : CacheMetricsSnapshot L) (layerName : L) (durationMs : ℚ) :
    CacheMetricsSnapshot L :=
  { metrics with
    latencyByLayer := fun l =>
      if l = layerName then some (.sampled (metrics.latencyByLayer l) durationMs)
      else metrics.latencyByLayer l }

/-- The latencies are those of `delta`. -/
def addNamespaceMetrics (base delta : CacheMetricsSnapshot L) : CacheMetricsSnapshot L where
  counters := fun f => base.counters f + delta.counters f
  byLayer := fun m l => base.byLayer m l + delta.byLayer m l
  latencyByLayer := delta.latencyByLayer

inductive Event (L : Type*)
  | increment (field : Counter) (amount : ℕ)
  | incrementLayer (map : LayerCounter) (layerName : L)
  | recordLatency (layerName : L) (durationMs : ℚ)

def record (metrics : CacheMetricsSnapshot L) : Event L → CacheMetricsSnapshot L
  | .increment field amount => increment metrics field amount
  | .incrementLayer map layerName => incrementLayer metrics map layerName
  | .recordLatency layerName durationMs => recordLatencySample metrics layerName durationMs

namespace Event

def amount (f : Counter) : Event L → ℕ
  | .increment field amount => if f = field then amount else 0
  | _ => 0

def layerAmount (m : LayerCounter) (l : L) : Event L → ℕ
  | .incrementLayer map layerName => if m = map ∧ l = layerName then 1 else 0
  | _ => 0

def samples (l : L) : Event L → Multiset ℚ
  | .recordLatency layerName durationMs => if l = layerName then {durationMs} else 0
  | _ => 0

end Event

/-- The number, the mean and the maximum of some samples. -/
def LatencyOf (samples : Multiset ℚ) : Option CacheLayerLatency → Prop
  | none => samples = 0
  | some latency => latency.count = samples.card ∧ latency.count * latency.avgMs = samples.sum ∧
      latency.maxMs ∈ samples ∧ ∀ x ∈ samples, x ≤ latency.maxMs

structure MetricsOf (events : Multiset (Event L)) (metrics : CacheMetricsSnapshot L) : Prop where
  counters : ∀ f, metrics.counters f = (events.map (Event.amount f)).sum
  byLayer : ∀ m l, metrics.byLayer m l = (events.map (Event.layerAmount m l)).sum
  latency : ∀ l, LatencyOf (events.map (Event.samples l)).sum (metrics.latencyByLayer l)

theorem LatencyOf.card_eq {samples : Multiset ℚ} {latency : Option CacheLayerLatency}
    (h : LatencyOf samples latency) :
    (latency.map CacheLayerLatency.count).getD 0 = samples.card := by
  cases latency with
  | none =>
    have hnone : samples = 0 := h
    rw [hnone]
    rfl
  | some latency => exact h.1

theorem latencyOf_sampled {samples : Multiset ℚ} {existing : Option CacheLayerLatency}
    (h : LatencyOf samples existing) (durationMs : ℚ) :
    LatencyOf (samples + {durationMs}) (some (.sampled existing durationMs)) := by
  cases existing with
  | none =>
    have hnone : samples = 0 := h
    subst hnone
    refine ⟨by simp [CacheLayerLatency.sampled], by simp [CacheLayerLatency.sampled], ?_, ?_⟩ <;>
      simp [CacheLayerLatency.sampled]
  | some existing =>
    obtain ⟨hcount, hmean, hmem, hmax⟩ := h
    refine ⟨?_, ?_, ?_, ?_⟩
    · simp [CacheLayerLatency.sampled, hcount]
    · have hpos : ((existing.count : ℚ) + 1) ≠ 0 := by positivity
      simp only [CacheLayerLatency.sampled, Multiset.sum_add, Multiset.sum_singleton, ← hmean]
      push_cast
      field_simp
      ring
    · simp only [CacheLayerLatency.sampled, Multiset.mem_add, Multiset.mem_singleton]
      split
      · exact .inr rfl
      · exact .inl hmem
    · intro x hx
      simp only [CacheLayerLatency.sampled]
      rcases Multiset.mem_add.mp hx with hx | hx
      · have hle := hmax x hx
        split <;> linarith
      · rw [Multiset.mem_singleton.mp hx]
        split <;> linarith

theorem metricsOf_empty : MetricsOf (0 : Multiset (Event L)) empty := by
  constructor
  case counters => simp [empty]
  case byLayer => simp [empty]
  case latency => simp [empty, LatencyOf]

section

variable (metrics : CacheMetricsSnapshot L) (event : Event L)

theorem counters_record (f : Counter) :
    (record metrics event).counters f = metrics.counters f + event.amount f := by
  cases event with
  | increment field amount =>
    simp only [record, increment, Event.amount]
    split <;> rfl
  | incrementLayer map layerName => rfl
  | recordLatency layerName durationMs => rfl

theorem byLayer_record (m : LayerCounter) (l : L) :
    (record metrics event).byLayer m l = metrics.byLayer m l + event.layerAmount m l := by
  cases event with
  | increment field amount => rfl
  | incrementLayer map layerName =>
    simp only [record, incrementLayer, Event.layerAmount]
    split <;> rfl
  | recordLatency layerName durationMs => rfl

theorem latencyOf_record {samples : Multiset ℚ} {l : L}
    (h : LatencyOf samples (metrics.latencyByLayer l)) :
    LatencyOf (samples + event.samples l) ((record metrics event).latencyByLayer l) := by
  cases event with
  | increment field amount => simpa [record, increment, Event.samples] using h
  | incrementLayer map layerName => simpa [record, incrementLayer, Event.samples] using h
  | recordLatency layerName durationMs =>
    simp only [record, recordLatencySample, Event.samples]
    split
    · exact latencyOf_sampled h durationMs
    · simpa using h

end

theorem MetricsOf.record {events : Multiset (Event L)} {metrics : CacheMetricsSnapshot L}
    (h : MetricsOf events metrics) (event : Event L) :
    MetricsOf (events + {event}) (record metrics event) := by
  constructor
  case counters =>
    intro f
    simp [counters_record, h.counters f]
  case byLayer =>
    intro m l
    simp [byLayer_record, h.byLayer m l]
  case latency =>
    intro l
    simpa using latencyOf_record metrics event (h.latency l)

theorem metricsOf_add_iff {events events' : Multiset (Event L)}
    {base delta : CacheMetricsSnapshot L} (h : MetricsOf events base)
    (h' : MetricsOf events' delta) :
    MetricsOf (events + events') (addNamespaceMetrics base delta) ↔
      ∀ l, base.latencyByLayer l = none := by
  constructor
  · intro hsum l
    cases hbase : base.latencyByLayer l with
    | none => rfl
    | some latency =>
      have hlatency := h.latency l
      have hsamples := hsum.latency l
      have hdelta := h'.latency l
      rw [hbase] at hlatency
      obtain ⟨_, _, hmem, _⟩ := hlatency
      have hpos : 0 < (events.map (Event.samples l)).sum.card :=
        Multiset.card_pos_iff_exists_mem.mpr ⟨_, hmem⟩
      have hcard := hsamples.card_eq.symm.trans hdelta.card_eq
      rw [Multiset.map_add, Multiset.sum_add, Multiset.card_add] at hcard
      omega
  · intro hnone
    have hzero : ∀ l, (events.map (Event.samples l)).sum = 0 := by
      intro l
      have hlatency := h.latency l
      rw [hnone l] at hlatency
      exact hlatency
    constructor
    case counters =>
      intro f
      simp [addNamespaceMetrics, h.counters f, h'.counters f]
    case byLayer =>
      intro m l
      simp [addNamespaceMetrics, h.byLayer m l, h'.byLayer m l]
    case latency =>
      intro l
      simpa [addNamespaceMetrics, hzero l] using h'.latency l

/-- What an operation throws: a value that is not an object, an object that does not take a new
property, or an object that does. -/
inductive Thrown
  | primitive
  | frozen
  | object (error : ℕ)
  deriving DecidableEq

inductive Outcome
  | returned
  | threw (thrown : Thrown)
  deriving DecidableEq

/-- Where an operation has got to. Its capture is over once it has settled; `trackMetrics` then
takes hold of a capture, by its number, if it finds one, and merges that. -/
inductive Phase
  | running
  | settled (outcome : Outcome)
  | caught (capture : Option ℕ)
  | completed
  deriving DecidableEq

/-- `enclosing` are the captures in whose context the operation was issued. `own` lists what was
recorded on account of the operation itself. -/
structure Operation (N L : Type*) where
  «namespace» : N
  tracked : Bool
  enclosing : List ℕ
  metrics : CacheMetricsSnapshot L
  phase : Phase
  own : Multiset (Event L)

/-- Operations are numbered as they are issued. `attached` is the property `metrics` of an error. -/
structure Collector (N L : Type*) where
  operations : List (Operation N L)
  attached : ℕ → Option ℕ
  namespaces : N → CacheMetricsSnapshot L
  data : CacheMetricsSnapshot L

/-- `issue` is a call of an operation through a namespace, by the fetcher of another operation for
example. `tracked` is false for the operations that are handed to the stack as they are: `warm`, and
the functions that `wrap` returns. What is recorded on account of one operation may be recorded in
the context of another one, or of none: a batch of deferred writes is flushed by the operation that
fills it. -/
inductive Action (N L : Type*)
  | issue («namespace» : N) (tracked : Bool) (within : Option ℕ)
  | record (charged context : Option ℕ) (event : Event L)
  | settle (operation : ℕ) (outcome : Outcome)
  | «catch» (operation : ℕ)
  | merge (operation : ℕ)

namespace Collector

def start : Collector N L := ⟨[], fun _ => none, fun _ => empty, empty⟩

def update (s : Collector N L) (i : ℕ) (f : Operation N L → Operation N L) : Collector N L :=
  { s with operations := s.operations.modify i f }

end Collector

namespace Operation

/-- The captures in the context of the operation with number `i`. -/
def captures (op : Operation N L) (i : ℕ) : List ℕ :=
  if op.tracked then op.enclosing ++ [i] else op.enclosing

def recorded (event : Event L) (op : Operation N L) : Operation N L :=
  { op with metrics := NamespaceMetrics.record op.metrics event }

def charged (event : Event L) (op : Operation N L) : Operation N L :=
  { op with own := op.own + {event} }

def moved (phase : Phase) (op : Operation N L) : Operation N L := { op with phase := phase }

end Operation

/-- The captures that the collector finds in the context of an operation. -/
def Collector.context (s : Collector N L) (operation : Option ℕ) : List ℕ :=
  (operation.bind fun i => s.operations[i]?.map fun op => op.captures i).getD []

/-- The capture that `trackMetrics` finds after an operation. -/
def found (s : Collector N L) (i : ℕ) : Outcome → Option ℕ
  | .returned => some i
  | .threw (.object error) => s.attached error
  | .threw _ => none

def step (s : Collector N L) : Action N L → Option (Collector N L)
  | .issue «namespace» tracked none =>
    some { s with
      operations := s.operations ++ [⟨«namespace», tracked, [], empty, .running, 0⟩] }
  | .issue «namespace» tracked (some i) => do
    let op ← s.operations[i]?
    some { s with
      operations :=
        s.operations ++ [⟨«namespace», tracked, op.captures i, empty, .running, 0⟩] }
  | .record charged context event =>
    let s' := charged.elim s fun i => s.update i (Operation.charged event)
    let recorded := (s.context context).foldl (fun s j => s.update j (Operation.recorded event)) s'
    some { recorded with data := NamespaceMetrics.record s.data event }
  | .settle i outcome => do
    let op ← s.operations[i]?
    if op.phase ≠ .running then none
    else if !op.tracked then some (s.update i (Operation.moved .completed))
    else
      let settled := s.update i (Operation.moved (.settled outcome))
      match outcome with
      | .threw (.object error) =>
        some { settled with
          attached := fun e => if e = error then some i else settled.attached e }
      | _ => some settled
  | .«catch» i => do
    let op ← s.operations[i]?
    match op.phase with
    | .settled outcome => some (s.update i (Operation.moved (.caught (found s i outcome))))
    | _ => none
  | .merge i => do
    let op ← s.operations[i]?
    match op.phase with
    | .caught none => some (s.update i (Operation.moved .completed))
    | .caught (some j) => do
      let capture ← s.operations[j]?
      let merged := s.update i (Operation.moved .completed)
      some { merged with
        namespaces := fun n =>
          if n = op.namespace then addNamespaceMetrics (s.namespaces n) capture.metrics
          else s.namespaces n }
    | _ => none

/-- What an operation that is over has done on account of a namespace. -/
def Operation.contribution (n : N) (op : Operation N L) : Multiset (Event L) :=
  if op.namespace = n ∧ op.phase = .completed then op.own else 0

def contributions (s : Collector N L) (n : N) : Multiset (Event L) :=
  (s.operations.map (Operation.contribution n)).sum

/-- A namespace reports what its operations have done, those of them that are over. -/
def Exact (s : Collector N L) : Prop := ∀ n, MetricsOf (contributions s n) (s.namespaces n)

/-- The capture of the operation is still to be merged. -/
def Phase.Open : Phase → Prop
  | .running | .settled .returned | .settled (.threw (.object _)) | .caught (some _) => True
  | _ => False

/-- What is recorded is recorded in the context of the operation that it is charged to, which is in
no other one's context and whose capture is still to be merged; an operation that has recorded
something throws an object that takes the property, and that no other operation is about to be told
its capture by; and a namespace has no latencies yet when an operation is merged into it. -/
def Meets (s : Collector N L) : Action N L → Prop
  | .issue _ _ _ => True
  | .record charged context _ => charged = context ∧
      ∀ i ∈ context, ∃ op, s.operations[i]? = some op ∧
        op.tracked = true ∧ op.enclosing = [] ∧ op.phase.Open
  | .settle i outcome => ∀ op, s.operations[i]? = some op → op.tracked = true →
      match outcome with
      | .returned => True
      | .threw (.object error) =>
        ∀ op' ∈ s.operations, op'.phase ≠ .settled (.threw (.object error))
      | .threw _ => op.own = 0
  | .«catch» _ => True
  | .merge i => ∀ op j, s.operations[i]? = some op → op.phase = .caught (some j) →
      ∀ l, (s.namespaces op.namespace).latencyByLayer l = none

/-- The states that are reached from the start by actions that meet a condition. -/
inductive Reaches (meets : Collector N L → Action N L → Prop) : Collector N L → Prop
  | start : Reaches meets Collector.start
  | step {s s' : Collector N L} {a : Action N L} (h : Reaches meets s) (ha : meets s a)
      (hs : step s a = some s') : Reaches meets s'

/-- The capture that is found for the operation with number `i` is its own, or the operation has
recorded nothing. -/
def Phase.Sound (attached : ℕ → Option ℕ) (i : ℕ) (own : Multiset (Event L)) : Phase → Prop
  | .settled (.threw (.object error)) => attached error = some i
  | .settled (.threw _) | .caught none => own = 0
  | .caught (some j) => j = i
  | _ => True

structure Operation.Sound (attached : ℕ → Option ℕ) (i : ℕ) (op : Operation N L) : Prop where
  metrics : MetricsOf op.own op.metrics
  untracked : op.tracked = false → op.own = 0
  phase : op.phase.Sound attached i op.own

structure Inv (s : Collector N L) : Prop where
  sound : ∀ i (op : Operation N L), s.operations[i]? = some op → op.Sound s.attached i
  exact : Exact s

section

variable {s s' : Collector N L} {i : ℕ} {op : Operation N L} {n : N}

theorem sum_map_modify {β : Type*} {M : Type*} [AddCommMonoid M] {f : β → β} {g : β → M} {x : M}
    {b : β} {bs : List β} (hb : bs[i]? = some b) (h : g (f b) = g b + x) :
    ((bs.modify i f).map g).sum = (bs.map g).sum + x := by
  induction bs generalizing i with
  | nil => cases hb
  | cons c bs ih =>
    cases i with
    | zero =>
      obtain rfl : c = b := by simpa using hb
      simp [h, add_right_comm]
    | succ i =>
      have hrest := ih (by simpa using hb)
      simp [hrest, add_assoc]

omit [DecidableEq L] in
theorem Phase.Sound.of_open {attached : ℕ → Option ℕ} {phase : Phase}
    {own own' : Multiset (Event L)} (h : phase.Sound attached i own) (hopen : phase.Open) :
    phase.Sound attached i own' := by
  match phase, hopen with
  | .running, _ => trivial
  | .settled .returned, _ => trivial
  | .settled (.threw (.object error)), _ => exact h
  | .caught (some j), _ => exact h

omit [DecidableEq L] in
theorem Phase.Sound.of_attached {attached attached' : ℕ → Option ℕ} {phase : Phase}
    {own : Multiset (Event L)} (h : phase.Sound attached i own)
    (hsame : ∀ e, phase = .settled (.threw (.object e)) → attached' e = attached e) :
    phase.Sound attached' i own := by
  cases phase with
  | settled outcome =>
    cases outcome with
    | returned => trivial
    | threw thrown =>
      cases thrown with
      | object error => exact (hsame error rfl).trans h
      | _ => exact h
  | caught capture => cases capture <;> exact h
  | _ => trivial

omit [DecidableEq L] in
theorem contributions_update {f : Operation N L → Operation N L} {x : Multiset (Event L)}
    (hop : s.operations[i]? = some op) (h : (f op).contribution n = op.contribution n + x) :
    contributions (s.update i f) n = contributions s n + x :=
  sum_map_modify hop h

theorem Exact.update {f : Operation N L → Operation N L} (h : Exact s)
    (hop : s.operations[i]? = some op) (hf : ∀ n, (f op).contribution n = op.contribution n) :
    Exact (s.update i f) := by
  intro n
  have hsame : contributions (s.update i f) n = contributions s n + 0 :=
    contributions_update hop (by rw [hf n, add_zero])
  rw [hsame, add_zero]
  exact h n

omit [DecidableEq N] [DecidableEq L] in
theorem getElem?_update (f : Operation N L → Operation N L) (j : ℕ) :
    (s.update i f).operations[j]? =
      if i = j then s.operations[j]?.map f else s.operations[j]? := by
  simp only [Collector.update, List.getElem?_modify]
  split <;> simp

omit [DecidableEq N] in
theorem sound_update {attached : ℕ → Option ℕ} {f : Operation N L → Operation N L}
    (hop : s.operations[i]? = some op) (hself : (f op).Sound attached i)
    (hother : ∀ j (op' : Operation N L), j ≠ i → s.operations[j]? = some op' →
      op'.Sound attached j) :
    ∀ j (op' : Operation N L), (s.update i f).operations[j]? = some op' → op'.Sound attached j := by
  intro j op' hop'
  rw [getElem?_update] at hop'
  by_cases hij : i = j
  · subst hij
    rw [if_pos rfl, hop] at hop'
    obtain rfl : f op = op' := by simpa using hop'
    exact hself
  · rw [if_neg hij] at hop'
    exact hother j op' (Ne.symm hij) hop'

theorem Inv.issue (h : Inv s) (enclosing : List ℕ) (tracked : Bool) :
    Inv { s with operations := s.operations ++ [⟨n, tracked, enclosing, empty, .running, 0⟩] } := by
  constructor
  case sound =>
    intro j op' hop'
    rw [List.getElem?_append] at hop'
    split at hop'
    · exact h.sound j op' hop'
    · obtain ⟨_, rfl⟩ := List.getElem?_eq_some_iff.mp hop'
      simp only [List.getElem_singleton]
      exact ⟨metricsOf_empty, fun _ => rfl, trivial⟩
  case exact =>
    intro m
    have hexact := h.exact m
    simpa [contributions, Operation.contribution] using hexact

theorem Inv.record (h : Inv s) (hop : s.operations[i]? = some op) (hopen : op.phase.Open)
    (htracked : op.tracked = true) (event : Event L) (data : CacheMetricsSnapshot L) :
    Inv { s.update i (Operation.recorded event ∘ Operation.charged event) with data := data } := by
  have hsound := h.sound i op hop
  constructor
  case sound =>
    refine sound_update hop ?_ fun j op' _ hop' => h.sound j op' hop'
    constructor
    case metrics => exact hsound.metrics.record event
    case untracked =>
      intro huntracked
      exact absurd (htracked.symm.trans huntracked) (by decide)
    case phase => exact hsound.phase.of_open hopen
  case exact =>
    refine h.exact.update hop fun m => ?_
    have hopen' : op.phase ≠ .completed := by
      intro hcompleted
      rw [hcompleted] at hopen
      exact hopen
    simp [Operation.contribution, Operation.charged, Operation.recorded, hopen']

omit [DecidableEq L] in
theorem contribution_moved {phase : Phase} (hrunning : op.phase ≠ .completed)
    (hown : phase = .completed → op.own = 0) (n : N) :
    (op.moved phase).contribution n = op.contribution n := by
  have hbefore : op.contribution n = 0 := if_neg fun h => hrunning h.2
  rw [hbefore]
  unfold Operation.contribution Operation.moved
  split
  next h => exact hown h.2
  next => rfl

theorem Inv.moved (h : Inv s) (hop : s.operations[i]? = some op) {phase : Phase}
    {attached : ℕ → Option ℕ} (hrunning : op.phase ≠ .completed)
    (hown : phase = .completed → op.own = 0) (hself : phase.Sound attached i op.own)
    (hother : ∀ j (op' : Operation N L), j ≠ i → s.operations[j]? = some op' →
      op'.phase.Sound attached j op'.own) :
    Inv { s.update i (Operation.moved phase) with attached := attached } := by
  have hsound := h.sound i op hop
  constructor
  case sound =>
    refine sound_update hop ⟨hsound.metrics, hsound.untracked, hself⟩ fun j op' hj hop' => ?_
    have hsound' := h.sound j op' hop'
    exact ⟨hsound'.metrics, hsound'.untracked, hother j op' hj hop'⟩
  case exact => exact h.exact.update hop (contribution_moved hrunning hown)

theorem Inv.settle (h : Inv s) {outcome : Outcome} (ha : Meets s (.settle i outcome))
    (hs : step s (.settle i outcome) = some s') : Inv s' := by
  cases hop : s.operations[i]? with
  | none => simp [step, hop] at hs
  | some op =>
    have hsame : ∀ j (op' : Operation N L), j ≠ i → s.operations[j]? = some op' →
        op'.phase.Sound s.attached j op'.own := fun j op' _ hop' => (h.sound j op' hop').phase
    by_cases hphase : op.phase = .running
    case neg => simp [step, hop, hphase] at hs
    have hrunning : op.phase ≠ .completed := by simp [hphase]
    cases htracked : op.tracked with
    | false =>
      simp only [step, hop, hphase, htracked, Option.bind_eq_bind, Option.bind_some, ne_eq,
        not_true_eq_false, if_false, Bool.not_false, if_true, Option.some.injEq] at hs
      rw [← hs]
      exact h.moved hop hrunning (fun _ => (h.sound i op hop).untracked htracked) trivial hsame
    | true =>
      have hmeets := ha op hop htracked
      simp only [step, hop, hphase, htracked, Option.bind_eq_bind, Option.bind_some, ne_eq,
        not_true_eq_false, if_false, Bool.not_true, Bool.false_eq_true] at hs
      cases outcome with
      | returned =>
        rw [← Option.some.inj hs]
        exact h.moved hop hrunning nofun trivial hsame
      | threw thrown =>
        cases thrown with
        | primitive =>
          rw [← Option.some.inj hs]
          exact h.moved hop hrunning nofun hmeets hsame
        | frozen =>
          rw [← Option.some.inj hs]
          exact h.moved hop hrunning nofun hmeets hsame
        | object error =>
          rw [← Option.some.inj hs]
          refine h.moved hop hrunning nofun (if_pos rfl) fun j op' hj hop' => ?_
          refine (hsame j op' hj hop').of_attached fun e he => if_neg ?_
          rintro rfl
          exact hmeets op' (List.mem_of_getElem? hop') he

theorem Inv.catch (h : Inv s) (hs : step s (.«catch» i) = some s') : Inv s' := by
  cases hop : s.operations[i]? with
  | none => simp [step, hop] at hs
  | some op =>
    have hsound := (h.sound i op hop).phase
    have hsame : ∀ j (op' : Operation N L), j ≠ i → s.operations[j]? = some op' →
        op'.phase.Sound s.attached j op'.own := fun j op' _ hop' => (h.sound j op' hop').phase
    cases hphase : op.phase with
    | settled outcome =>
      simp only [step, hop, hphase, Option.bind_eq_bind, Option.bind_some,
        Option.some.injEq] at hs
      have hrunning : op.phase ≠ .completed := by simp [hphase]
      rw [hphase] at hsound
      rw [← hs]
      refine h.moved hop hrunning nofun ?_ hsame
      cases outcome with
      | returned => exact rfl
      | threw thrown =>
        cases thrown with
        | object error =>
          have hattached : s.attached error = some i := hsound
          simp only [found, hattached]
          exact rfl
        | primitive => exact hsound
        | frozen => exact hsound
    | _ => simp [step, hop, hphase] at hs

/-- The state after a merge, in which one namespace has got the metrics of one capture. -/
def merged (s : Collector N L) (i : ℕ) (op capture : Operation N L) : Collector N L :=
  { s.update i (Operation.moved .completed) with
    namespaces := fun n =>
      if n = op.namespace then addNamespaceMetrics (s.namespaces n) capture.metrics
      else s.namespaces n }

omit [DecidableEq L] in
theorem contributions_merged (hop : s.operations[i]? = some op) (hphase : op.phase ≠ .completed)
    (capture : Operation N L) (n : N) :
    contributions (merged s i op capture) n =
      contributions s n + if op.namespace = n then op.own else 0 := by
  refine contributions_update (f := Operation.moved .completed) hop ?_
  have hbefore : op.contribution n = 0 := if_neg fun h => hphase h.2
  rw [hbefore, zero_add]
  simp [Operation.contribution, Operation.moved]

/-- Merging an operation keeps the metrics exact if and only if there are no latencies to merge
with. -/
theorem exact_merged_iff (h : Inv s) (hop : s.operations[i]? = some op)
    (hphase : op.phase ≠ .completed) :
    Exact (merged s i op op) ↔ ∀ l, (s.namespaces op.namespace).latencyByLayer l = none := by
  have hadd := metricsOf_add_iff (h.exact op.namespace) (h.sound i op hop).metrics
  constructor
  · intro hexact
    have hmerged := hexact op.namespace
    rw [contributions_merged hop hphase, if_pos rfl] at hmerged
    refine hadd.mp ?_
    simpa [merged] using hmerged
  · intro hnone n
    rw [contributions_merged hop hphase]
    by_cases hn : op.namespace = n
    · subst hn
      simpa [merged] using hadd.mpr hnone
    · simpa [merged, hn, Ne.symm hn] using h.exact n

theorem Inv.merge (h : Inv s) (ha : Meets s (.merge i)) (hs : step s (.merge i) = some s') :
    Inv s' := by
  cases hop : s.operations[i]? with
  | none => simp [step, hop] at hs
  | some op =>
    have hsound := h.sound i op hop
    have hsame : ∀ j (op' : Operation N L), j ≠ i → s.operations[j]? = some op' →
        op'.phase.Sound s.attached j op'.own := fun j op' _ hop' => (h.sound j op' hop').phase
    cases hphase : op.phase with
    | caught capture =>
      have hrunning : op.phase ≠ .completed := by simp [hphase]
      have hcapture := hsound.phase
      rw [hphase] at hcapture
      cases capture with
      | none =>
        simp only [step, hop, hphase, Option.bind_eq_bind, Option.bind_some,
          Option.some.injEq] at hs
        rw [← hs]
        exact h.moved hop hrunning (fun _ => hcapture) trivial hsame
      | some j =>
        obtain rfl : j = i := hcapture
        simp only [step, hop, hphase, Option.bind_eq_bind, Option.bind_some,
          Option.some.injEq] at hs
        rw [← hs]
        constructor
        case sound =>
          exact sound_update hop ⟨hsound.metrics, hsound.untracked, trivial⟩
            fun k op' _ hop' => h.sound k op' hop'
        case exact => exact (exact_merged_iff h hop hrunning).mpr (ha op j hop hphase)
    | _ => simp [step, hop, hphase] at hs

omit [DecidableEq N] [DecidableEq L] in
theorem update_update (f g : Operation N L → Operation N L) :
    (s.update i f).update i g = s.update i (g ∘ f) := by
  simp [Collector.update, List.modify_modify_eq]

theorem Inv.step (h : Inv s) {a : Action N L} (ha : Meets s a) (hs : step s a = some s') :
    Inv s' := by
  cases a with
  | issue n tracked within =>
    cases within with
    | none =>
      rw [← Option.some.inj hs]
      exact h.issue [] tracked
    | some j =>
      cases hop : s.operations[j]? with
      | none => simp [NamespaceMetrics.step, hop] at hs
      | some op =>
        simp only [NamespaceMetrics.step, hop, Option.bind_eq_bind, Option.bind_some,
          Option.some.injEq] at hs
        rw [← hs]
        exact h.issue (op.captures j) tracked
  | record charged context event =>
    obtain ⟨rfl, hopen⟩ := ha
    rw [← Option.some.inj hs]
    cases charged with
    | none => exact ⟨h.sound, h.exact⟩
    | some j =>
      obtain ⟨op, hop, htracked, hall, hopen⟩ := hopen j rfl
      have hcontext : s.context (some j) = [j] := by
        simp [Collector.context, hop, Operation.captures, htracked, hall]
      simp only [hcontext, Option.elim_some, List.foldl_cons, List.foldl_nil, update_update]
      exact h.record hop hopen htracked event _
  | settle j outcome => exact h.settle ha hs
  | «catch» j => exact h.catch hs
  | merge j => exact h.merge ha hs

end

theorem inv_start : Inv (Collector.start : Collector N L) := by
  constructor
  case sound => exact fun i op hop => nomatch hop
  case exact => exact fun n => metricsOf_empty

theorem inv_reaches {s : Collector N L} (h : Reaches Meets s) : Inv s := by
  induction h with
  | start => exact inv_start
  | step _ ha hs ih => exact ih.step ha hs

/-- In every run whose actions meet the condition the metrics are exact. -/
def ExactAlong (N L : Type*) [DecidableEq N] [DecidableEq L]
    (meets : Collector N L → Action N L → Prop) : Prop :=
  ∀ s, Reaches meets s → Exact s

/-- The metrics stay exact in such a run, and cease to be so with a merge that does not meet the
condition. -/
def ExactWhile (N L : Type*) [DecidableEq N] [DecidableEq L]
    (meets : Collector N L → Action N L → Prop) : Prop :=
  ExactAlong N L meets ∧ ∀ (s : Collector N L) (i : ℕ) (s' : Collector N L), Reaches meets s →
    step s (.merge i) = some s' → (Exact s' ↔ meets s (.merge i))

theorem exactWhile_meets (N L : Type*) [DecidableEq N] [DecidableEq L] :
    ExactWhile N L Meets := by
  refine ⟨fun s h => (inv_reaches h).exact, fun s i s' h hs => ?_⟩
  have hinv := inv_reaches h
  refine ⟨fun hexact => ?_, fun ha => (hinv.merge ha hs).exact⟩
  intro op j hop hphase
  have hrunning : op.phase ≠ .completed := by simp [hphase]
  have hself := (hinv.sound i op hop).phase
  rw [hphase] at hself
  obtain rfl : j = i := hself
  simp only [step, hop, hphase, Option.bind_eq_bind, Option.bind_some, Option.some.injEq] at hs
  rw [← hs] at hexact
  exact (exact_merged_iff hinv hop hrunning).mp hexact

/-- Two gets one after the other, each of which reads the same layer. -/
def twoReads : List (Action Unit Unit) :=
  [.issue () true none, .record (some 0) (some 0) (.recordLatency () 3), .settle 0 .returned,
    .«catch» 0, .merge 0, .issue () true none, .record (some 1) (some 1) (.recordLatency () 5),
    .settle 1 .returned, .«catch» 1, .merge 1]

theorem reaches_foldlM {N L : Type*} [DecidableEq N] [DecidableEq L] {actions : List (Action N L)}
    {s s' : Collector N L} (h : Reaches (fun _ _ => True) s)
    (hs : actions.foldlM step s = some s') : Reaches (fun _ _ => True) s' := by
  induction actions generalizing s with
  | nil =>
    obtain rfl : s = s' := Option.some.inj hs
    exact h
  | cons a actions ih =>
    obtain ⟨next, hnext, hrest⟩ := Option.bind_eq_some_iff.mp hs
    exact ih (h.step trivial hnext) hrest

/-- The latency of the first read is lost with the second. -/
theorem second_read_not_exact : ¬ExactAlong Unit Unit (fun _ _ => True) := by
  intro h
  obtain ⟨s, hs, hcontributions, hlatency⟩ : ∃ s, twoReads.foldlM step Collector.start = some s ∧
      contributions s () = {.recordLatency () 3} + {.recordLatency () 5} ∧
      (s.namespaces ()).latencyByLayer () = some ⟨5, 5, 1⟩ := ⟨_, rfl, rfl, rfl⟩
  have hexact := (h s (reaches_foldlM .start hs) ()).latency ()
  rw [hcontributions, hlatency] at hexact
  have hcount := hexact.1
  simp [Event.samples] at hcount

end LayerCache.NamespaceMetrics
