import LayerCache.Store.Changes
import LayerCache.Transition.Run

/-! # Writes whose layers fail

A set goes to all layers at once, and the set of any layer may reject. Under the strict
policy the first rejection ends the write, whatever the other layers are doing; under the
best-effort policy the write waits for all of them. With graceful degradation a failing
layer is put aside instead, and nothing rejects.
-/

namespace LayerCache

open Store Transition

inductive WritePolicy
  | strict
  | bestEffort
deriving DecidableEq

structure WriteConfig where
  layers : ℕ
  writePolicy : WritePolicy
  gracefulDegradation : Bool

/-- What has become of the layer operations of a write, for the proofs: the layers that it has
written and that its cleanup has wiped, and the step at which the outcome was decided. Only
`rejected` decides anything. -/
structure Trace where
  rejected : ℕ
  landed : List ℕ
  wiped : List ℕ
  verdict : Option ℕ
deriving DecidableEq

def Trace.start : Trace := ⟨0, [], [], none⟩

/-- A fence is captured before its write is called, for a `get` long before. -/
structure FaultyStore (K V : Type) where
  clock : ℕ
  store : Store K V
  degraded : ℕ → Bool
  captures : ℕ → Option (K × Fence)
  traces : ℕ → Trace

inductive FaultyAction (K V : Type)
  | capture (key : K)
  | set (capture : ℕ) (payload : ℕ → Stored V × Option Millis)
  | start (t : ℕ)
  | land (t i : ℕ)
  | reject (t i : ℕ)
  | check (t : ℕ)
  | wipe (t i : ℕ)
  | settle (t : ℕ)
  | invalidate (target : Target K)
  | erase (b i : ℕ)
  | recover (l : ℕ)

variable {K V : Type}

/-- The layers whose operations for the strand are under way. -/
def Strand.inFlight (st : Strand K V) : List ℕ :=
  match st.phase with
  | .writing _ todo => todo.map Put.layer
  | .wiping todo => todo.map Prod.fst
  | _ => []

namespace FaultyStore

def initial (now : Millis) (contents : ℕ → K → Option (Stored V × Option Millis)) :
    FaultyStore K V where
  clock := 1
  store := .initial now contents
  degraded := fun _ => false
  captures := fun _ => none
  traces := fun _ => .start

def trace (s : FaultyStore K V) (t : ℕ) (tr : Trace) : FaultyStore K V :=
  { s with traces := Function.update s.traces t tr }

/-- `writeAcrossLayers`: the cleanup spares the layers that are degraded at the call. -/
def setOrder (cfg : WriteConfig) (s : FaultyStore K V) (key : K) (fence : Fence) (captured : ℕ)
    (payload : ℕ → Stored V × Option Millis) : Order K V where
  kind := .set
  keys := [key]
  fence _ := fence
  captured
  strands := [.plan
    ((List.range cfg.layers).map fun l => ⟨l, key, ⟨(payload l).1, s.clock⟩, (payload l).2⟩)
    ((List.range cfg.layers).filter fun l => !s.degraded l)]

def inFlight (s : FaultyStore K V) (t : ℕ) : List ℕ :=
  (s.store.orders t).elim [] fun o => o.strands.flatMap Strand.inFlight

variable [DecidableEq K]

def capture (s : FaultyStore K V) (key : K) : Option (FaultyStore K V) :=
  some { s with
    captures := Function.update s.captures s.clock (some (key, s.store.epochs.fence key)) }

def set (cfg : WriteConfig) (s : FaultyStore K V) (c : ℕ)
    (payload : ℕ → Stored V × Option Millis) : Option (FaultyStore K V) := do
  let (key, fence) ← s.captures c
  some { s.trace s.clock .start with
    store := s.store.enlist s.clock (s.setOrder cfg key fence c payload) }

def start (s : FaultyStore K V) (t : ℕ) : Option (FaultyStore K V) := do
  let store ← s.store.start s.degraded t
  some { s with store }

def land (s : FaultyStore K V) (t i : ℕ) : Option (FaultyStore K V) := do
  let (_, p) ← s.store.landing t 0 i
  let store ← s.store.land t 0 i
  let tr := s.traces t
  some { s.trace t { tr with landed := p.layer :: tr.landed } with store }

/-- The set of a layer rejects. Without graceful degradation this ends the write, or leaves it to
the layers that have not answered yet. -/
def reject (cfg : WriteConfig) (s : FaultyStore K V) (t i : ℕ) : Option (FaultyStore K V) := do
  let (o, p) ← s.store.landing t 0 i
  let store ← s.store.landFail t 0 i
  let tr := s.traces t
  if cfg.gracefulDegradation then
    some { s with store, degraded := Function.update s.degraded p.layer true }
  else
    let ends := cfg.writePolicy = .strict ∨ tr.rejected + 1 = cfg.layers
    if (s.inFlight t).length = 1 ∧ ends then
      some { s.trace t { tr with rejected := tr.rejected + 1, verdict := some s.clock } with
        store := s.store.putOrder t { o with
          strands := o.strands.map fun st => { st with phase := .finished false } } }
    else some { s.trace t { tr with rejected := tr.rejected + 1 } with store }

/-- The second look at the fence, which a strict write does not take after a rejection. -/
def check (cfg : WriteConfig) (s : FaultyStore K V) (t : ℕ) : Option (FaultyStore K V) := do
  let store ← s.store.check t 0
  let tr := s.traces t
  if cfg.writePolicy = .strict ∧ tr.rejected ≠ 0 then none
  else some { s.trace t { tr with verdict := some s.clock } with store }

def wipe (s : FaultyStore K V) (t i : ℕ) : Option (FaultyStore K V) := do
  let o ← s.store.orders t
  let st ← o.strands[0]?
  let ((l, _), _) ← st.wipe i
  let store ← s.store.wipe t 0 i
  let tr := s.traces t
  some { s.trace t { tr with wiped := l :: tr.wiped } with store }

/-- The slot of a write is released when its run is over, which a rejection makes it under the
strict policy. -/
def settle (cfg : WriteConfig) (s : FaultyStore K V) (t : ℕ) : Option (FaultyStore K V) := do
  let o ← s.store.orders t
  let chain ← s.store.chain.settle t
  if o.strands.all Strand.done ∨ (cfg.writePolicy = .strict ∧ (s.traces t).rejected ≠ 0) then
    some { s with store := { s.store with chain } }
  else none

/-- A deletion leaves out the degraded layers, a clear does not. -/
def invalidate (cfg : WriteConfig) (s : FaultyStore K V) (target : Target K) :
    Option (FaultyStore K V) :=
  some { s with store := s.store.bump s.clock target <|
    match target with
    | .keys _ => (List.range cfg.layers).filter fun l => !s.degraded l
    | .all => List.range cfg.layers }

def erase (s : FaultyStore K V) (b i : ℕ) : Option (FaultyStore K V) := do
  let store ← s.store.erase b i
  some { s with store }

def act (cfg : WriteConfig) (s : FaultyStore K V) : FaultyAction K V → Option (FaultyStore K V)
  | .capture key => s.capture key
  | .set c payload => s.set cfg c payload
  | .start t => s.start t
  | .land t i => s.land t i
  | .reject t i => s.reject cfg t i
  | .check t => s.check cfg t
  | .wipe t i => s.wipe t i
  | .settle t => s.settle cfg t
  | .invalidate target => s.invalidate cfg target
  | .erase b i => s.erase b i
  | .recover l => some { s with degraded := Function.update s.degraded l false }

def step (cfg : WriteConfig) (s : FaultyStore K V) (a : FaultyAction K V) :
    Option (FaultyStore K V) :=
  (s.act cfg a).map fun s' => { s' with clock := s.clock + 1 }

def outdated (s : FaultyStore K V) (t : ℕ) : Prop :=
  ∃ o ∈ s.store.orders t, ∃ k ∈ o.keys, s.store.epochs.isWriteOutdated k (o.fence k) = true

instance (s : FaultyStore K V) (t : ℕ) : Decidable (s.outdated t) :=
  match h : s.store.orders t with
  | none => isFalse (by simp [outdated, h])
  | some o => decidable_of_iff
      (∃ k ∈ o.keys, s.store.epochs.isWriteOutdated k (o.fence k) = true) (by simp [outdated, h])

/-- The layers that the cleanup of a write goes through. -/
def sweep (s : FaultyStore K V) (t : ℕ) : List ℕ :=
  (s.store.orders t).elim [] fun o => o.strands.flatMap Strand.sweep

/-- A rejection ends a strict write only when no other layer has yet to answer, and nothing has to
be cleaned up then; and a cleanup covers what the write has written. -/
def Harmless (cfg : WriteConfig) (s : FaultyStore K V) : FaultyAction K V → Prop
  | .reject t _ => cfg.gracefulDegradation = false → cfg.writePolicy = .strict →
      (s.inFlight t).length = 1 ∧ (s.outdated t → (s.traces t).landed = [])
  | .check t => s.outdated t → ∀ l ∈ (s.traces t).landed, l ∈ s.sweep t
  | _ => True

instance (cfg : WriteConfig) (s : FaultyStore K V) (a : FaultyAction K V) :
    Decidable (Harmless cfg s a) := by
  cases a <;> unfold Harmless <;> infer_instance

/-- How far a write has come, by the phase of its strand. When the outcome was decided at step `v`,
every layer that the write has written is wiped or about to be if the fence had moved by then. -/
inductive Course (cfg : WriteConfig) (removals : ℕ → Option (Removal K)) (n : ℕ) (o : Order K V)
    (st : Strand K V) (tr : Trace) : Prop
  | planned (hphase : st.phase = .planned) (htr : tr = .start)
  | refused (hphase : st.phase = .finished false) (htr : tr = .start)
  | writing (active : List K) (todo : List (Put K V)) (hphase : st.phase = .writing active todo)
      (hactive : ∀ k ∈ o.keys, k ∈ active) (hverdict : tr.verdict = none) (hwiped : tr.wiped = [])
      (hstrict : cfg.writePolicy = .strict → tr.rejected = 0)
      (hcount : tr.rejected + tr.landed.length + todo.length ≤ cfg.layers)
  | decided (v : ℕ) (hv : v < n) (hverdict : tr.verdict = some v) (hplanned : st.phase ≠ .planned)
      (hwriting : ∀ active todo, st.phase ≠ .writing active todo)
      (hstrict : cfg.writePolicy = .strict → tr.rejected ≠ 0 → st.done = true)
      (hcleaned : ∀ b r, removals b = some r → (∃ k ∈ o.keys, r.target.Covers k) →
        o.captured < b → b < v → ∀ l ∈ tr.landed,
          l ∈ tr.wiped ∨ ∃ todo k, st.phase = .wiping todo ∧ (l, k) ∈ todo)

structure OnCourse (cfg : WriteConfig) (s : FaultyStore K V) (t : ℕ) (o : Order K V) : Prop where
  single : ∃ k, o.keys = [k]
  strand : ∃ st, o.strands = [st] ∧ st.puts.length ≤ cfg.layers ∧
    Course cfg s.store.removals s.clock o st (s.traces t)

/-- What is known of a cell that order `t` has placed. -/
structure Placed (s : FaultyStore K V) (l : ℕ) (k : K) (t : ℕ) : Prop where
  landed : l ∈ (s.traces t).landed
  unwiped : l ∉ (s.traces t).wiped
  unreached : ∀ v b o, (s.traces t).verdict = some v → s.store.orders t = some o →
    s.store.Reached b l k → o.captured < b → b < v

structure Kept (cfg : WriteConfig) (s : FaultyStore K V) : Prop where
  wf : s.store.Wf s.clock
  captures : ∀ c k f, s.captures c = some (k, f) → c < s.clock ∧ s.store.Knows k f c
  course : ∀ t o, s.store.orders t = some o → s.OnCourse cfg t o
  cells : ∀ l k cell t, s.store.cells l k = some cell → cell.writer = some t → s.Placed l k t

variable {cfg : WriteConfig} {s s' : FaultyStore K V} {store : Store K V} {t b l i : ℕ} {k : K}
  {o : Order K V} {st st' : Strand K V} {tr : Trace}

theorem step_spec {a : FaultyAction K V} (h : s.step cfg a = some s') :
    ∃ s₁, s.act cfg a = some s₁ ∧ s' = { s₁ with clock := s.clock + 1 } := by
  simp only [step, Option.map_eq_some_iff] at h
  obtain ⟨s₁, hs, rfl⟩ := h
  exact ⟨s₁, hs, rfl⟩

theorem set_spec {c : ℕ} {payload : ℕ → Stored V × Option Millis}
    (h : s.set cfg c payload = some s') :
    ∃ key fence, s.captures c = some (key, fence) ∧ s' = { s.trace s.clock .start with
      store := s.store.enlist s.clock (s.setOrder cfg key fence c payload) } := by
  simp only [set, Option.bind_eq_bind, Option.bind_eq_some_iff, Option.some.injEq, Prod.exists] at h
  obtain ⟨key, fence, hc, rfl⟩ := h
  exact ⟨key, fence, hc, rfl⟩

theorem start_spec (h : s.start t = some s') :
    ∃ store, s.store.start s.degraded t = some store ∧ s' = { s with store } := by
  simp only [start, Option.bind_eq_bind, Option.bind_eq_some_iff, Option.some.injEq] at h
  obtain ⟨store, hs, rfl⟩ := h
  exact ⟨store, hs, rfl⟩

theorem land_spec (h : s.land t i = some s') : ∃ o p store, s.store.landing t 0 i = some (o, p) ∧
    s.store.land t 0 i = some store ∧ s' = { s.trace t { s.traces t with
      landed := p.layer :: (s.traces t).landed } with store } := by
  simp only [land, Option.bind_eq_bind, Option.bind_eq_some_iff, Option.some.injEq,
    Prod.exists] at h
  obtain ⟨o, p, hl, store, hs, rfl⟩ := h
  exact ⟨o, p, store, hl, hs, rfl⟩

omit [DecidableEq K] in
theorem reject_spec (h : s.reject cfg t i = some s') : ∃ o p store,
    s.store.landing t 0 i = some (o, p) ∧ s.store.landFail t 0 i = some store ∧
    ((cfg.gracefulDegradation = true ∧
      s' = { s with store, degraded := Function.update s.degraded p.layer true }) ∨
    (cfg.gracefulDegradation = false ∧ (s.inFlight t).length = 1 ∧
      (cfg.writePolicy = .strict ∨ (s.traces t).rejected + 1 = cfg.layers) ∧
      s' = { s.trace t { s.traces t with
          rejected := (s.traces t).rejected + 1, verdict := some s.clock } with
        store := s.store.putOrder t { o with
          strands := o.strands.map fun st => { st with phase := .finished false } } }) ∨
    (cfg.gracefulDegradation = false ∧ ¬((s.inFlight t).length = 1 ∧
        (cfg.writePolicy = .strict ∨ (s.traces t).rejected + 1 = cfg.layers)) ∧
      s' =
        { s.trace t { s.traces t with rejected := (s.traces t).rejected + 1 } with store })) := by
  simp only [reject, Option.bind_eq_bind, Option.bind_eq_some_iff, Prod.exists] at h
  obtain ⟨o, p, hl, store, hs, h⟩ := h
  refine ⟨o, p, store, hl, hs, ?_⟩
  split_ifs at h with hg hend
  · cases h
    exact .inl ⟨hg, rfl⟩
  · cases h
    exact .inr (.inl ⟨by simpa using hg, hend.1, hend.2, rfl⟩)
  · cases h
    exact .inr (.inr ⟨by simpa using hg, hend, rfl⟩)

theorem check_spec (h : s.check cfg t = some s') : ∃ store, s.store.check t 0 = some store ∧
    (cfg.writePolicy = .strict → (s.traces t).rejected = 0) ∧
    s' = { s.trace t { s.traces t with verdict := some s.clock } with store } := by
  simp only [check, Option.bind_eq_bind, Option.bind_eq_some_iff] at h
  obtain ⟨store, hs, h⟩ := h
  split_ifs at h with hstrict
  cases h
  exact ⟨store, hs, fun hp => by_contra fun hne => hstrict ⟨hp, hne⟩, rfl⟩

theorem wipe_spec (h : s.wipe t i = some s') : ∃ o st l k st' store, s.store.orders t = some o ∧
    o.strands[0]? = some st ∧ st.wipe i = some ((l, k), st') ∧ s.store.wipe t 0 i = some store ∧
    s' = { s.trace t { s.traces t with wiped := l :: (s.traces t).wiped } with store } := by
  simp only [wipe, Option.bind_eq_bind, Option.bind_eq_some_iff, Option.some.injEq,
    Prod.exists] at h
  obtain ⟨o, ho, st, hst, l, k, st', hw, store, hs, rfl⟩ := h
  exact ⟨o, st, l, k, st', store, ho, hst, hw, hs, rfl⟩

omit [DecidableEq K] in
theorem settle_spec (h : s.settle cfg t = some s') : ∃ o chain, s.store.orders t = some o ∧
    s.store.chain.settle t = some chain ∧
    (o.strands.all Strand.done = true ∨
      (cfg.writePolicy = .strict ∧ (s.traces t).rejected ≠ 0)) ∧
    s' = { s with store := { s.store with chain } } := by
  simp only [settle, Option.bind_eq_bind, Option.bind_eq_some_iff] at h
  obtain ⟨o, ho, chain, hc, h⟩ := h
  split_ifs at h with hdone
  cases h
  exact ⟨o, chain, ho, hc, hdone, rfl⟩

theorem erase_spec {i : ℕ} (h : s.erase b i = some s') :
    ∃ store, s.store.erase b i = some store ∧ s' = { s with store } := by
  simp only [erase, Option.bind_eq_bind, Option.bind_eq_some_iff, Option.some.injEq] at h
  obtain ⟨store, hs, rfl⟩ := h
  exact ⟨store, hs, rfl⟩

omit [DecidableEq K] in
theorem Course.mono {removals : ℕ → Option (Removal K)} {n m : ℕ}
    (h : Course cfg removals n o st tr) (hle : n ≤ m) : Course cfg removals m o st tr := by
  cases h with
  | planned hphase htr => exact .planned hphase htr
  | refused hphase htr => exact .refused hphase htr
  | writing active todo hphase hactive hverdict hwiped hstrict hcount =>
    exact .writing active todo hphase hactive hverdict hwiped hstrict hcount
  | decided v hv hverdict hplanned hwriting hstrict hcleaned =>
    exact .decided v (hv.trans_le hle) hverdict hplanned hwriting hstrict hcleaned

omit [DecidableEq K] in
/-- Invalidations that come after the outcome change nothing for a write. -/
theorem Course.of_removals {removals removals' : ℕ → Option (Removal K)} {n : ℕ}
    (h : Course cfg removals n o st tr)
    (hold : ∀ b r', b < n → removals' b = some r' → ∃ r, removals b = some r ∧
      r'.target = r.target) : Course cfg removals' n o st tr := by
  cases h with
  | planned hphase htr => exact .planned hphase htr
  | refused hphase htr => exact .refused hphase htr
  | writing active todo hphase hactive hverdict hwiped hstrict hcount =>
    exact .writing active todo hphase hactive hverdict hwiped hstrict hcount
  | decided v hv hverdict hplanned hwriting hstrict hcleaned =>
    refine .decided v hv hverdict hplanned hwriting hstrict ?_
    intro b r' hr' hk hcap hb
    obtain ⟨r, hr, htarget⟩ := hold b r' (hb.trans hv) hr'
    exact hcleaned b r hr (by simpa [htarget] using hk) hcap hb

/-- A step of one write, by what it does to the write and its cells. -/
theorem Kept.advance (h : s.Kept cfg) (degraded : ℕ → Bool) (hwf : store.Wf (s.clock + 1))
    (hepochs : store.epochs = s.store.epochs) (hrem : store.removals = s.store.removals)
    {o' : Order K V} (ho : s.store.orders t = some o)
    (horders : store.orders = Function.update s.store.orders t (some o'))
    (hkeys : o'.keys = o.keys) (hcaptured : o'.captured = o.captured)
    (hstrand : ∃ st, o'.strands = [st] ∧ st.puts.length ≤ cfg.layers ∧
      Course cfg s.store.removals (s.clock + 1) o' st tr)
    (hcells : ∀ l k cell u, store.cells l k = some cell → cell.writer = some u →
      (u ≠ t ∧ s.store.cells l k = some cell) ∨
      (u = t ∧ l ∈ tr.landed ∧ l ∉ tr.wiped ∧ ∀ v b, tr.verdict = some v →
        s.store.Reached b l k → o.captured < b → b < v)) :
    (⟨s.clock + 1, store, degraded, s.captures, Function.update s.traces t tr⟩ :
      FaultyStore K V).Kept cfg where
  wf := hwf
  captures c k f hc := by
    obtain ⟨hlt, hknows⟩ := h.captures c k f hc
    exact ⟨hlt.trans (Nat.lt_succ_self _), by simpa [Knows, hepochs, hrem] using hknows⟩
  course u q hq := by
    simp only [horders] at hq
    by_cases hu : u = t
    · subst hu
      simp only [Function.update_self, Option.some.injEq] at hq
      subst hq
      refine ⟨by simpa only [hkeys] using (h.course u o ho).single, ?_⟩
      obtain ⟨st, hst, hputs, hcourse⟩ := hstrand
      exact ⟨st, hst, hputs, by simpa [hrem] using hcourse⟩
    · rw [Function.update_of_ne hu] at hq
      obtain ⟨hsingle, st, hst, hputs, hcourse⟩ := h.course u q hq
      refine ⟨hsingle, st, hst, hputs, ?_⟩
      simpa [hrem, hu] using hcourse.mono (Nat.le_succ _)
  cells l k cell u hcell hu := by
    have hreached : ∀ b, store.Reached b l k → s.store.Reached b l k := by
      intro b hb
      simpa [Reached, hrem] using hb
    rcases hcells l k cell u hcell hu with ⟨hne, hold⟩ | ⟨rfl, hlanded, hunwiped, hlate⟩
    · obtain ⟨hlanded, hunwiped, hlate⟩ := h.cells l k cell u hold hu
      refine ⟨by simpa [hne] using hlanded, by simpa [hne] using hunwiped, ?_⟩
      intro v b q hv hq hb hcap
      simp only [horders, Function.update_of_ne hne] at hv hq
      exact hlate v b q hv hq (hreached b hb) hcap
    · refine ⟨by simpa using hlanded, by simpa using hunwiped, ?_⟩
      intro v b q hv hq hb hcap
      simp only [horders, Function.update_self, Option.some.injEq] at hv hq
      subst hq
      exact hlate v b hv (hreached b hb) (hcaptured ▸ hcap)

theorem Kept.of_same (h : s.Kept cfg) {degraded : ℕ → Bool} {captures : ℕ → Option (K × Fence)}
    (hwf : store.Wf (s.clock + 1)) (horders : store.orders = s.store.orders)
    (hrem : store.removals = s.store.removals) (hcells : store.cells = s.store.cells)
    (hcaptures : ∀ c k f, captures c = some (k, f) → c < s.clock + 1 ∧ store.Knows k f c) :
    (⟨s.clock + 1, store, degraded, captures, s.traces⟩ : FaultyStore K V).Kept cfg where
  wf := hwf
  captures := hcaptures
  course u q hq := by
    obtain ⟨hsingle, st, hst, hputs, hcourse⟩ := h.course u q (horders ▸ hq)
    exact ⟨hsingle, st, hst, hputs, by simpa [hrem] using hcourse.mono (Nat.le_succ _)⟩
  cells l k cell u hcell hu := by
    obtain ⟨hlanded, hunwiped, hlate⟩ := h.cells l k cell u (hcells ▸ hcell) hu
    refine ⟨hlanded, hunwiped, ?_⟩
    intro v b q hv hq hb hcap
    exact hlate v b q hv (horders ▸ hq) (by simpa [Reached, hrem] using hb) hcap

theorem Kept.captures_step (h : s.Kept cfg) (hstep : s.store.Step True s.clock store) (c : ℕ)
    (k : K)
    (f : Fence) (hc : s.captures c = some (k, f)) : c < s.clock + 1 ∧ store.Knows k f c := by
  obtain ⟨hlt, hknows⟩ := h.captures c k f hc
  exact ⟨hlt.trans (Nat.lt_succ_self _), hknows.step h.wf hstep⟩

theorem Kept.capture (h : s.Kept cfg) (key : K) :
    (⟨s.clock + 1, s.store, s.degraded, Function.update s.captures s.clock
      (some (key, s.store.epochs.fence key)), s.traces⟩ : FaultyStore K V).Kept cfg := by
  apply h.of_same h.wf.mono rfl rfl rfl
  intro c k f hc
  by_cases hn : c = s.clock
  · subst hn
    simp only [Function.update_self, Option.some.injEq, Prod.mk.injEq] at hc
    obtain ⟨rfl, rfl⟩ := hc
    exact ⟨Nat.lt_succ_self _, Knows.of_current _ _ h.wf.removals_lt⟩
  · rw [Function.update_of_ne hn] at hc
    obtain ⟨hlt, hknows⟩ := h.captures c k f hc
    exact ⟨hlt.trans (Nat.lt_succ_self _), hknows⟩

theorem Kept.set (h : s.Kept cfg) {c : ℕ} {fence : Fence} (hc : s.captures c = some (k, fence))
    (payload : ℕ → Stored V × Option Millis) :
    (⟨s.clock + 1, s.store.enlist s.clock (s.setOrder cfg k fence c payload), s.degraded,
      s.captures, Function.update s.traces s.clock .start⟩ : FaultyStore K V).Kept cfg := by
  obtain ⟨hlt, hknows⟩ := h.captures c k fence hc
  have hstep : s.store.Step True s.clock
      (s.store.enlist s.clock (s.setOrder cfg k fence c payload)) := by
    apply Store.Step.enlist
    · simp [setOrder, Strand.plan]
    · simp [setOrder, Strand.plan]
    · exact .inl trivial
    · exact hlt.le
    · simpa [setOrder] using hknows
  -- the new order is the only one that changes, and no cell is its
  have hne : ∀ {u : ℕ} {q : Order K V}, s.store.orders u = some q → u ≠ s.clock := fun hq =>
    Nat.ne_of_lt (h.wf.lt_of_order hq)
  refine ⟨h.wf.step hstep, h.captures_step hstep, ?_, ?_⟩
  · intro u q hq
    by_cases hu : u = s.clock
    · subst hu
      simp only [Store.enlist, Function.update_self, Option.some.injEq] at hq
      subst hq
      refine ⟨⟨k, rfl⟩, _, rfl, ?_, .planned rfl (by simp)⟩
      simp [Strand.plan]
    · simp only [Store.enlist, Function.update_of_ne hu] at hq
      obtain ⟨hsingle, st, hst, hputs, hcourse⟩ := h.course u q hq
      refine ⟨hsingle, st, hst, hputs, ?_⟩
      simpa [hu, Store.enlist] using hcourse.mono (Nat.le_succ _)
  · intro l k' cell u hcell hu
    obtain ⟨-, q, hq, -⟩ := h.wf.placed l k' cell u hcell hu
    have hun := hne hq
    obtain ⟨hlanded, hunwiped, hlate⟩ := h.cells l k' cell u hcell hu
    refine ⟨by simpa [hun] using hlanded, by simpa [hun] using hunwiped, ?_⟩
    intro v b q' hv hq' hb hcap
    simp only [Store.enlist, Function.update_of_ne hun] at hv hq'
    exact hlate v b q' hv hq' hb hcap

theorem Kept.start (h : s.Kept cfg) (hs : s.store.start s.degraded t = some store) :
    (⟨s.clock + 1, store, s.degraded, s.captures, s.traces⟩ : FaultyStore K V).Kept cfg := by
  have hstep : s.store.Step True s.clock store := .start s.degraded t hs
  have hwf := h.wf.step hstep
  obtain ⟨chain, o, hchain, ho, rfl⟩ := Store.start_spec hs
  obtain ⟨⟨k, hk⟩, st, hst, hputs, hcourse⟩ := h.course t o ho
  obtain ⟨tk, htk, hqueued, -⟩ := TailChain.Chain.start_spec hchain
  have hphase : st.phase = .planned := by
    obtain ⟨tk', htk'⟩ := h.wf.ticket t o ho
    rw [htk'.get] at htk
    cases htk
    exact (htk'.planned st (by simp [hst])).mpr hqueued
  have htr : s.traces t = .start := by
    cases hcourse with
    | planned _ htr | refused _ htr => exact htr
    | writing active todo hw => simp [hphase] at hw
    | decided v _ _ hplanned => exact absurd hphase hplanned
  set active := o.keys.filter fun k => !s.store.epochs.isWriteOutdated k (o.fence k)
  set skipped : ℕ → Bool := if o.kind = .set then s.degraded else fun _ => false
  have hcourse' : Course cfg s.store.removals (s.clock + 1)
      { o with strands := o.strands.map fun st => st.start active skipped }
      (st.start active skipped) (s.traces t) := by
    by_cases hempty : active = []
    · exact .refused (by simp [Strand.start, hempty]) htr
    · have hactive : ∀ k' ∈ o.keys, k' ∈ active := by
        intro k' hk'
        obtain ⟨a, ha⟩ := List.exists_mem_of_ne_nil _ hempty
        have hka : a ∈ o.keys := (List.mem_filter.mp ha).1
        simp only [hk, List.mem_singleton] at hk' hka
        rwa [hk', ← hka]
      refine .writing active (st.puts.filter fun p => p.key ∈ active && !skipped p.layer)
        (by simp [Strand.start, hempty]) hactive (by simp [htr, Trace.start])
        (by simp [htr, Trace.start]) (by simp [htr, Trace.start]) ?_
      have hle := List.length_filter_le
        (fun p : Put K V => decide (p.key ∈ active) && !skipped p.layer) st.puts
      simp only [htr, Trace.start, List.length_nil]
      omega
  have hnext := h.advance s.degraded hwf rfl rfl ho rfl rfl rfl
    ⟨st.start active skipped, by simp [hst], hputs, hcourse'⟩ ?_
  · simpa using hnext
  · intro l k cell u hcell hu
    left
    refine ⟨?_, hcell⟩
    rintro rfl
    have hlanded := (h.cells l k cell u hcell hu).landed
    simp [htr, Trace.start] at hlanded

theorem Kept.writing (h : s.Kept cfg) (ho : s.store.orders t = some o)
    (hst : o.strands[0]? = some st)
    {active : List K} {todo : List (Put K V)} (hphase : st.phase = .writing active todo) :
    (∀ k ∈ o.keys, k ∈ active) ∧ o.strands = [st] ∧ st.puts.length ≤ cfg.layers ∧
      (s.traces t).verdict = none ∧ (s.traces t).wiped = [] ∧
      (cfg.writePolicy = .strict → (s.traces t).rejected = 0) ∧
      (s.traces t).rejected + (s.traces t).landed.length + todo.length ≤ cfg.layers := by
  obtain ⟨-, st', hst', hputs, hcourse⟩ := h.course t o ho
  obtain rfl : st' = st := by simpa [hst'] using hst
  cases hcourse with
  | planned hp | refused hp => simp [hphase] at hp
  | decided v _ _ _ hw => exact absurd hphase (hw active todo)
  | writing active' todo' hp hactive hverdict hwiped hstrict hcount =>
    rw [hphase] at hp
    cases hp
    exact ⟨hactive, hst', hputs, hverdict, hwiped, hstrict, hcount⟩

omit [DecidableEq K] in
theorem strands_setStrand (h : o.strands = [st]) (st' : Strand K V) :
    (o.setStrand 0 st').strands = [st'] := by
  simp [Order.setStrand, h]

theorem Kept.land (h : s.Kept cfg) {p : Put K V} (hl : s.store.landing t 0 i = some (o, p))
    (hs : s.store.land t 0 i = some store) :
    (⟨s.clock + 1, store, s.degraded, s.captures, Function.update s.traces t { s.traces t with
      landed := p.layer :: (s.traces t).landed }⟩ : FaultyStore K V).Kept cfg := by
  have hstep : s.store.Step True s.clock store := .land t 0 i hs
  have hwf := h.wf.step hstep
  obtain ⟨st, st', ho, hst, hland⟩ := landing_spec hl
  obtain ⟨o₁, st₁, p₁, st₁', ho₁, hst₁, hland₁, rfl⟩ := Store.land_spec hs
  rw [ho] at ho₁
  cases ho₁
  rw [hst] at hst₁
  cases hst₁
  rw [hland] at hland₁
  cases hland₁
  obtain ⟨active, todo, hphase, hi, rfl⟩ := Strand.land_spec hland
  obtain ⟨hactive, hstrands, hputs, hverdict, hwiped, hstrict, hcount⟩ := h.writing ho hst hphase
  have hlen : (todo.eraseIdx i).length + 1 = todo.length := by
    have hlt := (List.getElem?_eq_some_iff.mp hi).1
    rw [List.length_eraseIdx_of_lt hlt]
    omega
  refine h.advance _ hwf rfl rfl ho rfl rfl rfl ⟨_, strands_setStrand hstrands _, hputs,
    .writing active _ rfl hactive hverdict hwiped hstrict ?_⟩ ?_
  · simp only [List.length_cons]
    omega
  · intro l k' cell u hcell hu
    rw [layerSet, cells_setCell] at hcell
    split at hcell
    · rename_i hlk
      cases hcell
      cases hu
      exact .inr ⟨rfl, by simp [hlk.1], by simp [hwiped], by simp [hverdict]⟩
    · by_cases hut : u = t
      · subst hut
        have hlanded := (h.cells l k' cell u hcell hu).landed
        exact .inr ⟨rfl, List.mem_cons_of_mem _ hlanded, by simp [hwiped], by simp [hverdict]⟩
      · exact .inl ⟨hut, hcell⟩

theorem Kept.landFail (h : s.Kept cfg) {p : Put K V} (hl : s.store.landing t 0 i = some (o, p))
    (hs : s.store.landFail t 0 i = some store) (degraded : ℕ → Bool) {rejected : ℕ}
    (hrejected : rejected ≤ (s.traces t).rejected + 1)
    (hstrict : cfg.writePolicy = .strict → rejected = 0) :
    (⟨s.clock + 1, store, degraded, s.captures, Function.update s.traces t { s.traces t with
      rejected }⟩ : FaultyStore K V).Kept cfg := by
  have hwf := h.wf.step (.landFail trivial t 0 i hs)
  obtain ⟨st, st', ho, hst, hland⟩ := landing_spec hl
  obtain ⟨o₁, st₁, p₁, st₁', ho₁, hst₁, hland₁, rfl⟩ := Store.landFail_spec hs
  rw [ho] at ho₁
  cases ho₁
  rw [hst] at hst₁
  cases hst₁
  rw [hland] at hland₁
  cases hland₁
  obtain ⟨active, todo, hphase, hi, rfl⟩ := Strand.land_spec hland
  obtain ⟨hactive, hstrands, hputs, hverdict, hwiped, -, hcount⟩ := h.writing ho hst hphase
  have hlen : (todo.eraseIdx i).length + 1 = todo.length := by
    have hlt := (List.getElem?_eq_some_iff.mp hi).1
    rw [List.length_eraseIdx_of_lt hlt]
    omega
  refine h.advance _ hwf rfl rfl ho rfl rfl rfl ⟨_, strands_setStrand hstrands _, hputs,
    .writing active _ rfl hactive hverdict hwiped hstrict ?_⟩ ?_
  · simp only
    omega
  · intro l k' cell u hcell hu
    by_cases hut : u = t
    · subst hut
      have hlanded := (h.cells l k' cell u hcell hu).landed
      exact .inr ⟨rfl, hlanded, by simp [hwiped], by simp [hverdict]⟩
    · exact .inl ⟨hut, hcell⟩

theorem Kept.clean (h : s.Kept cfg) (ho : s.store.orders t = some o)
    (hclean : s.outdated t → (s.traces t).landed = []) (b : ℕ) (r : Removal K)
    (hr : s.store.removals b = some r) (hk : ∃ k ∈ o.keys, r.target.Covers k)
    (hb : o.captured < b) :
    (s.traces t).landed = [] := by
  obtain ⟨k, hk, hcov⟩ := hk
  exact hclean ⟨o, ho, k, hk, (h.wf.knows t o ho k hk).outdated_of_lt hr hcov hb⟩

omit [DecidableEq K] in
theorem inFlight_eq (ho : s.store.orders t = some o) (hst : o.strands = [st]) :
    s.inFlight t = st.inFlight := by
  simp [inFlight, ho, hst]

theorem Kept.rejectLast (h : s.Kept cfg) {p : Put K V}
    (hl : s.store.landing t 0 i = some (o, p)) (hone : (s.inFlight t).length = 1)
    (hends : cfg.writePolicy = .strict ∨ (s.traces t).rejected + 1 = cfg.layers)
    (hclean : cfg.writePolicy = .strict → s.outdated t → (s.traces t).landed = []) :
    (⟨s.clock + 1, s.store.putOrder t { o with
        strands := o.strands.map fun st => { st with phase := .finished false } }, s.degraded,
      s.captures, Function.update s.traces t { s.traces t with
        rejected := (s.traces t).rejected + 1, verdict := some s.clock }⟩ :
      FaultyStore K V).Kept cfg := by
  obtain ⟨st, st', ho, hst, hland⟩ := landing_spec hl
  obtain ⟨active, todo, hphase, hi, -⟩ := Strand.land_spec hland
  obtain ⟨hactive, hstrands, hputs, hverdict, hwiped, hstrict, hcount⟩ := h.writing ho hst hphase
  have hlen : todo.length = 1 := by
    simpa [inFlight_eq ho hstrands, Strand.inFlight, hphase] using hone
  have hnothing : s.outdated t → (s.traces t).landed = [] := by
    rcases hends with hp | hall
    · exact hclean hp
    · intro _
      exact List.length_eq_zero_iff.mp (by omega)
  have horder : { o with strands := o.strands.map fun st => { st with phase := .finished false } } =
      o.setStrand 0 { st with phase := .finished false } := by
    simp [Order.setStrand, hstrands]
  have hmem : st ∈ o.strands := List.mem_of_getElem? hst
  have hok : StrandOk o { st with phase := .finished false } :=
    ⟨(h.wf.strand t o ho st hmem).put_key, by simp, by simp, by simp⟩
  have hwf := (h.wf.setStrand (m := 0) ho hmem (by simp [hphase])
    (by simp [Strand.done, hphase]) hok
    (by simp)).mono
  rw [horder]
  refine h.advance _ hwf rfl rfl ho rfl rfl rfl ⟨_, strands_setStrand hstrands _, hputs,
    .decided s.clock (Nat.lt_succ_self _) rfl (by simp) (by simp) (by simp [Strand.done]) ?_⟩ ?_
  · intro b r hr hk hb _ l hl
    rw [h.clean ho hnothing b r hr hk hb] at hl
    cases hl
  · intro l k' cell u hcell hu
    by_cases hut : u = t
    · subst hut
      have hlanded := (h.cells l k' cell u hcell hu).landed
      refine .inr ⟨rfl, hlanded, by simp [hwiped], ?_⟩
      rintro v b ⟨⟩ ⟨r, hr, -⟩ -
      exact h.wf.removals_lt b r hr
    · exact .inl ⟨hut, hcell⟩

theorem Kept.check (h : s.Kept cfg) (hs : s.store.check t 0 = some store)
    (hstrict : cfg.writePolicy = .strict → (s.traces t).rejected = 0)
    (hsweep : s.outdated t → ∀ l ∈ (s.traces t).landed, l ∈ s.sweep t) :
    (⟨s.clock + 1, store, s.degraded, s.captures, Function.update s.traces t { s.traces t with
      verdict := some s.clock }⟩ : FaultyStore K V).Kept cfg := by
  have hstep : s.store.Step True s.clock store := .check t 0 hs
  have hwf := h.wf.step hstep
  obtain ⟨o, st, st', ho, hst, hcheck, rfl⟩ := Store.check_spec hs
  obtain ⟨active, hphase, hputs', hsweep', hcases⟩ := Strand.check_spec hcheck
  obtain ⟨hactive, hstrands, hputs, hverdict, hwiped, -, -⟩ := h.writing ho hst hphase
  have hswept : s.sweep t = st.sweep := by simp [sweep, ho, hstrands]
  refine h.advance _ hwf rfl rfl ho rfl rfl rfl ⟨st', strands_setStrand hstrands _, hputs' ▸ hputs,
    .decided s.clock (Nat.lt_succ_self _) rfl ?_ ?_ (fun hp hne => absurd (hstrict hp) hne) ?_⟩ ?_
  · rcases hcases with ⟨ok, hok, -⟩ | ⟨-, hw⟩
    · simp [hok]
    · simp [hw]
  · rcases hcases with ⟨ok, hok, -⟩ | ⟨-, hw⟩
    · simp [hok]
    · simp [hw]
  · rintro b r hr ⟨k, hk, hcov⟩ hb _ l hl
    have hk : k ∈ o.keys := hk
    have hout : s.store.epochs.isWriteOutdated k (o.fence k) = true :=
      (h.wf.knows t o ho k hk).outdated_of_lt hr hcov hb
    have hin : l ∈ st.sweep := hswept ▸ hsweep ⟨o, ho, k, hk, hout⟩ l hl
    rcases hcases with ⟨ok, -, hiff, hempty⟩ | ⟨-, hw⟩
    · exfalso
      cases ok with
      | false => simp [hempty rfl] at hin
      | true =>
        have hcurrent := hiff.mp rfl k (hactive k hk)
        rw [hout] at hcurrent
        cases hcurrent
    · exact .inr ⟨_, k, hw, List.mem_flatMap.mpr ⟨k, List.mem_filter.mpr ⟨hactive k hk, hout⟩,
        List.mem_map.mpr ⟨l, hin, rfl⟩⟩⟩
  · intro l k' cell u hcell hu
    by_cases hut : u = t
    · subst hut
      have hlanded := (h.cells l k' cell u hcell hu).landed
      refine .inr ⟨rfl, hlanded, by simp [hwiped], ?_⟩
      rintro v b ⟨⟩ ⟨r, hr, -⟩ -
      exact h.wf.removals_lt b r hr
    · exact .inl ⟨hut, hcell⟩

theorem Kept.wipe (h : s.Kept cfg) (ho : s.store.orders t = some o) (hst : o.strands[0]? = some st)
    (hw : st.wipe i = some ((l, k), st')) (hs : s.store.wipe t 0 i = some store) :
    (⟨s.clock + 1, store, s.degraded, s.captures, Function.update s.traces t { s.traces t with
      wiped := l :: (s.traces t).wiped }⟩ : FaultyStore K V).Kept cfg := by
  have hstep : s.store.Step True s.clock store := .wipe t 0 i hs
  have hwf := h.wf.step hstep
  obtain ⟨o₁, st₁, l₁, k₁, st₁', ho₁, hst₁, hw₁, rfl⟩ := Store.wipe_spec hs
  rw [ho] at ho₁
  cases ho₁
  rw [hst] at hst₁
  cases hst₁
  rw [hw] at hw₁
  cases hw₁
  obtain ⟨todo, hphase, hi, rfl⟩ := Strand.wipe_spec hw
  obtain ⟨⟨k₀, hk⟩, st₁, hstrands, hputs, hcourse⟩ := h.course t o ho
  obtain rfl : st₁ = st := by simpa [hstrands] using hst
  have hkey : ∀ lk ∈ todo, lk.2 = k₀ := by
    intro lk hlk
    have hmem := (h.wf.strand t o ho st₁ (by simp [hstrands])).wiped_key todo hphase lk hlk
    simpa [hk] using hmem
  have hk₀ : k = k₀ := hkey (l, k) (List.mem_of_getElem? hi)
  obtain ⟨v, hv, hverdict, hstrict, hcleaned⟩ : ∃ v < s.clock, (s.traces t).verdict = some v ∧
      (cfg.writePolicy = .strict → (s.traces t).rejected ≠ 0 → st₁.done = true) ∧
      ∀ b r, s.store.removals b = some r → (∃ k ∈ o.keys, r.target.Covers k) →
        o.captured < b → b < v → ∀ l ∈ (s.traces t).landed,
          l ∈ (s.traces t).wiped ∨ ∃ todo k, st₁.phase = .wiping todo ∧ (l, k) ∈ todo := by
    cases hcourse with
    | planned hp | refused hp => simp [hphase] at hp
    | writing active todo hp => simp [hphase] at hp
    | decided v hv hverdict _ _ hstrict hcleaned => exact ⟨v, hv, hverdict, hstrict, hcleaned⟩
  refine h.advance _ hwf rfl rfl ho rfl rfl rfl ⟨_, strands_setStrand hstrands _, hputs,
    .decided v (hv.trans (Nat.lt_succ_self _)) hverdict ?_ ?_ ?_ ?_⟩ ?_
  · simp only
    split <;> simp
  · simp only
    split <;> simp
  · intro hp hne
    have hdone := hstrict hp hne
    simp [Strand.done, hphase] at hdone
  · intro b r hr hcov hb hbv l' hl'
    rcases hcleaned b r hr hcov hb hbv l' hl' with hw | ⟨todo', k', hp, hin⟩
    · exact .inl (List.mem_cons_of_mem _ hw)
    · rw [hphase] at hp
      cases hp
      rcases mem_eraseIdx_or_eq hin hi with hin | he
      · have hne : ¬(todo.eraseIdx i).isEmpty = true := by
          intro hempty
          simp [List.isEmpty_iff.mp hempty] at hin
        exact .inr ⟨_, k', by simp [hne], hin⟩
      · cases he
        exact .inl List.mem_cons_self
  · intro l' k' cell u hcell hu
    rw [layerDelete, cells_setCell] at hcell
    split at hcell
    · cases hcell
    · rename_i hlk
      have hold : s.store.cells l' k' = some cell := hcell
      by_cases hut : u = t
      · subst hut
        obtain ⟨hlanded, hunwiped, hlate⟩ := h.cells l' k' cell u hold hu
        obtain ⟨-, q, hq, hkq⟩ := h.wf.placed l' k' cell u hold hu
        rw [ho] at hq
        cases hq
        have hkk : k' = k := by
          rw [hk, List.mem_singleton] at hkq
          rw [hkq, hk₀]
        refine .inr ⟨rfl, hlanded, ?_, fun v' b hv' hb hcap => hlate v' b o hv' ho hb hcap⟩
        rw [List.mem_cons, not_or]
        exact ⟨fun hl => hlk ⟨hl, hkk⟩, hunwiped⟩
      · exact .inl ⟨hut, hold⟩

theorem Kept.done (h : s.Kept cfg) (ho : s.store.orders t = some o)
    (hdone : o.strands.all Strand.done = true ∨
      (cfg.writePolicy = .strict ∧ (s.traces t).rejected ≠ 0)) :
    o.strands.all Strand.done = true := by
  rcases hdone with hdone | ⟨hp, hne⟩
  · exact hdone
  · obtain ⟨-, st, hst, -, hcourse⟩ := h.course t o ho
    rw [hst]
    simp only [List.all_cons, List.all_nil, Bool.and_true]
    cases hcourse with
    | planned _ htr | refused _ htr => simp [htr, Trace.start] at hne
    | writing active todo _ _ _ _ hstrict => exact absurd (hstrict hp) hne
    | decided v _ _ _ _ hstrict => exact hstrict hp hne

theorem Kept.settle (h : s.Kept cfg) {chain : TailChain.Chain K} (ho : s.store.orders t = some o)
    (hchain : s.store.chain.settle t = some chain)
    (hdone : o.strands.all Strand.done = true ∨
      (cfg.writePolicy = .strict ∧ (s.traces t).rejected ≠ 0)) :
    (⟨s.clock + 1, { s.store with chain }, s.degraded, s.captures, s.traces⟩ :
      FaultyStore K V).Kept cfg := by
  have hstep : s.store.Step True s.clock { s.store with chain } :=
    .settle t (by simpa [Store.settle, ho, hchain] using h.done ho hdone)
  exact h.of_same (h.wf.step hstep) rfl rfl rfl (h.captures_step hstep)

theorem Kept.invalidate (h : s.Kept cfg) (target : Target K) (layers : List ℕ) :
    (⟨s.clock + 1, s.store.bump s.clock target layers, s.degraded, s.captures, s.traces⟩ :
      FaultyStore K V).Kept cfg := by
  have hstep : s.store.Step True s.clock (s.store.bump s.clock target layers) := .bump target layers
  have hold : ∀ b r, b ≠ s.clock → (s.store.bump s.clock target layers).removals b = some r →
      s.store.removals b = some r := by
    intro b r hb hr
    simpa [Store.bump, hb] using hr
  refine ⟨h.wf.step hstep, h.captures_step hstep, ?_, ?_⟩
  · intro u q hq
    obtain ⟨hsingle, st, hst, hputs, hcourse⟩ := h.course u q hq
    refine ⟨hsingle, st, hst, hputs, (hcourse.of_removals ?_).mono (Nat.le_succ _)⟩
    intro b r hb hr
    exact ⟨r, hold b r (Nat.ne_of_lt hb) hr, rfl⟩
  · intro l k cell u hcell hu
    obtain ⟨hlanded, hunwiped, hlate⟩ := h.cells l k cell u hcell hu
    refine ⟨hlanded, hunwiped, ?_⟩
    rintro v b q hv hq ⟨r, hr, hcov, hpending⟩ hcap
    by_cases hb : b = s.clock
    · subst hb
      simp only [Store.bump, Function.update_self, Option.mem_def, Option.some.injEq] at hr
      subst hr
      exact absurd (Removal.pending_new hcov) hpending
    · exact hlate v b q hv hq ⟨r, hold b r hb hr, hcov, hpending⟩ hcap

theorem Kept.erase (h : s.Kept cfg) (hs : s.store.erase b i = some store) :
    (⟨s.clock + 1, store, s.degraded, s.captures, s.traces⟩ : FaultyStore K V).Kept cfg := by
  have hstep : s.store.Step False s.clock store := .erase b i hs
  have hcells : ∀ l k cell, store.cells l k = some cell → s.store.cells l k = some cell :=
    fun l k cell hc => Store.erase_cells hs hc
  obtain ⟨r₀, hr₀, todo, hrem, horders⟩ : ∃ r₀, s.store.removals b = some r₀ ∧ ∃ todo,
      store.removals = Function.update s.store.removals b (some { r₀ with todo }) ∧
      store.orders = s.store.orders := by
    obtain ⟨r₀, l₀, hr₀, ⟨k₀, -, rfl⟩ | ⟨-, rfl⟩⟩ := Store.erase_spec hs
    · exact ⟨r₀, hr₀, _, rfl, rfl⟩
    · exact ⟨r₀, hr₀, _, rfl, rfl⟩
  have hback : ∀ b' r', store.removals b' = some r' → ∃ r, s.store.removals b' = some r ∧
      r'.target = r.target ∧ r'.layers = r.layers := by
    intro b' r' hr'
    rw [hrem] at hr'
    by_cases hb : b' = b
    · subst hb
      simp only [Function.update_self, Option.some.injEq] at hr'
      subst hr'
      exact ⟨r₀, hr₀, rfl, rfl⟩
    · rw [Function.update_of_ne hb] at hr'
      exact ⟨r', hr', rfl, rfl⟩
  refine ⟨h.wf.step hstep, h.captures_step (.erase b i hs), ?_, ?_⟩
  · intro u q hq
    obtain ⟨hsingle, st, hst, hputs, hcourse⟩ := h.course u q (horders ▸ hq)
    refine ⟨hsingle, st, hst, hputs, (hcourse.of_removals ?_).mono (Nat.le_succ _)⟩
    intro b' r' _ hr'
    obtain ⟨r, hr, htarget, -⟩ := hback b' r' hr'
    exact ⟨r, hr, htarget⟩
  · intro l k cell u hcell hu
    obtain ⟨hlanded, hunwiped, hlate⟩ := h.cells l k cell u (hcells l k cell hcell) hu
    refine ⟨hlanded, hunwiped, ?_⟩
    rintro v b' q hv hq ⟨r', hr', hcov, hpending⟩ hcap
    obtain ⟨r, hr, htarget, hlayers⟩ := hback b' r' hr'
    refine hlate v b' q hv (horders ▸ hq) ⟨r, hr, ?_, fun hp => ?_⟩ hcap
    · simpa [Removal.Covers, htarget, hlayers] using hcov
    · rw [hstep.erased h.wf hr hr' hp hpending] at hcell
      cases hcell

theorem Kept.step (h : s.Kept cfg) {a : FaultyAction K V} (hharmless : Harmless cfg s a)
    (hstep : s.step cfg a = some s') : s'.Kept cfg := by
  obtain ⟨s₁, hact, rfl⟩ := step_spec hstep
  cases a with
  | capture key =>
    cases hact
    exact h.capture key
  | set c payload =>
    obtain ⟨key, fence, hc, rfl⟩ := set_spec hact
    exact h.set hc payload
  | start t =>
    obtain ⟨store, hs, rfl⟩ := start_spec hact
    exact h.start hs
  | land t i =>
    obtain ⟨o, p, store, hl, hs, rfl⟩ := land_spec hact
    exact h.land hl hs
  | reject t i =>
    obtain ⟨o, p, store, hl, hs, ⟨hg, rfl⟩ | ⟨hg, hone, hends, rfl⟩ | ⟨hg, hnot, rfl⟩⟩ :=
      reject_spec hact
    · obtain ⟨st, st', ho, hst, hland⟩ := landing_spec hl
      obtain ⟨active, todo, hphase, -, -⟩ := Strand.land_spec hland
      obtain ⟨-, -, -, -, -, hstrict, -⟩ := h.writing ho hst hphase
      have hnext := h.landFail hl hs (Function.update s.degraded p.layer true)
        (Nat.le_succ _) hstrict
      simpa using hnext
    · exact h.rejectLast hl hone hends fun hp => (hharmless hg hp).2
    · refine h.landFail hl hs s.degraded le_rfl fun hp => ?_
      exact absurd ⟨(hharmless hg hp).1, .inl hp⟩ hnot
  | check t =>
    obtain ⟨store, hs, hstrict, rfl⟩ := check_spec hact
    exact h.check hs hstrict hharmless
  | wipe t i =>
    obtain ⟨o, st, l, k, st', store, ho, hst, hw, hs, rfl⟩ := wipe_spec hact
    exact h.wipe ho hst hw hs
  | settle t =>
    obtain ⟨o, chain, ho, hchain, hdone, rfl⟩ := settle_spec hact
    exact h.settle ho hchain hdone
  | invalidate target =>
    cases hact
    exact h.invalidate target _
  | erase b i =>
    obtain ⟨store, hs, rfl⟩ := erase_spec hact
    exact h.erase hs
  | recover l =>
    cases hact
    exact h.of_same h.wf.mono rfl rfl rfl fun c k f hc =>
      (h.captures c k f hc).imp_left fun hlt => hlt.trans (Nat.lt_succ_self _)

theorem kept_initial (cfg : WriteConfig) (now : Millis)
    (contents : ℕ → K → Option (Stored V × Option Millis)) : (initial now contents).Kept cfg where
  wf := wf_initial now contents
  captures := by simp [initial]
  course := by simp [initial, Store.initial]
  cells := by
    intro l k cell t hc ht
    obtain ⟨x, -, rfl⟩ := Option.map_eq_some_iff.mp hc
    cases ht

/-- While a write is at work on a key, the key's cells stem from no later write. -/
theorem le_of_busyOn {c : Store K V} {n u : ℕ} {cell : Cell V} (h : c.Wf n) (hb : c.BusyOn t k)
    (hcell : c.cells l k = some cell) (hu : cell.writer = some u) : u ≤ t := by
  obtain ⟨⟨tk, htk, hstarted⟩, q, hq, hkq⟩ := h.placed l k cell u hcell hu
  obtain ⟨o, st, ho, hst, hbusy⟩ := hb
  obtain ⟨hphase, hdone, hk⟩ : st.phase ≠ .planned ∧ st.done = false ∧ k ∈ o.keys := by
    have hok := h.strand t o ho st hst
    rcases hbusy with ⟨active, todo, hp, hk⟩ | ⟨todo, l', hp, hk⟩
    · exact ⟨by simp [hp], by simp [Strand.done, hp], hok.active_key active todo hp k hk⟩
    · exact ⟨by simp [hp], by simp [Strand.done, hp], hok.wiped_key todo hp (l', k) hk⟩
  obtain ⟨tk', htk', hrunning⟩ := h.running ho hst hphase hdone
  by_contra hlt
  have hopen : c.chain.Open t k := ⟨tk', htk'.get, (htk'.keys k).mpr hk, by simp [hrunning]⟩
  obtain ⟨tk'', htk''⟩ := h.ticket u q hq
  have hget := htk''.get
  rw [htk] at hget
  cases hget
  exact hstarted (h.chain.queued_behind hopen (not_le.mp hlt) htk ((htk''.keys k).mpr hkq))

theorem busyOn_of_changed {c c' : Store K V} {n : ℕ} (h : c.Wf n)
    (hs : c.land t 0 i = some c' ∨ c.wipe t 0 i = some c') (hne : c'.cells l k ≠ c.cells l k) :
    c.BusyOn t k := by
  rcases hs with hs | hs
  · obtain ⟨o, st, p, st', ho, hst, hland, rfl⟩ := Store.land_spec hs
    obtain ⟨active, todo, hphase, hi, -⟩ := Strand.land_spec hland
    have hmem := List.mem_of_getElem? hst
    have hkey := ((h.strand t o ho st hmem).todo_put active todo hphase p
      (List.mem_of_getElem? hi)).2
    rw [layerSet, cells_setCell] at hne
    split at hne
    · rename_i hlk
      exact ⟨o, st, ho, hmem, .inl ⟨active, todo, hphase, hlk.2 ▸ hkey⟩⟩
    · exact absurd rfl hne
  · obtain ⟨o, st, l₀, k₀, st', ho, hst, hw, rfl⟩ := Store.wipe_spec hs
    obtain ⟨todo, hphase, hi, -⟩ := Strand.wipe_spec hw
    rw [layerDelete, cells_setCell] at hne
    split at hne
    · rename_i hlk
      obtain ⟨rfl, rfl⟩ := hlk
      exact ⟨o, st, ho, List.mem_of_getElem? hst, .inr ⟨todo, l, hphase, List.mem_of_getElem? hi⟩⟩
    · exact absurd rfl hne

/-- Once a write is through, nothing of it is under way, and it has wiped what it wrote if its fence
had moved. -/
theorem Kept.settled (h : s.Kept cfg) (ho : s.store.orders t = some o)
    (hsettled : s.store.chain.settledAt t = true) : s.inFlight t = [] ∧
      ∀ l ∈ (s.traces t).landed, ∃ v, (s.traces t).verdict = some v ∧
        ∀ b r, s.store.removals b = some r → (∃ k ∈ o.keys, r.target.Covers k) →
          o.captured < b → b < v → l ∈ (s.traces t).wiped := by
  obtain ⟨-, st, hst, -, hcourse⟩ := h.course t o ho
  have hdone : st.done = true := by
    obtain ⟨tk, htk⟩ := h.wf.ticket t o ho
    have hphase : tk.phase = .settled := by
      simpa [TailChain.Chain.settledAt, htk.get] using hsettled
    exact htk.done hphase st (by simp [hst])
  obtain ⟨ok, hphase⟩ : ∃ ok, st.phase = .finished ok := by
    unfold Strand.done at hdone
    split at hdone
    · exact ⟨_, ‹_›⟩
    · cases hdone
  refine ⟨by simp [inFlight_eq ho hst, Strand.inFlight, hphase], ?_⟩
  intro l hl
  cases hcourse with
  | planned _ htr | refused _ htr => simp [htr, Trace.start] at hl
  | writing active todo hw => simp [hphase] at hw
  | decided v hv hverdict _ _ _ hcleaned =>
    refine ⟨v, hverdict, fun b r hr hk hcap hb => ?_⟩
    rcases hcleaned b r hr hk hcap hb l hl with hw | ⟨todo, k, hw, -⟩
    · exact hw
    · simp [hphase] at hw

/-- When the slot of a write is released, none of its layer operations is under way, and every layer
that it wrote has been wiped if its fence had moved when its outcome was decided. So it touches
nothing that a later write has placed, and nothing of it is left where a later deletion has been. -/
theorem failedWrite_keeps_fence {now : Millis}
    {contents : ℕ → K → Option (Stored V × Option Millis)}
    (hrun : Reaches (step cfg) (Harmless cfg) (initial now contents) s) :
    (∀ t o, s.store.orders t = some o → s.store.chain.settledAt t = true → s.inFlight t = [] ∧
      ∀ l ∈ (s.traces t).landed, ∃ v, (s.traces t).verdict = some v ∧
        ∀ b r, s.store.removals b = some r → (∃ k ∈ o.keys, r.target.Covers k) →
          o.captured < b → b < v → l ∈ (s.traces t).wiped) ∧
    (∀ t i s', s.step cfg (.land t i) = some s' ∨ s.step cfg (.wipe t i) = some s' →
      ∀ l k cell u, s.store.cells l k = some cell → s'.store.cells l k ≠ some cell →
        cell.writer = some u → u ≤ t) ∧
    ∀ b l k cell t o, s.store.Reached b l k → s.store.cells l k = some cell →
      cell.writer = some t → s.store.orders t = some o → s.store.chain.settledAt t = true →
        b ≤ o.captured := by
  have h : s.Kept cfg := Reaches.invariant hrun (fun s a s' hs hok hstep => hs.step hok hstep)
    (kept_initial cfg now contents)
  refine ⟨fun t o => h.settled, ?_, ?_⟩
  · intro t i s' hstep l k cell u hcell hne hu
    have hs : s.store.land t 0 i = some s'.store ∨ s.store.wipe t 0 i = some s'.store := by
      rcases hstep with hstep | hstep
      · obtain ⟨s₁, hact, rfl⟩ := step_spec hstep
        obtain ⟨o, p, store, -, hs, rfl⟩ := land_spec hact
        exact .inl hs
      · obtain ⟨s₁, hact, rfl⟩ := step_spec hstep
        obtain ⟨o, st, l, k, st', store, -, -, -, hs, rfl⟩ := wipe_spec hact
        exact .inr hs
    exact le_of_busyOn h.wf (busyOn_of_changed h.wf hs (hcell ▸ hne)) hcell hu
  · intro b l k cell t o hreached hcell ht ho hsettled
    by_contra hlt
    obtain ⟨hlanded, hunwiped, hlate⟩ := h.cells l k cell t hcell ht
    obtain ⟨v, hverdict, hwiped⟩ := (h.settled ho hsettled).2 l hlanded
    have hb := hlate v b o hverdict ho hreached (not_le.mp hlt)
    obtain ⟨-, q, hq, hk⟩ := h.wf.placed l k cell t hcell ht
    rw [ho] at hq
    cases hq
    obtain ⟨r, hr, hcov, -⟩ := hreached
    exact hunwiped (hwiped b r hr ⟨k, hk, hcov.2⟩ (not_le.mp hlt) hb)

def bestEffort : WriteConfig := ⟨2, .bestEffort, false⟩

/-- A deletion between the answers of the two layers, the second of which rejects. -/
def rejectionAfterDelete : List (FaultyAction ℕ ℕ) :=
  [.capture 0, .set 1 fun _ => (.plain 7, none), .start 2, .land 2 0, .invalidate (.keys [0]),
    .reject 2 0, .check 2, .wipe 2 0, .wipe 2 0, .settle 2]

theorem failedWrite_keeps_fence_at_rejectionAfterDelete :
    ∃ s ∈ run (step bestEffort) (initial 0 fun _ _ => none) rejectionAfterDelete,
      s.inFlight 2 = [] ∧ ∀ l ∈ (s.traces 2).landed, ∃ v, (s.traces 2).verdict = some v ∧
        ∀ b r, s.store.removals b = some r → r.target.Covers 0 → 1 < b → b < v →
          l ∈ (s.traces 2).wiped := by
  obtain ⟨s, hs, hsettled, o, ho, hkeys, hcaptured⟩ :
      ∃ s ∈ run (step bestEffort) (initial 0 fun _ _ => none) rejectionAfterDelete,
        s.store.chain.settledAt 2 = true ∧
          ∃ o ∈ s.store.orders 2, o.keys = [0] ∧ o.captured = 1 := by
    decide +kernel
  have hrun := reaches_of_run (Harmless bestEffort) hs (by decide +kernel)
  obtain ⟨hflight, hwiped⟩ := (failedWrite_keeps_fence hrun).1 2 o ho hsettled
  refine ⟨s, hs, hflight, fun l hl => ?_⟩
  obtain ⟨v, hv, hclean⟩ := hwiped l hl
  refine ⟨v, hv, fun b r hr hcov hb => hclean b r hr ⟨0, by simp [hkeys], hcov⟩ (by omega)⟩

def strictWrites : WriteConfig := ⟨2, .strict, false⟩

/-- The first layer rejects at once, the second one takes its time, and a second set goes through
meanwhile. -/
def rejectionBeforeSet : List (FaultyAction ℕ ℕ) :=
  [.capture 0, .set 1 fun _ => (.plain 7, none), .start 2, .reject 2 0, .settle 2, .capture 0,
    .set 6 fun _ => (.plain 8, none), .start 7, .land 7 0, .land 7 0, .check 7, .settle 7]

theorem failedWrite_overwrites_laterWrite :
    ∃ s ∈ run (step strictWrites) (initial 0 fun _ _ => none) rejectionBeforeSet,
      s.store.chain.settledAt 2 = true ∧ s.inFlight 2 = [1] ∧
      ∃ s' ∈ s.step strictWrites (.land 2 0),
        (s.store.cells 1 0).map (·.writer) = some (some 7) ∧
        (s'.store.cells 1 0).map (·.writer) = some (some 2) := by
  decide +kernel

end FaultyStore

end LayerCache
