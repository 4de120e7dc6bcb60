import LayerCache.Layered.Read
import LayerCache.StoredValue.Deadlines
import LayerCache.StoredValue.RoundTrip
import LayerCache.Transition.Run

/-! # How long a layer serves an entry as fresh

A write gives each layer an envelope of its own, with the TTL that was resolved for that layer. A
backfill copies the envelope that another layer was given; what the write resolved for the layer it
goes to does not come along, and the TTL of that layer counts only for entries without deadlines.
The layers keep to the TTLs resolved for them in runs whose backfills copy nothing that stays fresh
beyond them.
-/

namespace LayerCache.Layered

open Ttl Transition

variable {K V : Type}

/-- Once placed, the layer answers with the entry as fresh for no longer than its own TTL. Without
a positive TTL there is no limit. -/
def Slot.Capped (slot : Slot V) : Prop :=
  ∀ t stored, slot.placedAt ≤ t → (Slot.getEntry t (some slot)).1 = some stored →
    (resolveStoredValue t stored t).state = .fresh →
    ∀ ttl ∈ slot.freshTtl, 0 < ttl → t ≤ slot.placedAt + ttl

def freshUntil (clock : Millis) : Stored V → Option Millis
  | .plain _ => none
  | .envelope e => if isStoredValueEnvelope clock (.envelope e) then e.freshUntil else none

/-- The turn of one layer in a write. A layer that is written behind has it late, and a batch builds
its entries before. `drawn` says how many numbers have been drawn when the entry of a layer is
built. -/
structure WriteTurn (K V : Type*) where
  env : Circumstances K
  layer : ℕ
  request : WriteRequest K V
  drawn : ℕ → ℕ
  placed : Millis

structure BackfillTurn (K : Type*) where
  source : ℕ
  layer : ℕ
  key : K
  ttl : Option LayerNumber
  asked : Millis
  planned : Millis
  filled : Millis

/-- A `backfill` is one that a read of a fetch makes, which passes entries that are not fresh. -/
inductive Action (K V : Type*)
  | write (turn : WriteTurn K V)
  | read (m : Moments) (k : K) (ttl : Option LayerNumber)
  | backfill (turn : BackfillTurn K)
  | degrade (degraded : ℕ → Bool)

def WriteTurn.entry (cfg : StackConfiguration) (turn : WriteTurn K V) (l : ℕ) (layer : Layer) :
    LayerSetEntry K V :=
  (Ttl.buildLayerSetEntry cfg turn.env l layer.toCacheLayer turn.request (turn.drawn l)).1

/-- The fresh TTLs that the write resolves for the layers. -/
def WriteTurn.resolved (cfg : StackConfiguration) (turn : WriteTurn K V) (layers : List Layer) :
    List (Option Millis) :=
  layers.mapIdx fun l layer => (turn.entry cfg l layer).value.freshTtlMs

namespace LayeredStack

variable [DecidableEq K]

def step (cfg : StackConfiguration) (s : LayeredStack K V) : Action K V → Option (LayeredStack K V)
  | .write turn =>
    (s.layers[turn.layer]?).bind fun layer =>
      if turn.env.now ≤ turn.placed ∧ turn.env.clock turn.layer ≤ turn.placed ∧
          s.degraded turn.layer = false then
        some (s.setSlot turn.layer turn.request.key
          (some (layer.writeSlot turn.placed (turn.entry cfg turn.layer layer)
            (turn.resolved cfg s.layers))))
      else none
  | .read m k ttl =>
    if ∀ l < s.layers.length, m.planned ≤ m.filled l then some (s.getPrepared m k ttl).2 else none
  | .backfill turn =>
    (s.layers[turn.layer]?).bind fun layer =>
      (s.answer turn.asked turn.source turn.key).bind fun stored =>
        if turn.planned ≤ turn.filled ∧ s.degraded turn.layer = false then
          some (s.setSlot turn.layer turn.key
            (some (layer.backfillSlot turn.planned turn.filled stored turn.ttl turn.layer
              (s.resolved turn.source turn.key))))
        else none
  | .degrade degraded => some { s with degraded }

end LayeredStack

/-- The entry is fresh for no longer than the TTL of the layer from now on. If it has no end of its
own, the layer ends it in time. -/
def Layer.AdmitsCopy (layer : Layer) (filled : Millis) (stored : Stored V)
    (ttl : Option LayerNumber) (l : ℕ) (resolved : List (Option Millis)) : Prop :=
  ∀ own ∈ layer.copiedTtl ttl l resolved, 0 < own →
    match freshUntil filled stored with
    | some f => f ≤ filled + own
    | none => ∃ fallback ∈ layer.fallbackTtl ttl, 0 < fallback ∧
        layer.kind.keepsUntil filled fallback ≤ filled + own

/-- The envelope is one that readers recognise, or the layer does not round its TTL up. -/
def Layer.AdmitsWrite (layer : Layer) (placed : Millis) (e : StoredValueEnvelope V) : Prop :=
  ∀ own ∈ e.freshTtlMs, isStoredValueEnvelope placed (.envelope e) = true ∨
    layer.kind.keepsUntil placed own = placed + own

def Admits (cfg : StackConfiguration) (s : LayeredStack K V) : Action K V → Prop
  | .write turn => ∀ layer ∈ s.layers[turn.layer]?,
      layer.AdmitsWrite turn.placed (turn.entry cfg turn.layer layer).value
  | .read m k ttl => ∀ l stored, s.FirstLive m k l stored → ∀ l' < l, s.degraded l' = false →
      ∀ layer ∈ s.layers[l']?, layer.AdmitsCopy (m.filled l') stored ttl l' (s.resolved l k)
  | .backfill turn => ∀ layer ∈ s.layers[turn.layer]?,
      ∀ stored ∈ s.answer turn.asked turn.source turn.key,
        layer.AdmitsCopy turn.filled stored turn.ttl turn.layer (s.resolved turn.source turn.key)
  | .degrade _ => True

variable {slot : Slot V} {stored : Stored V} {e : StoredValueEnvelope V}
  {t f own planned filled placed : Millis}

theorem lt_of_fresh (h : isStoredValueEnvelope t (.envelope e) = true) (hf : e.freshUntil = some f)
    (hfresh : (resolveStoredValue t (.envelope e) t).state = .fresh) : t < f := by
  by_contra hle
  have hpast : ¬ (e.freshUntil = none ∨ Ahead e.freshUntil t) := by
    rintro (hnone | ⟨d, hd, hlt⟩)
    · rw [hf] at hnone
      cases hnone
    · rw [hf] at hd
      obtain rfl := Option.some.inj hd
      exact hle hlt
  rw [resolveStoredValue, if_neg (by simp [h]), if_neg hpast] at hfresh
  split_ifs at hfresh

theorem freshUntil_eq_some_iff : freshUntil t stored = some f ↔
    ∃ e, stored = .envelope e ∧ isStoredValueEnvelope t (.envelope e) = true ∧
      e.freshUntil = some f := by
  cases stored with
  | plain v => simp [freshUntil]
  | envelope e => simp [freshUntil]

theorem Slot.capped_of_bounded (hpayload : slot.payload = .stored stored)
    (h : ∀ own ∈ slot.freshTtl, 0 < own →
      (∃ f ∈ freshUntil slot.placedAt stored, f ≤ slot.placedAt + own) ∨
        ∃ x ∈ slot.expiresAt, x ≤ slot.placedAt + own) : slot.Capped := by
  intro t answered hplaced hanswer hfresh own hown hpos
  have hopen : slot.isExpired t = false := by
    by_contra hexpired
    rw [Bool.not_eq_false] at hexpired
    simp [Slot.getEntry, hexpired] at hanswer
  obtain rfl : stored = answered := by
    simpa [Slot.getEntry, hopen, hpayload] using hanswer
  rcases h own hown hpos with ⟨f, hf, hle⟩ | ⟨x, hx, hle⟩
  · obtain ⟨e, rfl, henv, hf⟩ := freshUntil_eq_some_iff.mp hf
    exact (lt_of_fresh (isStoredValueEnvelope_mono hplaced henv) hf hfresh).le.trans hle
  · have hlt : t < x := by
      rw [Option.mem_def] at hx
      simpa [Slot.isExpired, hx] using hopen
    exact hlt.le.trans hle

theorem remainingStoredTtlMs_of_no_end (hle : planned ≤ filled)
    (h : freshUntil filled stored = none) :
    remainingStoredTtlMs planned stored planned = none := by
  cases stored with
  | plain v => rfl
  | envelope e =>
    by_cases henv : isStoredValueEnvelope planned (.envelope e) = true
    · have hfresh : e.freshUntil = none := by
        simpa [freshUntil, isStoredValueEnvelope_mono hle henv] using h
      obtain ⟨hs, he⟩ := (isStoredValueEnvelope_iff.mp henv).baseline hfresh
      rw [remainingStoredTtlMs, if_pos henv, maxExpiry, hfresh, hs, he]
      rfl
    · simp [remainingStoredTtlMs, henv]

theorem Layer.capped_backfillSlot {layer : Layer} {ttl : Option LayerNumber} {l : ℕ}
    {resolved : List (Option Millis)} (hle : planned ≤ filled)
    (h : layer.AdmitsCopy filled stored ttl l resolved) :
    (layer.backfillSlot planned filled stored ttl l resolved).Capped := by
  refine Slot.capped_of_bounded rfl fun own hown hpos => ?_
  have hadmits := h own hown hpos
  cases hend : freshUntil filled stored with
  | some f =>
    rw [hend] at hadmits
    exact .inl ⟨f, hend, hadmits⟩
  | none =>
    rw [hend] at hadmits
    obtain ⟨fallback, hfallback, hpos', hends⟩ := hadmits
    refine .inr ⟨layer.kind.keepsUntil filled fallback, ?_, hends⟩
    rw [Option.mem_def] at hfallback
    simp [Layer.backfillSlot, remainingStoredTtlMs_of_no_end hle hend, hfallback, Layer.expiresAt,
      hpos']

theorem exists_freshTtl (cfg : StackConfiguration) (turn : WriteTurn K V) (l : ℕ) (layer : Layer) :
    ∃ fresh, (turn.entry cfg l layer).value.freshTtlMs = normalizePositiveMs fresh ∧
      (turn.entry cfg l layer).value.freshUntil =
        (normalizePositiveMs fresh).map (turn.env.now + ·) ∧
      (turn.entry cfg l layer).ttl = (remainingStoredTtlMs (turn.env.clock l)
        (.envelope (turn.entry cfg l layer).value) turn.env.now).or fresh :=
  ⟨_, rfl, rfl, rfl⟩

theorem eq_of_normalizePositiveMs {ttl : Option Millis} (h : normalizePositiveMs ttl = some own) :
    ttl = some own := by
  cases ttl with
  | none => cases h
  | some ttl =>
    rw [normalizePositiveMs] at h
    split_ifs at h
    exact h

theorem capped_writeSlot {cfg : StackConfiguration} {turn : WriteTurn K V} {layer : Layer}
    {resolved : List (Option Millis)} (hnow : turn.env.now ≤ turn.placed)
    (hclock : turn.env.clock turn.layer ≤ turn.placed)
    (h : layer.AdmitsWrite turn.placed (turn.entry cfg turn.layer layer).value) :
    (layer.writeSlot turn.placed (turn.entry cfg turn.layer layer) resolved).Capped := by
  obtain ⟨fresh, httl, huntil, hlayer⟩ := exists_freshTtl cfg turn turn.layer layer
  refine Slot.capped_of_bounded rfl fun own hown hpos => ?_
  have hfresh : normalizePositiveMs fresh = some own := httl.symm.trans hown
  by_cases henv : isStoredValueEnvelope turn.placed
      (.envelope (turn.entry cfg turn.layer layer).value) = true
  · refine .inl ⟨turn.env.now + own, ?_, by simpa [Layer.writeSlot] using hnow⟩
    rw [hfresh, Option.map_some] at huntil
    exact freshUntil_eq_some_iff.mpr ⟨_, rfl, henv, huntil⟩
  · have hkeeps := (h own hown).resolve_left henv
    have hclock' : isStoredValueEnvelope (turn.env.clock turn.layer)
        (.envelope (turn.entry cfg turn.layer layer).value) ≠ true :=
      fun hearly => henv (isStoredValueEnvelope_mono hclock hearly)
    rw [remainingStoredTtlMs, if_neg hclock', Option.none_or,
      eq_of_normalizePositiveMs hfresh] at hlayer
    refine .inr ⟨layer.kind.keepsUntil turn.placed own, ?_, hkeeps.le⟩
    simp [Layer.writeSlot, hlayer, Layer.expiresAt, hpos]

namespace LayeredStack

/-- No layer answers with an entry as fresh for longer than its own TTL after it was placed. -/
def Capped (s : LayeredStack K V) : Prop :=
  ∀ l k slot, s.slots l k = some slot → slot.Capped

variable [DecidableEq K] {cfg : StackConfiguration} {s s' : LayeredStack K V} {m : Moments}
  {k : K} {l : ℕ} {ttl : Option LayerNumber}

theorem Capped.setSlot (h : s.Capped) {slot : Option (Slot V)}
    (hslot : ∀ x, slot = some x → x.Capped) : (s.setSlot l k slot).Capped := by
  intro l' k' x hx
  simp only [LayeredStack.setSlot] at hx
  split at hx
  · exact hslot x hx
  · exact h l' k' x hx

/-- What a layer answers with it keeps, and else it keeps nothing new. -/
theorem getEntry_slot {now : Millis} {slot x : Slot V}
    (h : (Slot.getEntry now (some slot)).2 = some x) : x = slot := by
  simp only [Slot.getEntry] at h
  split at h
  · cases h
  · split at h <;> simp_all

theorem Capped.pass (h : s.Capped) (l : ℕ) : (LayeredStack.pass m k s l).Capped := by
  unfold LayeredStack.pass
  split
  · exact h
  · refine h.setSlot fun x hx => ?_
    split at hx
    · cases hx
    · cases hslot : s.slots l k with
      | none =>
        rw [hslot] at hx
        cases hx
      | some slot =>
        rw [hslot] at hx
        obtain rfl := getEntry_slot hx
        exact h l k x hslot

theorem Capped.foldl_pass (h : s.Capped) (passed : List ℕ) :
    (passed.foldl (LayeredStack.pass m k) s).Capped := by
  induction passed generalizing s with
  | nil => exact h
  | cons l passed ih => exact ih (h.pass l)

theorem Capped.backfill (h : s.Capped) {index : ℕ}
    (hcopy : ∀ l < index, s.degraded l = false → ∀ layer ∈ s.layers[l]?,
      (layer.backfillSlot m.planned (m.filled l) stored ttl l (s.resolved index k)).Capped) :
    (s.backfill m k stored index ttl).Capped := by
  intro l' k' x hx
  simp only [LayeredStack.backfill] at hx
  split at hx
  · exact h l' k' x hx
  · rename_i layer hlayer
    split at hx
    · rename_i hcond
      obtain rfl := Option.some.inj hx
      exact hcopy l' hcond.2.1 (by simpa using hcond.2.2) layer hlayer
    · exact h l' k' x hx

theorem Capped.getPrepared (h : s.Capped) (htimes : ∀ l < s.layers.length, m.planned ≤ m.filled l)
    (hadmits : Admits cfg s (.read m k ttl)) : (s.getPrepared m k ttl).2.Capped := by
  by_cases hlive : ∃ l < s.layers.length, s.live (m.asked l) l k ≠ none
  · obtain ⟨l, stored, hfirst⟩ := exists_firstLive hlive
    rw [LayeredStack.getPrepared, readFromLayers_of_firstLive hfirst]
    refine (h.foldl_pass (List.range l)).backfill fun l' hl' hd layer hlayer => ?_
    rw [degraded_foldl_pass] at hd
    rw [layers_foldl_pass] at hlayer
    rw [resolved, slots_foldl_pass (.inr (.inl (by simp)))]
    exact Layer.capped_backfillSlot (htimes l' (hl'.trans hfirst.lt))
      (hadmits l stored hfirst l' hl' hd layer hlayer)
  · push Not at hlive
    rw [LayeredStack.getPrepared, readFromLayers_of_no_live hlive]
    exact h.foldl_pass _

theorem capped_step (a : Action K V) (h : s.Capped) (hadmits : Admits cfg s a)
    (hstep : s.step cfg a = some s') : s'.Capped := by
  cases a with
  | write turn =>
    obtain ⟨layer, hlayer, hstep⟩ := Option.bind_eq_some_iff.mp hstep
    split_ifs at hstep with hguard
    obtain rfl := Option.some.inj hstep
    refine h.setSlot fun x hx => ?_
    obtain rfl := Option.some.inj hx
    exact capped_writeSlot hguard.1 hguard.2.1 (hadmits layer hlayer)
  | read m k ttl =>
    simp only [step] at hstep
    split_ifs at hstep with hguard
    obtain rfl := Option.some.inj hstep
    exact h.getPrepared hguard hadmits
  | backfill turn =>
    obtain ⟨layer, hlayer, hstep⟩ := Option.bind_eq_some_iff.mp hstep
    obtain ⟨stored, hstored, hstep⟩ := Option.bind_eq_some_iff.mp hstep
    split_ifs at hstep with hguard
    obtain rfl := Option.some.inj hstep
    refine h.setSlot fun x hx => ?_
    obtain rfl := Option.some.inj hx
    exact Layer.capped_backfillSlot hguard.1 (hadmits layer hlayer stored hstored)
  | degrade degraded =>
    obtain rfl := Option.some.inj hstep
    exact h

/-- In a run whose writes and backfills are admitted the layers keep to their own TTLs. -/
theorem capped_of_reaches (h : Reaches (step cfg) (Admits cfg) s s') (hs : s.Capped) :
    s'.Capped :=
  h.invariant (fun _ a _ hcapped hadmits hstep => capped_step a hcapped hadmits hstep) hs

def redisLayer : Layer := ⟨⟨"redis", some 60000⟩, .redis⟩

def memoryLayer (ttl : Millis) : Layer := ⟨⟨"memory", some ttl⟩, .memory⟩

def tiered (memoryTtl : Millis) : LayeredStack String String where
  layers := [memoryLayer memoryTtl, redisLayer]
  degraded _ := false
  slots _ _ := none

def tieredConfiguration (memoryTtl : Millis) : StackConfiguration where
  layers := (tiered memoryTtl).layers.map Layer.toCacheLayer
  options := ⟨none, none, none, none, none⟩
  layers_ne := by simp [tiered]
  valid := rfl

/-- A set without options at the instant zero, as it gets to one layer. -/
def setTurn (l : ℕ) : WriteTurn String String where
  env :=
    { hits := fun _ => none
      now := 0
      clock := fun _ => 0
      random := fun _ => ⟨0, zero_mem_unitInterval⟩
      nextMidnight := fun now => now
      nextHour := fun now => now }
  layer := l
  request := ⟨"k", .value, some "v", ⟨none, none, none, none, none, none, none⟩⟩
  drawn := fun _ => 0
  placed := 0

def setEnvelope : StoredValueEnvelope String :=
  createStoredValueEnvelope .value (some "v") ⟨some 60000, none, none⟩ 0

/-- One second later it goes to a memory layer of one minute, too. -/
def lateCopy : BackfillTurn String := ⟨1, 0, "k", none, 1000, 1000, 1000⟩

def afterSet : LayeredStack String String :=
  (tiered 60000).setSlot 1 "k"
    (some (redisLayer.writeSlot 0 ((setTurn 1).entry (tieredConfiguration 60000) 1 redisLayer)
      ((setTurn 1).resolved (tieredConfiguration 60000) (tiered 60000).layers)))

def afterCopy : LayeredStack String String :=
  afterSet.setSlot 0 "k"
    (some ((memoryLayer 60000).backfillSlot 1000 1000 (.envelope setEnvelope) none 0
      (afterSet.resolved 1 "k")))

theorem capped_afterCopy : afterCopy.Capped := by
  have hanswer : afterSet.answer 1000 1 "k" = some (.envelope setEnvelope) := by decide +kernel
  have hset : step (tieredConfiguration 60000) (tiered 60000) (.write (setTurn 1)) =
      some afterSet := by
    simp [step, tiered, setTurn, afterSet]
  have hcopy : step (tieredConfiguration 60000) afterSet (.backfill lateCopy) =
      some afterCopy := by
    have hlayer : afterSet.layers[0]? = some (memoryLayer 60000) := rfl
    have hdegraded : afterSet.degraded 0 = false := rfl
    simp [step, lateCopy, hanswer, hlayer, hdegraded, afterCopy]
  have hwrite : Admits (tieredConfiguration 60000) (tiered 60000) (.write (setTurn 1)) := by
    intro layer hlayer own hown
    obtain rfl : redisLayer = layer := Option.some.inj hlayer
    exact .inr rfl
  have hadmits : Admits (tieredConfiguration 60000) afterSet (.backfill lateCopy) := by
    intro layer hlayer stored hstored own hown _
    obtain rfl : memoryLayer 60000 = layer := Option.some.inj hlayer
    obtain rfl : Stored.envelope setEnvelope = stored :=
      Option.some.inj (hanswer.symm.trans hstored)
    have hresolved : afterSet.resolved 1 "k" = [some 60000, some 60000] := by decide +kernel
    change own ∈ (memoryLayer 60000).copiedTtl none 0 (afterSet.resolved 1 "k") at hown
    rw [hresolved] at hown
    obtain rfl : (60000 : Millis) = own := Option.some.inj hown
    have hend : freshUntil 1000 (.envelope setEnvelope) = some 60000 := by decide +kernel
    simp only [lateCopy, hend]
    norm_num
  have hempty : (tiered 60000).Capped := by
    intro l k slot h
    cases h
  exact capped_of_reaches (.tail (.single ⟨_, hwrite, hset⟩) ⟨_, hadmits, hcopy⟩) hempty

/-- With a memory layer of one second a read half a second after its end takes the entry of the
Redis layer, and the memory layer serves it for most of a minute. -/
theorem not_capped_tiered : ∃ s',
    run (step (tieredConfiguration 1000)) (tiered 1000)
      [.write (setTurn 0), .write (setTurn 1), .read (.at 1500) "k" none] = some s' ∧
    ¬ s'.Capped := by
  have hslot : ((run (step (tieredConfiguration 1000)) (tiered 1000)
      [.write (setTurn 0), .write (setTurn 1), .read (.at 1500) "k" none]).bind fun s' =>
        s'.slots 0 "k") = some
      { payload := .stored (.envelope setEnvelope), expiresAt := some 60000, placedAt := 1500
        freshTtl := some 1000, resolved := [some 1000, some 60000] } := by
    decide +kernel
  obtain ⟨s', hs', hslot⟩ := Option.bind_eq_some_iff.mp hslot
  refine ⟨s', hs', fun h => ?_⟩
  have hcap := h 0 "k" _ hslot 30000 (.envelope setEnvelope) (by norm_num) (by decide +kernel)
    (by decide +kernel) 1000 rfl (by norm_num)
  norm_num at hcap

end LayeredStack

end LayerCache.Layered
