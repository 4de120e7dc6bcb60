import LayerCache.Expiry.TtlResolver
import Mathlib.Data.List.Forall2

/-! # Writes that leave an option to the stack

Five options of a write have a default among the options of the stack. The negative TTL and the
two stale windows are looked up there when a write leaves them out. Jitter and adaptive TTL are
checked by the constructor, and no write looks them up: a stack honours its defaults as long as
these two could not change a TTL of any of its layers.
-/

namespace LayerCache.Ttl

variable {K V : Type}

/-- The options of a write for which a stack may have a default. -/
inductive DefaultedOption
  | negativeTtl
  | staleWhileRevalidate
  | staleIfError
  | ttlJitter
  | adaptiveTtl
deriving DecidableEq, Repr

namespace DefaultedOption

def Omitted (o : CacheEntryWriteOptions K V) : DefaultedOption → Prop
  | .negativeTtl => o.negativeTtl = none
  | .staleWhileRevalidate => o.staleWhileRevalidate = none
  | .staleIfError => o.staleIfError = none
  | .ttlJitter => o.ttlJitter = none
  | .adaptiveTtl => o.adaptiveTtl = none

/-- The option, given explicitly with the stack's value. -/
def give (stack : CacheStackOptions) (o : CacheEntryWriteOptions K V) :
    DefaultedOption → CacheEntryWriteOptions K V
  | .negativeTtl => { o with negativeTtl := stack.negativeTtl }
  | .staleWhileRevalidate => { o with staleWhileRevalidate := stack.staleWhileRevalidate }
  | .staleIfError => { o with staleIfError := stack.staleIfError }
  | .ttlJitter => { o with ttlJitter := stack.ttlJitter }
  | .adaptiveTtl => { o with adaptiveTtl := stack.adaptiveTtl }

end DefaultedOption

/-- The same options, or `o` omits the option that `o'` gives with the stack's value. -/
def SpellsOut (stack : CacheStackOptions) (d : DefaultedOption)
    (o o' : CacheEntryWriteOptions K V) : Prop :=
  o' = o ∨ d.Omitted o ∧ o' = d.give stack o

structure WriteEntry.SpellsOut (stack : CacheStackOptions) (d : DefaultedOption)
    (entry entry' : WriteEntry K V) : Prop where
  key : entry'.key = entry.key
  value : entry'.value = entry.value
  contextOptions : entry'.options.contextOptions = entry.options.contextOptions
  options : Ttl.SpellsOut stack d entry.options.toCacheEntryWriteOptions
    entry'.options.toCacheEntryWriteOptions

/-- The same write, but that the second may spell a default out. In a batch each entry does as it
likes. -/
inductive Write.SpellsOut (stack : CacheStackOptions) (d : DefaultedOption) :
    Write K V → Write K V → Prop
  | set {entry entry' : WriteEntry K V} (h : entry.SpellsOut stack d entry') :
    Write.SpellsOut stack d (.set entry) (.set entry')
  | mset {entries entries' : List (WriteEntry K V)}
    (h : List.Forall₂ (WriteEntry.SpellsOut stack d) entries entries') :
    Write.SpellsOut stack d (.mset entries) (.mset entries')
  | fetched {kind : CacheWriteKind} {entry entry' : WriteEntry K V}
    (h : entry.SpellsOut stack d entry') :
    Write.SpellsOut stack d (.fetched kind entry) (.fetched kind entry')

/-- No write of the stack can tell a default that is left out from one that is given. -/
def StackConfiguration.HonoursDefaults (cfg : StackConfiguration) (K V : Type) : Prop :=
  ∀ (d : DefaultedOption) (env : Circumstances K) (states : LayerStates) (w w' : Write K V),
    w.SpellsOut cfg.options d w' → w.stored cfg env states = w'.stored cfg env states

def CacheStackOptions.Jitters (o : CacheStackOptions) (layer : CacheLayer) : Prop :=
  ∃ ms ∈ resolveLayerMs layer.name o.ttlJitter none none, 0 < ms

/-- The stack's adaptive TTL could raise a TTL of the layer, or cap it. -/
def CacheStackOptions.Adapts (o : CacheStackOptions) (layer : CacheLayer) : Prop :=
  ∃ config ∈ o.adaptiveTtl.bind AdaptiveTtl.config,
    resolveLayerMs layer.name config.maxTtl none none ≠ none ∨
      resolveLayerMs layer.name config.step none none ≠ some 0

structure StackConfiguration.Inert (cfg : StackConfiguration) : Prop where
  jitter : ∀ layer ∈ cfg.layers, ¬ cfg.options.Jitters layer
  adaptive : ∀ layer ∈ cfg.layers, ¬ cfg.options.Adapts layer

variable {cfg : StackConfiguration} {env : Circumstances K} {states : LayerStates}
  {d : DefaultedOption} {name : String} {l drawn : ℕ} {layer : CacheLayer}

theorem resolveLayerMs_self (name : String) (stack : Option LayerNumber)
    (fallback : Option Millis) :
    resolveLayerMs name stack stack fallback = resolveLayerMs name none stack fallback := by
  cases stack <;> rfl

@[simp] theorem applyJitter_none (random : SecureRandom) (drawn : ℕ) (ttl : Option Millis) :
    applyJitter random drawn ttl none = (ttl, drawn) := by
  cases ttl <;> rfl

@[simp] theorem applyAdaptiveTtl_none (hits : Option ℕ) (name : String) (ttl : Option Millis) :
    applyAdaptiveTtl hits name ttl none = ttl := by
  cases ttl <;> rfl

theorem applyJitter_of_not_jitters {o : CacheStackOptions} (h : ¬ o.Jitters layer)
    (random : SecureRandom) (drawn : ℕ) (ttl : Option Millis) :
    applyJitter random drawn ttl (resolveLayerMs layer.name o.ttlJitter none none) =
      (ttl, drawn) := by
  cases hj : resolveLayerMs layer.name o.ttlJitter none none with
  | none => exact applyJitter_none random drawn ttl
  | some jitter =>
    have hle : jitter ≤ 0 := by
      by_contra hpos
      exact h ⟨jitter, hj, not_le.mp hpos⟩
    cases ttl with
    | none => rfl
    | some ttl => simp [applyJitter, hle]

theorem resolveLayerMs_fallback (name : String) (override : Option LayerNumber)
    (fallback : Option Millis) :
    resolveLayerMs name override none fallback =
      (resolveLayerMs name override none none).or fallback := by
  cases override <;> simp [resolveLayerMs]

theorem applyAdaptiveTtl_of_not_adapts {o : CacheStackOptions} (h : ¬ o.Adapts layer)
    (hits : Option ℕ) (ttl : Option Millis) :
    applyAdaptiveTtl hits layer.name ttl o.adaptiveTtl = ttl := by
  cases ttl with
  | none => rfl
  | some ttl =>
    cases hc : o.adaptiveTtl.bind AdaptiveTtl.config with
    | none => simp [applyAdaptiveTtl, hc]
    | some config =>
      have hconfig : resolveLayerMs layer.name config.maxTtl none none = none ∧
          resolveLayerMs layer.name config.step none none = some 0 := by
        by_contra hne
        rw [not_and_or] at hne
        exact h ⟨config, hc, hne⟩
      cases hits with
      | none => simp [applyAdaptiveTtl, hc]
      | some hits =>
        have hstep : config.stepMs layer.name ttl = 0 := by
          rw [CacheAdaptiveTtlOptions.stepMs, resolveLayerMs_fallback, hconfig.2]
          rfl
        have hmax : config.maxTtlMs layer.name ttl = ttl := by
          rw [CacheAdaptiveTtlOptions.maxTtlMs, resolveLayerMs_fallback, hconfig.1, hstep]
          simp
        simp [applyAdaptiveTtl, hc, hstep, hmax]

theorem resolveFreshTtl_spellsOut (hcfg : cfg.Inert) (hlayer : layer ∈ cfg.layers)
    {o o' : CacheEntryWriteOptions K V} (h : SpellsOut cfg.options d o o') (clock : Millis)
    (key : K) (kind : CacheWriteKind) (value : Option V) :
    resolveFreshTtl env clock drawn key layer.name kind o layer.defaultTtl
        cfg.options.negativeTtl none value =
      resolveFreshTtl env clock drawn key layer.name kind o' layer.defaultTtl
        cfg.options.negativeTtl none value := by
  rcases h with rfl | ⟨homitted, rfl⟩
  · rfl
  cases d with
  | negativeTtl =>
    have hnone : o.negativeTtl = none := homitted
    simp only [resolveFreshTtl, resolveBaseTtl, DefaultedOption.give, hnone, resolveLayerMs_self]
  | staleWhileRevalidate => rfl
  | staleIfError => rfl
  | ttlJitter =>
    have hnone : o.ttlJitter = none := homitted
    simp only [resolveFreshTtl, resolveBaseTtl, DefaultedOption.give, hnone,
      applyJitter_of_not_jitters (hcfg.jitter layer hlayer)]
    exact applyJitter_none ..
  | adaptiveTtl =>
    have hnone : o.adaptiveTtl = none := homitted
    simp only [resolveFreshTtl, resolveBaseTtl, DefaultedOption.give, hnone,
      applyAdaptiveTtl_of_not_adapts (hcfg.adaptive layer hlayer), applyAdaptiveTtl_none]

theorem staleWhileRevalidate_spellsOut {stack : CacheStackOptions}
    {o o' : CacheEntryWriteOptions K V} (h : SpellsOut stack d o o') :
    resolveLayerMs name o.staleWhileRevalidate stack.staleWhileRevalidate none =
      resolveLayerMs name o'.staleWhileRevalidate stack.staleWhileRevalidate none := by
  rcases h with rfl | ⟨homitted, rfl⟩
  · rfl
  cases d with
  | staleWhileRevalidate =>
    have hnone : o.staleWhileRevalidate = none := homitted
    rw [hnone]
    exact (resolveLayerMs_self name _ none).symm
  | negativeTtl | staleIfError | ttlJitter | adaptiveTtl => rfl

theorem staleIfError_spellsOut {stack : CacheStackOptions}
    {o o' : CacheEntryWriteOptions K V} (h : SpellsOut stack d o o') :
    resolveLayerMs name o.staleIfError stack.staleIfError none =
      resolveLayerMs name o'.staleIfError stack.staleIfError none := by
  rcases h with rfl | ⟨homitted, rfl⟩
  · rfl
  cases d with
  | staleIfError =>
    have hnone : o.staleIfError = none := homitted
    rw [hnone]
    exact (resolveLayerMs_self name _ none).symm
  | negativeTtl | staleWhileRevalidate | ttlJitter | adaptiveTtl => rfl

theorem buildLayerSetEntry_spellsOut (hcfg : cfg.Inert) (hlayer : layer ∈ cfg.layers)
    {r r' : WriteRequest K V} (hkey : r'.key = r.key) (hkind : r'.kind = r.kind)
    (hvalue : r'.value = r.value) (h : SpellsOut cfg.options d r.options r'.options) :
    buildLayerSetEntry cfg env l layer r drawn = buildLayerSetEntry cfg env l layer r' drawn := by
  simp only [buildLayerSetEntry, hkey, hkind, hvalue, resolveFreshTtl_spellsOut hcfg hlayer h,
    staleWhileRevalidate_spellsOut h, staleIfError_spellsOut h]

/-- The same request, but that the second may spell a default out. -/
structure WriteRequest.SpellsOut (stack : CacheStackOptions) (d : DefaultedOption)
    (r r' : WriteRequest K V) : Prop where
  key : r'.key = r.key
  kind : r'.kind = r.kind
  value : r'.value = r.value
  options : Ttl.SpellsOut stack d r.options r'.options

theorem buildLayerSetEntries_spellsOut (hcfg : cfg.Inert) {todo todo' : List (ℕ × WriteRequest K V)}
    (h : List.Forall₂ (fun t t' => t'.1 = t.1 ∧ t.2.SpellsOut cfg.options d t'.2) todo todo')
    (drawn : ℕ) :
    buildLayerSetEntries cfg env todo drawn = buildLayerSetEntries cfg env todo' drawn := by
  induction h generalizing drawn with
  | nil => rfl
  | @cons t t' todo todo' ht _ ih =>
    obtain ⟨l, r⟩ := t
    obtain ⟨l', r'⟩ := t'
    obtain ⟨rfl, hr⟩ := ht
    simp only [buildLayerSetEntries]
    cases hlayer : cfg.layers[l']? with
    | none => exact ih drawn
    | some layer =>
      simp only [buildLayerSetEntry_spellsOut hcfg (List.mem_of_getElem? hlayer) hr.key hr.kind
        hr.value hr.options, ih]

/-- What `contextOptions` returns has the option. -/
def DefaultedOption.overridden (overrides : EntryOverrides K V) : DefaultedOption → Bool
  | .negativeTtl => overrides.negativeTtl.isSome
  | .staleWhileRevalidate => overrides.staleWhileRevalidate.isSome
  | .staleIfError => overrides.staleIfError.isSome
  | .ttlJitter => overrides.ttlJitter.isSome
  | .adaptiveTtl => overrides.adaptiveTtl.isSome

theorem give_override_of_overridden {overrides : EntryOverrides K V}
    (h : d.overridden overrides = true) (stack : CacheStackOptions)
    (o : CacheEntryWriteOptions K V) :
    (d.give stack o).override overrides = o.override overrides := by
  cases d <;>
  · obtain ⟨value, hvalue⟩ := Option.isSome_iff_exists.mp h
    simp [CacheEntryWriteOptions.override, DefaultedOption.give, hvalue]

theorem give_override {overrides : EntryOverrides K V} (h : d.overridden overrides = false)
    (stack : CacheStackOptions) (o : CacheEntryWriteOptions K V) :
    (d.give stack o).override overrides = d.give stack (o.override overrides) := by
  cases d <;>
  · simp only [DefaultedOption.overridden, Option.isSome_eq_false_iff, Option.isNone_iff_eq_none]
      at h
    simp [CacheEntryWriteOptions.override, DefaultedOption.give, h]

theorem omitted_override {overrides : EntryOverrides K V} (h : d.overridden overrides = false)
    {o : CacheEntryWriteOptions K V} (homitted : d.Omitted o) :
    d.Omitted (o.override overrides) := by
  cases d <;>
  · simp only [DefaultedOption.overridden, Option.isSome_eq_false_iff, Option.isNone_iff_eq_none]
      at h
    simpa [DefaultedOption.Omitted, CacheEntryWriteOptions.override, h] using homitted

theorem override_spellsOut {stack : CacheStackOptions} {o o' : CacheEntryWriteOptions K V}
    (h : SpellsOut stack d o o') (overrides : EntryOverrides K V) :
    SpellsOut stack d (o.override overrides) (o'.override overrides) := by
  rcases h with rfl | ⟨homitted, rfl⟩
  · exact .inl rfl
  cases hover : d.overridden overrides with
  | true => exact .inl (give_override_of_overridden hover stack o)
  | false => exact .inr ⟨omitted_override hover homitted, give_override hover stack o⟩

/-- Two results of `resolve`: both reject, or both go on with requests that `SpellsOut`. -/
theorem resolve_spellsOut {stack : CacheStackOptions} {entry entry' : WriteEntry K V}
    (h : entry.SpellsOut stack d entry') (kind : CacheWriteKind) :
    Option.Rel (WriteRequest.SpellsOut stack d) (entry.resolve kind) (entry'.resolve kind) := by
  obtain ⟨key, value, ⟨o, context⟩⟩ := entry
  obtain ⟨key', value', ⟨o', context'⟩⟩ := entry'
  obtain ⟨rfl, rfl, rfl, ho⟩ := h
  simp only [WriteEntry.resolve, resolveContextOptions]
  split
  · exact .some ⟨rfl, rfl, rfl, ho⟩
  · split
    · exact .none
    · exact .some ⟨rfl, rfl, rfl, ho⟩
    · split
      · exact .some ⟨rfl, rfl, rfl, override_spellsOut ho _⟩
      · exact .none

theorem storeEntry_spellsOut (hcfg : cfg.Inert) {entry entry' : WriteEntry K V}
    (h : entry.SpellsOut cfg.options d entry') (kind : CacheWriteKind) :
    storeEntry cfg env states kind entry = storeEntry cfg env states kind entry' := by
  have hr := resolve_spellsOut h kind
  unfold storeEntry
  generalize entry.resolve kind = r at hr ⊢
  generalize entry'.resolve kind = r' at hr ⊢
  cases hr with
  | none => rfl
  | some hr =>
    refine congrArg some (buildLayerSetEntries_spellsOut (d := d) hcfg ?_ 0)
    rw [List.forall₂_map_left_iff, List.forall₂_map_right_iff]
    exact List.forall₂_same.mpr fun l _ => ⟨rfl, hr⟩

theorem writeBatch_spellsOut (hcfg : cfg.Inert) {entries entries' : List (WriteEntry K V)}
    (h : List.Forall₂ (WriteEntry.SpellsOut cfg.options d) entries entries') :
    writeBatch cfg env states entries = writeBatch cfg env states entries' := by
  have hresolve : Option.Rel (List.Forall₂ (WriteRequest.SpellsOut cfg.options d))
      (entries.mapM (WriteEntry.resolve .value)) (entries'.mapM (WriteEntry.resolve .value)) := by
    induction h with
    | nil => exact .some .nil
    | @cons entry entry' entries entries' he _ ih =>
      have hr := resolve_spellsOut he .value
      simp only [List.mapM_cons]
      generalize entry.resolve .value = r at hr ⊢
      generalize entry'.resolve .value = r' at hr ⊢
      generalize entries.mapM (WriteEntry.resolve .value) = rs at ih ⊢
      generalize entries'.mapM (WriteEntry.resolve .value) = rs' at ih ⊢
      cases hr with
      | none => exact .none
      | some hr =>
        cases ih with
        | none => exact .none
        | some hrs => exact .some (.cons hr hrs)
  unfold writeBatch
  generalize entries.mapM (WriteEntry.resolve .value) = rs at hresolve ⊢
  generalize entries'.mapM (WriteEntry.resolve .value) = rs' at hresolve ⊢
  cases hresolve with
  | none => rfl
  | some hrs =>
    refine congrArg some (buildLayerSetEntries_spellsOut (d := d) hcfg ?_ 0)
    refine List.rel_flatMap hrs fun r r' hr => ?_
    rw [List.forall₂_map_left_iff, List.forall₂_map_right_iff]
    exact List.forall₂_same.mpr fun l _ => ⟨rfl, hr⟩

theorem honoursDefaults_of_inert (hcfg : cfg.Inert) : cfg.HonoursDefaults K V := by
  intro d env states w w' h
  cases h with
  | set h => exact storeEntry_spellsOut hcfg h .value
  | mset h => exact writeBatch_spellsOut hcfg h
  | @fetched kind entry entry' h =>
    cases kind with
    | value => exact storeEntry_spellsOut hcfg h .value
    | empty =>
      have hnull : ({ entry with value := none } : WriteEntry K V).SpellsOut cfg.options d
          { entry' with value := none } := ⟨h.key, rfl, h.contextOptions, h.options⟩
      exact storeEntry_spellsOut hcfg hnull .empty

theorem mem_buildLayerSetEntries {todo : List (ℕ × WriteRequest K V)} {entry : LayerSetEntry K V}
    (h : (l, entry) ∈ buildLayerSetEntries cfg env todo drawn) :
    ∃ r layer drawn', (l, r) ∈ todo ∧ cfg.layers[l]? = some layer ∧
      entry = (buildLayerSetEntry cfg env l layer r drawn').1 := by
  induction todo generalizing drawn with
  | nil => simp [buildLayerSetEntries] at h
  | cons t todo ih =>
    obtain ⟨l', r⟩ := t
    simp only [buildLayerSetEntries] at h
    cases hlayer : cfg.layers[l']? with
    | none =>
      obtain ⟨r', layer, drawn', hr', hl, he⟩ := ih (by simpa [hlayer] using h)
      exact ⟨r', layer, drawn', List.mem_cons_of_mem _ hr', hl, he⟩
    | some layer =>
      simp only [hlayer, List.mem_cons, Prod.mk.injEq] at h
      rcases h with ⟨rfl, he⟩ | h
      · exact ⟨r, layer, drawn, List.mem_cons_self, hlayer, he⟩
      · obtain ⟨r', layer', drawn', hr', hl, he⟩ := ih h
        exact ⟨r', layer', drawn', List.mem_cons_of_mem _ hr', hl, he⟩

theorem exists_mem_buildLayerSetEntries {todo : List (ℕ × WriteRequest K V)}
    {r : WriteRequest K V} (hr : (l, r) ∈ todo) (hlayer : cfg.layers[l]? = some layer)
    (drawn : ℕ) : ∃ entry, (l, entry) ∈ buildLayerSetEntries cfg env todo drawn := by
  induction todo generalizing drawn with
  | nil => cases hr
  | cons t todo ih =>
    obtain ⟨l', r'⟩ := t
    simp only [buildLayerSetEntries]
    rcases List.mem_cons.mp hr with heq | hr
    · obtain ⟨rfl, rfl⟩ := Prod.mk.inj heq
      rw [hlayer]
      exact ⟨_, List.mem_cons_self⟩
    · cases hl : cfg.layers[l']? with
      | none => exact ih hr drawn
      | some layer' =>
        obtain ⟨entry, hentry⟩ := ih hr (buildLayerSetEntry cfg env l' layer' r' drawn).2
        exact ⟨entry, List.mem_cons_of_mem _ hentry⟩

/-- A set of `null` with a TTL and nothing else. -/
def plainSet (key : K) (ttl : Millis) : WriteEntry K V where
  key
  value := none
  options :=
    { ttl := some (.number ttl), ttlPolicy := none, negativeTtl := none
      staleWhileRevalidate := none, staleIfError := none, ttlJitter := none, adaptiveTtl := none
      contextOptions := none }

def explicitSet (stack : CacheStackOptions) (d : DefaultedOption) (key : K) (ttl : Millis) :
    WriteEntry K V :=
  { (plainSet key ttl : WriteEntry K V) with
    options :=
      { d.give stack (plainSet key ttl : WriteEntry K V).options.toCacheEntryWriteOptions with
        contextOptions := none } }

theorem plainSet_spellsOut (stack : CacheStackOptions) (d : DefaultedOption) (key : K)
    (ttl : Millis) :
    (plainSet key ttl : WriteEntry K V).SpellsOut stack d (explicitSet stack d key ttl) :=
  ⟨rfl, rfl, rfl, .inr ⟨by cases d <;> rfl, rfl⟩⟩

def LayerStates.healthy : LayerStates := ⟨fun _ => false, fun _ => false⟩

theorem mem_turns_healthy {layers : List CacheLayer} :
    l ∈ LayerStates.healthy.turns layers ↔ l < layers.length := by
  simp [LayerStates.turns, LayerStates.healthy]

/-- Every key has been accessed `hits` times. -/
def accessed (K : Type) (hits : ℕ) : Circumstances K where
  hits _ := some hits
  now := 0
  clock _ := 0
  random _ := ⟨0, zero_mem_unitInterval⟩
  nextMidnight clock := clock + 86400000
  nextHour clock := clock + 3600000

/-- What a set without `contextOptions` is for the layers. -/
def WriteEntry.request (entry : WriteEntry K V) : WriteRequest K V :=
  ⟨entry.key, .value, entry.value, entry.options.toCacheEntryWriteOptions⟩

theorem stored_set {entry : WriteEntry K V} (h : entry.options.contextOptions = none) :
    (Write.set entry).stored cfg env states =
      some (buildLayerSetEntries cfg env
        ((states.turns cfg.layers).map fun l => (l, entry.request)) 0) := by
  simp [Write.stored, storeEntry, WriteEntry.resolve, resolveContextOptions, h,
    WriteEntry.request]

theorem eq_of_mem_map_request {turns : List ℕ} {entry : WriteEntry K V} {r : WriteRequest K V}
    (h : (l, r) ∈ turns.map fun l => (l, entry.request)) : r = entry.request := by
  obtain ⟨_, _, heq⟩ := List.mem_map.mp h
  exact (Prod.mk.inj heq).2.symm

/-- A default is not honoured that gives some layer another TTL than the write asks for. -/
theorem not_honoursDefaults {ttl : Millis} (hlayer : layer ∈ cfg.layers) (key : K) (hits : ℕ)
    (hdiffers : ∀ drawn,
      normalizePositiveMs (resolveFreshTtl (accessed K hits) 0 drawn key layer.name .value
        (explicitSet (V := V) cfg.options d key ttl).options.toCacheEntryWriteOptions
        layer.defaultTtl cfg.options.negativeTtl none none).1 ≠ normalizePositiveMs (some ttl)) :
    ¬ cfg.HonoursDefaults K V := by
  intro h
  obtain ⟨l, hl⟩ := List.mem_iff_getElem?.mp hlayer
  have heq := h d (accessed K hits) .healthy _ _
    (.set (plainSet_spellsOut (V := V) cfg.options d key ttl))
  rw [stored_set rfl, stored_set rfl, Option.some.injEq] at heq
  have hturn : l ∈ LayerStates.healthy.turns cfg.layers :=
    mem_turns_healthy.mpr (List.getElem?_eq_some_iff.mp hl).1
  have htodo : (l, (plainSet key ttl : WriteEntry K V).request) ∈
      (LayerStates.healthy.turns cfg.layers).map fun l => (l, (plainSet key ttl).request) :=
    List.mem_map_of_mem hturn
  obtain ⟨entry, hentry⟩ : ∃ entry, (l, entry) ∈ buildLayerSetEntries cfg (accessed K hits)
      ((LayerStates.healthy.turns cfg.layers).map fun l => (l, (plainSet key ttl).request)) 0 :=
    exists_mem_buildLayerSetEntries htodo hl 0
  obtain ⟨r, layer', drawn', hr, hl', he⟩ := mem_buildLayerSetEntries (heq ▸ hentry)
  obtain ⟨r₀, layer₀, drawn₀, hr₀, hl₀, he₀⟩ := mem_buildLayerSetEntries hentry
  obtain rfl : layer = layer' := Option.some.inj (hl.symm.trans hl')
  obtain rfl : layer = layer₀ := Option.some.inj (hl.symm.trans hl₀)
  obtain rfl := eq_of_mem_map_request hr
  obtain rfl := eq_of_mem_map_request hr₀
  have hfresh := congrArg (fun e => e.value.freshTtlMs) (he.symm.trans he₀)
  refine hdiffers drawn' (hfresh.trans ?_)
  simp [buildLayerSetEntry, createStoredValueEnvelope, resolveFreshTtl, resolveBaseTtl, plainSet,
    WriteEntry.request, resolveLayerMs, readLayerNumber]

theorem intCast_ne_three_halves (n : ℤ) : (n : ℚ) ≠ 3 / 2 := by
  intro h
  have hdouble : ((n * 2 : ℤ) : ℚ) = (3 : ℤ) := by
    push_cast
    linarith
  have hint : n * 2 = 3 := by exact_mod_cast hdouble
  omega

theorem not_honoursDefaults_of_jitters [Inhabited K] (hlayer : layer ∈ cfg.layers)
    (h : cfg.options.Jitters layer) : ¬ cfg.HonoursDefaults K V := by
  obtain ⟨ms, hms, hpos⟩ := h
  rw [Option.mem_def] at hms
  refine @not_honoursDefaults _ _ _ .ttlJitter _ (3 / 2) hlayer default 0 fun drawn heq => ?_
  have hround : ∃ n : ℤ, (resolveFreshTtl (accessed K 0) 0 drawn default layer.name .value
      (explicitSet (V := V) cfg.options .ttlJitter default (3 / 2)).options.toCacheEntryWriteOptions
      layer.defaultTtl cfg.options.negativeTtl none none).1 = some ((max 1 n : ℤ) : ℚ) := by
    refine ⟨round ((3 / 2 : ℚ) + (0 * 2 - 1) * ms), ?_⟩
    simp only [resolveFreshTtl, resolveBaseTtl, explicitSet, plainSet, DefaultedOption.give,
      applyAdaptiveTtl_none, hms]
    simp only [resolveLayerMs, readLayerNumber, Option.some_or, applyJitter, accessed]
    rw [if_neg (by rw [not_or, not_le, not_le]; exact ⟨by norm_num, hpos⟩)]
    push_cast
    rfl
  obtain ⟨n, hn⟩ := hround
  rw [hn] at heq
  have hone : (0 : ℚ) < (max 1 n : ℤ) := by
    have hint : (0 : ℤ) < max 1 n := lt_max_of_lt_left zero_lt_one
    exact_mod_cast hint
  rw [normalizePositiveMs, if_pos hone, normalizePositiveMs, if_pos (by norm_num),
    Option.some.injEq] at heq
  exact intCast_ne_three_halves _ heq

theorem readLayerNumber_nonneg {value : LayerNumber}
    (h : validateLayerNumberOption (some value) = true) {ms : Millis}
    (hms : readLayerNumber name value = some ms) : 0 ≤ ms := by
  cases value with
  | number n =>
    obtain rfl : n = ms := Option.some.inj hms
    simpa [validateLayerNumberOption, validateNonNegativeNumber] using h
  | map entries =>
    simp only [validateLayerNumberOption, List.all_eq_true] at h
    obtain ⟨layerValue, hlookup, rfl⟩ : ∃ v, entries.lookup name = some v ∧ v = some ms := by
      cases hlookup : entries.lookup name with
      | none => simp [readLayerNumber, hlookup] at hms
      | some v => exact ⟨v, rfl, by simpa [readLayerNumber, hlookup] using hms⟩
    obtain ⟨before, after, rfl, -⟩ := List.lookup_eq_some_iff.mp hlookup
    have hmem : (name, some ms) ∈ before ++ (name, some ms) :: after := by simp
    simpa [validateNonNegativeNumber] using h _ hmem

theorem resolveLayerMs_nonneg {value : Option LayerNumber}
    (h : validateLayerNumberOption value = true) {ms : Millis}
    (hms : resolveLayerMs name value none none = some ms) : 0 ≤ ms := by
  cases value with
  | none => cases hms
  | some value =>
    exact readLayerNumber_nonneg h (by simpa [resolveLayerMs] using hms)

theorem exists_hot {hotAfter : Option ℚ} (h : validatePositiveNumber hotAfter = true) :
    ∃ hits : ℕ, hotAfter.getD 3 ≤ hits ∧ (1 : ℤ) ≤ ⌊hits / hotAfter.getD 3⌋ := by
  have hpos : 0 < hotAfter.getD 3 := by
    cases hotAfter with
    | none => norm_num
    | some hotAfter => simpa [validatePositiveNumber] using h
  refine ⟨⌈hotAfter.getD 3⌉.toNat, ?_, ?_⟩
  · exact (Int.le_ceil _).trans (by exact_mod_cast Int.self_le_toNat _)
  · rw [Int.le_floor, le_div_iff₀ hpos, Int.cast_one, one_mul]
    exact (Int.le_ceil _).trans (by exact_mod_cast Int.self_le_toNat _)

theorem applyAdaptiveTtl_of_hot {config : CacheAdaptiveTtlOptions} {adaptive : AdaptiveTtl}
    (hconfig : adaptive.config = some config) {hits : ℕ} (hhits : config.hotAfter.getD 3 ≤ hits)
    {ttl : Millis} (httl : 0 < ttl) :
    applyAdaptiveTtl (some hits) name (some ttl) (some adaptive) =
      some (min (config.maxTtlMs name ttl)
        (ttl + config.stepMs name ttl * (⌊hits / config.hotAfter.getD 3⌋ : ℤ))) := by
  simp only [applyAdaptiveTtl, Option.bind_some, hconfig]
  rw [if_neg (by rw [not_or, not_lt]; exact ⟨httl.ne', hhits⟩)]

theorem stepMs_nonneg {config : CacheAdaptiveTtlOptions}
    (h : validateLayerNumberOption config.step = true) (ttl : Millis) :
    0 ≤ config.stepMs name ttl := by
  rw [CacheAdaptiveTtlOptions.stepMs, resolveLayerMs_fallback]
  cases hstep : resolveLayerMs name config.step none none with
  | none => exact zero_le_one.trans (by simp)
  | some step => exact resolveLayerMs_nonneg h hstep

theorem exists_adapted {config : CacheAdaptiveTtlOptions}
    (hstep : validateLayerNumberOption config.step = true)
    (hmax : validateLayerNumberOption config.maxTtl = true)
    (h : resolveLayerMs name config.maxTtl none none ≠ none ∨
      resolveLayerMs name config.step none none ≠ some 0) {multiplier : ℤ}
    (hmultiplier : 1 ≤ multiplier) :
    ∃ ttl : Millis, 0 < ttl ∧
      min (config.maxTtlMs name ttl) (ttl + config.stepMs name ttl * multiplier) ≠ ttl := by
  have hone : (1 : ℚ) ≤ multiplier := by exact_mod_cast hmultiplier
  cases hcap : resolveLayerMs name config.maxTtl none none with
  | some cap =>
    have hnonneg : 0 ≤ cap := resolveLayerMs_nonneg hmax hcap
    have hcapped : config.maxTtlMs name (cap + 1) = cap := by
      rw [CacheAdaptiveTtlOptions.maxTtlMs, resolveLayerMs_fallback, hcap]
      rfl
    refine ⟨cap + 1, by linarith, ne_of_lt ?_⟩
    rw [hcapped]
    exact (min_le_left _ _).trans_lt (lt_add_one cap)
  | none =>
    have hpos : 0 < config.stepMs name 1 := by
      refine lt_of_le_of_ne (stepMs_nonneg hstep 1) fun hzero => ?_
      rw [CacheAdaptiveTtlOptions.stepMs, resolveLayerMs_fallback] at hzero
      cases hvalue : resolveLayerMs name config.step none none with
      | none =>
        rw [hvalue, Option.none_or, Option.getD_some] at hzero
        exact absurd hzero.symm (zero_lt_one.trans_le (by simp)).ne'
      | some step =>
        obtain rfl : step = 0 := by
          rw [hvalue] at hzero
          exact hzero.symm
        exact (h.resolve_left (by simp [hcap])) hvalue
    have hcapped : config.maxTtlMs name 1 = 1 + config.stepMs name 1 * 4 := by
      rw [CacheAdaptiveTtlOptions.maxTtlMs, resolveLayerMs_fallback, hcap]
      rfl
    refine ⟨1, zero_lt_one, ne_of_gt ?_⟩
    rw [hcapped]
    exact lt_min (by linarith) (by nlinarith)

theorem not_honoursDefaults_of_adapts [Inhabited K] (hlayer : layer ∈ cfg.layers)
    (h : cfg.options.Adapts layer) : ¬ cfg.HonoursDefaults K V := by
  obtain ⟨config, hconfig, heffect⟩ := h
  obtain ⟨adaptive, hadaptive, hconfig⟩ := Option.mem_bind_iff.mp hconfig
  have hvalid : validatePositiveNumber config.hotAfter = true ∧
      validateLayerNumberOption config.step = true ∧
      validateLayerNumberOption config.maxTtl = true := by
    have hall := cfg.valid
    simp only [CacheStackOptions.validateConfiguration, Bool.and_eq_true] at hall
    have ha := hall.2
    rw [hadaptive] at ha
    cases adaptive with
    | boolean enabled =>
      cases enabled with
      | false => cases hconfig
      | true =>
        obtain rfl : (⟨none, none, none⟩ : CacheAdaptiveTtlOptions) = config :=
          Option.some.inj hconfig
        exact ⟨rfl, rfl, rfl⟩
    | options o =>
      obtain rfl : o = config := Option.some.inj hconfig
      simpa [validateAdaptiveTtlOptions, and_assoc] using ha
  obtain ⟨hhot, hstep, hmax⟩ := hvalid
  obtain ⟨hits, hhits, hmultiplier⟩ := exists_hot hhot
  obtain ⟨ttl, httl, hne⟩ := exists_adapted hstep hmax heffect hmultiplier
  refine @not_honoursDefaults _ _ _ .adaptiveTtl _ ttl hlayer default hits fun drawn heq => ?_
  have hresolve : (resolveFreshTtl (accessed K hits) 0 drawn default layer.name .value
      (explicitSet (V := V) cfg.options .adaptiveTtl default ttl).options.toCacheEntryWriteOptions
      layer.defaultTtl cfg.options.negativeTtl none none).1 =
        some (min (config.maxTtlMs layer.name ttl)
          (ttl + config.stepMs layer.name ttl * (⌊hits / config.hotAfter.getD 3⌋ : ℤ))) := by
    have hbase : resolveLayerMs layer.name (some (.number ttl)) none layer.defaultTtl =
        some ttl := rfl
    simp only [resolveFreshTtl, resolveBaseTtl, explicitSet, plainSet, DefaultedOption.give,
      accessed, Option.bind_none, Option.none_or, hbase, Option.mem_def.mp hadaptive,
      applyAdaptiveTtl_of_hot hconfig hhits httl]
    rfl
  rw [hresolve, normalizePositiveMs, normalizePositiveMs, if_pos httl] at heq
  split_ifs at heq
  exact hne (Option.some.inj heq)

/-- The two stale windows and the negative TTL are always looked up. Jitter and adaptive TTL never
are, so a stack honours its defaults if and only if these two could change nothing. -/
theorem StackConfiguration.honoursDefaults_iff [Inhabited K] (cfg : StackConfiguration) :
    cfg.HonoursDefaults K V ↔ cfg.Inert := by
  constructor
  · intro h
    exact ⟨fun layer hlayer hj => not_honoursDefaults_of_jitters hlayer hj h,
      fun layer hlayer ha => not_honoursDefaults_of_adapts hlayer ha h⟩
  · exact honoursDefaults_of_inert

/-- One memory layer of a minute, and five seconds of jitter for the whole stack. -/
def jitteredStack : StackConfiguration where
  layers := [⟨"memory", some 60000⟩]
  options :=
    { negativeTtl := none, staleWhileRevalidate := none, staleIfError := none
      ttlJitter := some (.number 5000), adaptiveTtl := none }
  layers_ne := by simp
  valid := by decide +kernel

/-- A set without `ttlJitter` is not jittered. -/
theorem jitteredStack_not_honoursDefaults : ¬ jitteredStack.HonoursDefaults String String :=
  not_honoursDefaults_of_jitters List.mem_cons_self ⟨5000, rfl, by norm_num⟩

end LayerCache.Ttl
