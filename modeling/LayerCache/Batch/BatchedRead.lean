import LayerCache.Batch.SingleRead
import Mathlib.Data.List.TakeWhile

/-! # Batched reads

`mget` of entries without fetchers and options goes through the layers one after the other
and asks each for all the keys that are still pending. Other entries are each read by a
`get` of their own, side by side, after their options have been serialized. The keys of a
batch are taken to be different; what `mget` does about equal ones is left out.
-/

namespace LayerCache.Batch

open GuardedFetch

variable {K V : Type} [DecidableEq K]

structure Scan (K V : Type*) where
  layers : K → Cells V
  pending : List K
  resultsByKey : K → Option (Js V)

def MGetEntry.isSimple (entry : MGetEntry K V) : Bool :=
  entry.fetch.isNone && entry.options.isNone

def MGetEntry.serializes (entry : MGetEntry K V) : Bool :=
  entry.options.all OptionValue.serializes

/-- `Promise.all`: the values, unless one of them is missing. -/
def promiseAll : List (Option (Js V)) → Option (List (Js V))
  | [] => some []
  | value :: values => value.bind fun value => (promiseAll values).map (value :: ·)

namespace Idle

variable (cfg : Idle K V)

/-- What the fast path does with the answer of layer `l` for one key. Its writes are the only ones
under way, so none is refused. -/
def visit (l : ℕ) (scan : Scan K V) (key : K) : Option (Stored V) → Scan K V
  | none => scan
  | some stored =>
    if (resolveStoredValue cfg.now stored cfg.now).state = .expired then
      { scan with
        layers := Function.update scan.layers key (Function.update (scan.layers key) l none) }
    else
      { layers := Function.update scan.layers key
          ((cfg.backfill (cfg.settings none).ttls true stored l (scan.layers key)).getD
            (scan.layers key))
        pending := scan.pending.erase key
        resultsByKey := Function.update scan.resultsByKey key (some (hitValue cfg.now stored)) }

/-- The layer answers for all pending keys before the first answer is looked at. -/
def scanLayer (scan : Scan K V) (l : ℕ) : Scan K V :=
  if cfg.degraded l then scan
  else
    (scan.pending.map fun key => (key, cfg.readLayerEntry (scan.layers key) l)).foldl
      (fun scan answer => cfg.visit l scan answer.1 answer.2) scan

def fastPath (entries : List (MGetEntry K V)) (layers : K → Cells V) :
    Option (List (Js V)) × (K → Cells V) :=
  let scan := (List.range cfg.layers).foldl cfg.scanLayer
    ⟨layers, (entries.map (·.key)).dedup, fun _ => none⟩
  (some (entries.map fun entry => (scan.resultsByKey entry.key).getD .undefined), scan.layers)

/-- The entries that the per-entry path comes to: the first that is not serialized ends it, and the
gets before it have started and go on. -/
def perEntry (admits : K → Stage → Bool) (entries : List (MGetEntry K V))
    (layers : K → Cells V) : Option (List (Js V)) × (K → Cells V) :=
  let outcome := fun entry : MGetEntry K V =>
    cfg.getPrepared (admits entry.key) entry (layers entry.key)
  (if entries.all MGetEntry.serializes then
      promiseAll (entries.map fun entry => (outcome entry).value)
    else none,
    (entries.takeWhile MGetEntry.serializes).foldl
      (fun layers entry => Function.update layers entry.key (outcome entry).cells) layers)

/-- What `mget` comes to, if it does not reject, and what it leaves in the layers. `admits` is what
the limits and the breakers say to the gets that it runs side by side. -/
def mget (admits : K → Stage → Bool) (entries : List (MGetEntry K V)) (layers : K → Cells V) :
    Option (List (Js V)) × (K → Cells V) :=
  if cfg.isDisconnecting then (none, layers)
  else if entries.isEmpty then (some [], layers)
  else if !entries.all cfg.accepts then (none, layers)
  else if entries.all MGetEntry.isSimple then cfg.fastPath entries layers
  else cfg.perEntry admits entries layers

/-- A `get` on each entry, one after the other: the values, if none of them rejects. -/
def gets : CircuitBreakerManager (BreakerKey K) → List (MGetEntry K V) → (K → Cells V) →
    Option (List (Js V)) × (K → Cells V)
  | _, [], layers => (some [], layers)
  | breakers, entry :: entries, layers =>
    let outcome := cfg.get breakers entry (layers entry.key)
    let (values, layers) := gets (cfg.settle breakers entry outcome.fulfilled) entries
      (Function.update layers entry.key outcome.cells)
    (outcome.value.bind fun value => values.map (value :: ·), layers)

variable (breakers : CircuitBreakerManager (BreakerKey K))

/-- No two entries fetch through one breaker, and the breakers of all have room. -/
structure Separate (entries : List (MGetEntry K V)) : Prop where
  nodup : (entries.filterMap cfg.breakerKey).Nodup
  room : (breakers.breakers.size : ℚ) + (entries.filterMap cfg.breakerKey).length ≤
    breakers.maxEntries

/-- The entries that a `mget` reads. -/
def started (entries : List (MGetEntry K V)) : List (MGetEntry K V) :=
  if cfg.isDisconnecting || !entries.all cfg.accepts then []
  else if entries.all MGetEntry.isSimple then entries
  else entries.takeWhile MGetEntry.serializes

/-- Every entry is read; or some `get` rejects anyway, and there is nothing for a `get` to change
where an entry is not read. Nobody asks for nothing while the stack disconnects. -/
def Serves (entries : List (MGetEntry K V)) (layers : K → Cells V) : Prop :=
  (entries = [] → cfg.isDisconnecting = false) ∧
    (cfg.started entries = entries ∨
      (∃ entry ∈ entries, (cfg.get breakers entry (layers entry.key)).value = none) ∧
        ∀ entry ∈ entries, entry ∉ cfg.started entries →
          (cfg.get breakers entry (layers entry.key)).cells = layers entry.key)

structure Row (V : Type*) where
  cells : Cells V
  pending : Bool
  result : Option (Js V)

def rowOf (scan : Scan K V) (key : K) : Row V :=
  ⟨scan.layers key, decide (key ∈ scan.pending), scan.resultsByKey key⟩

def visitRow (l : ℕ) (row : Row V) : Option (Stored V) → Row V
  | none => row
  | some stored =>
    if (resolveStoredValue cfg.now stored cfg.now).state = .expired then
      { row with cells := Function.update row.cells l none }
    else
      { cells := (cfg.backfill (cfg.settings none).ttls true stored l row.cells).getD row.cells
        pending := false
        result := some (hitValue cfg.now stored) }

def scanRow (row : Row V) (l : ℕ) : Row V :=
  if row.pending then cfg.visitRow l row (cfg.readLayerEntry row.cells l) else row

variable {cfg} {scan : Scan K V} {key key' : K} {l : ℕ}

theorem rowOf_visit_self (hnodup : scan.pending.Nodup) (answer : Option (Stored V)) :
    rowOf (cfg.visit l scan key answer) key = cfg.visitRow l (rowOf scan key) answer := by
  cases answer with
  | none => rfl
  | some stored =>
    by_cases h : (resolveStoredValue cfg.now stored cfg.now).state = .expired
    · simp [visit, visitRow, h, rowOf]
    · simp [visit, visitRow, h, rowOf, hnodup.mem_erase_iff]

theorem rowOf_visit_of_ne (hne : key' ≠ key) (answer : Option (Stored V)) :
    rowOf (cfg.visit l scan key answer) key' = rowOf scan key' := by
  cases answer with
  | none => rfl
  | some stored =>
    by_cases h : (resolveStoredValue cfg.now stored cfg.now).state = .expired
    · simp [visit, h, rowOf, Function.update_of_ne hne]
    · simp [visit, h, rowOf, Function.update_of_ne hne, List.mem_erase_of_ne hne]

theorem nodup_visit (hnodup : scan.pending.Nodup) (answer : Option (Stored V)) :
    (cfg.visit l scan key answer).pending.Nodup := by
  cases answer with
  | none => exact hnodup
  | some stored =>
    by_cases h : (resolveStoredValue cfg.now stored cfg.now).state = .expired
    · simpa [visit, h] using hnodup
    · simpa [visit, h] using hnodup.erase key

theorem rowOf_answers (cfg : Idle K V) (l : ℕ) (answers : List (K × Option (Stored V)))
    (hanswers : (answers.map Prod.fst).Nodup) (hnodup : scan.pending.Nodup) :
    let scan' := answers.foldl (fun scan answer => cfg.visit l scan answer.1 answer.2) scan
    scan'.pending.Nodup ∧
      (∀ key ∉ answers.map Prod.fst, rowOf scan' key = rowOf scan key) ∧
      ∀ answer ∈ answers, rowOf scan' answer.1 =
        cfg.visitRow l (rowOf scan answer.1) answer.2 := by
  induction answers generalizing scan with
  | nil => exact ⟨hnodup, fun _ _ => rfl, fun _ h => absurd h (by simp)⟩
  | cons first rest ih =>
    rw [List.map_cons, List.nodup_cons] at hanswers
    have hvisit : (cfg.visit l scan first.1 first.2).pending.Nodup := nodup_visit hnodup _
    obtain ⟨hpending, hothers, hrest⟩ := ih hanswers.2 hvisit
    refine ⟨hpending, ?_, ?_⟩
    · intro key hkey
      rw [List.map_cons, List.mem_cons, not_or] at hkey
      exact (hothers key hkey.2).trans (rowOf_visit_of_ne hkey.1 _)
    · intro answer hanswer
      obtain rfl | hmem := List.mem_cons.mp hanswer
      · exact (hothers _ hanswers.1).trans (rowOf_visit_self hnodup _)
      · have hne : answer.1 ≠ first.1 := by
          rintro heq
          exact hanswers.1 (heq ▸ List.mem_map_of_mem hmem)
        rw [List.foldl_cons, hrest answer hmem, rowOf_visit_of_ne hne]

theorem rowOf_scanLayer (cfg : Idle K V) (l : ℕ) (hnodup : scan.pending.Nodup) :
    (cfg.scanLayer scan l).pending.Nodup ∧
      ∀ key, rowOf (cfg.scanLayer scan l) key = cfg.scanRow (rowOf scan key) l := by
  unfold scanLayer
  split
  next hdegraded =>
    refine ⟨hnodup, fun key => ?_⟩
    simp [scanRow, readLayerEntry, hdegraded, visitRow]
  next =>
    obtain ⟨hpending, hothers, hanswers⟩ := rowOf_answers cfg l
      (scan.pending.map fun key => (key, cfg.readLayerEntry (scan.layers key) l))
      (by simpa [Function.comp_def] using hnodup) hnodup
    refine ⟨hpending, fun key => ?_⟩
    by_cases hkey : key ∈ scan.pending
    · have hanswer := hanswers _ (List.mem_map_of_mem hkey)
      simpa [scanRow, rowOf, hkey] using hanswer
    · have hother := hothers key (by simpa using hkey)
      simpa [scanRow, rowOf, hkey] using hother

theorem rowOf_foldl (layers : List ℕ) (hnodup : scan.pending.Nodup) (key : K) :
    rowOf (layers.foldl cfg.scanLayer scan) key =
      layers.foldl cfg.scanRow (rowOf scan key) := by
  induction layers generalizing scan with
  | nil => rfl
  | cons l layers ih =>
    obtain ⟨hpending, hrow⟩ := rowOf_scanLayer cfg l hnodup
    rw [List.foldl_cons, List.foldl_cons, ih hpending, hrow]

omit [DecidableEq K] in
theorem foldl_scanRow_of_not_pending {row : Row V} (h : row.pending = false) (layers : List ℕ) :
    layers.foldl cfg.scanRow row = row := by
  induction layers with
  | nil => rfl
  | cons l layers ih =>
    have hrow : cfg.scanRow row l = row := by simp [scanRow, h]
    rw [List.foldl_cons, hrow, ih]

omit [DecidableEq K] in
theorem exists_backfill (cfg : Idle K V) (ttls : ℕ → Option Millis) (stored : Stored V) (l : ℕ)
    (cells : Cells V) : ∃ cells', cfg.backfill ttls true stored l cells = some cells' := by
  unfold backfill
  split
  · exact ⟨cells, rfl⟩
  · exact ⟨_, rfl⟩

omit [DecidableEq K] in
/-- Layer by layer, the fast path does with a key what a read of the key does. -/
theorem foldl_scanRow (cfg : Idle K V) (cells : Cells V) (todo : List ℕ) :
    ∃ found, cfg.readFromLayers (cfg.settings none).ttls .allowStale true todo cells =
        (some found, (todo.foldl cfg.scanRow ⟨cells, true, none⟩).cells) ∧
      (todo.foldl cfg.scanRow ⟨cells, true, none⟩).result = found.map (·.value) := by
  induction todo generalizing cells with
  | nil => exact ⟨none, rfl, rfl⟩
  | cons l todo ih =>
    rw [List.foldl_cons]
    unfold readFromLayers
    cases hanswer : cfg.readLayerEntry cells l with
    | none =>
      have hrow : cfg.scanRow ⟨cells, true, none⟩ l = ⟨cells, true, none⟩ := by
        simp [scanRow, hanswer, visitRow]
      rw [hrow]
      exact ih cells
    | some stored =>
      by_cases hexpired : (resolveStoredValue cfg.now stored cfg.now).state = .expired
      · have hrow : cfg.scanRow ⟨cells, true, none⟩ l =
            ⟨Function.update cells l none, true, none⟩ := by
          simp [scanRow, hanswer, visitRow, hexpired]
        rw [hrow]
        simpa [hexpired] using ih (Function.update cells l none)
      · obtain ⟨cells', hcells⟩ := exists_backfill cfg (cfg.settings none).ttls stored l cells
        have hrow : cfg.scanRow ⟨cells, true, none⟩ l =
            ⟨cells', false, some (hitValue cfg.now stored)⟩ := by
          simp [scanRow, hanswer, visitRow, hexpired, hcells]
        rw [hrow, foldl_scanRow_of_not_pending rfl]
        refine ⟨some ⟨stored, hitValue cfg.now stored,
          (resolveStoredValue cfg.now stored cfg.now).state, l⟩, ?_, rfl⟩
        simp [hexpired, hcells]

omit [DecidableEq K] in
theorem promiseAll_eq_none_iff {values : List (Option (Js V))} :
    promiseAll values = none ↔ none ∈ values := by
  induction values with
  | nil => simp [promiseAll]
  | cons value values ih => cases value <;> simp [promiseAll, ih]

theorem promiseAll_map_some {ι : Type*} (items : List ι) (f : ι → Js V) :
    promiseAll (items.map fun item => some (f item)) = some (items.map f) := by
  induction items with
  | nil => rfl
  | cons item items ih => simp [promiseAll, ih]

/-- `layers'` holds what `outcome` says for the keys of the entries, and is `layers` elsewhere. -/
def Spreads (entries : List (MGetEntry K V)) (outcome : MGetEntry K V → Cells V)
    (layers layers' : K → Cells V) : Prop :=
  (∀ key ∉ entries.map (·.key), layers' key = layers key) ∧
    ∀ entry ∈ entries, layers' entry.key = outcome entry

variable {entries reads : List (MGetEntry K V)} {outcome : MGetEntry K V → Cells V}
  {layers layers' layers'' : K → Cells V} {entry : MGetEntry K V}

omit [DecidableEq K] in
/-- Where only some of the entries are read, the others must have nothing to change. -/
theorem Spreads.eq_iff (hkeys : (entries.map (·.key)).Nodup) (hsub : reads ⊆ entries)
    (h : Spreads reads outcome layers layers') (h' : Spreads entries outcome layers layers'') :
    layers' = layers'' ↔ ∀ entry ∈ entries, entry ∉ reads → outcome entry = layers entry.key := by
  have hunread : ∀ entry ∈ entries, entry ∉ reads → layers' entry.key = layers entry.key := by
    intro entry hentry hread
    refine h.1 _ fun hmem => ?_
    obtain ⟨other, hother, heq⟩ := List.mem_map.mp hmem
    have hsame : other = entry := List.inj_on_of_nodup_map hkeys (hsub hother) hentry heq
    exact hread (hsame ▸ hother)
  constructor
  · rintro rfl entry hentry hread
    rw [← h'.2 entry hentry, hunread entry hentry hread]
  · intro heq
    funext key
    by_cases hkey : key ∈ entries.map (·.key)
    · obtain ⟨entry, hentry, rfl⟩ := List.mem_map.mp hkey
      rw [h'.2 entry hentry]
      by_cases hread : entry ∈ reads
      · exact h.2 entry hread
      · rw [hunread entry hentry hread, heq entry hentry hread]
    · have hkey' : key ∉ reads.map (·.key) := fun hmem => by
        obtain ⟨entry, hentry, rfl⟩ := List.mem_map.mp hmem
        exact hkey (List.mem_map_of_mem (hsub hentry))
      rw [h.1 key hkey', h'.1 key hkey]

theorem spreads_update {first : MGetEntry K V} {rest : List (MGetEntry K V)}
    (hfirst : first.key ∉ rest.map (·.key))
    (h : Spreads rest outcome (Function.update layers first.key (outcome first)) layers') :
    Spreads (first :: rest) outcome layers layers' := by
  constructor
  · intro key hkey
    rw [List.map_cons, List.mem_cons, not_or] at hkey
    exact (h.1 key hkey.2).trans (Function.update_of_ne hkey.1 _ _)
  · intro entry hentry
    obtain rfl | hmem := List.mem_cons.mp hentry
    · exact (h.1 _ hfirst).trans (Function.update_self ..)
    · exact h.2 entry hmem

theorem spreads_foldl (outcome : MGetEntry K V → Cells V) (layers : K → Cells V)
    (hkeys : (entries.map (·.key)).Nodup) :
    Spreads entries outcome layers
      (entries.foldl (fun layers entry => Function.update layers entry.key (outcome entry))
        layers) := by
  induction entries generalizing layers with
  | nil => exact ⟨fun _ _ => rfl, fun _ h => absurd h (by simp)⟩
  | cons first rest ih =>
    rw [List.map_cons, List.nodup_cons] at hkeys
    exact spreads_update hkeys.1 (ih _ hkeys.2)

theorem update_of_mem {first : MGetEntry K V} {rest : List (MGetEntry K V)} {cells : Cells V}
    (hfirst : first.key ∉ rest.map (·.key)) (hentry : entry ∈ rest) :
    Function.update layers first.key cells entry.key = layers entry.key := by
  refine Function.update_of_ne ?_ _ _
  rintro heq
  exact hfirst (heq ▸ List.mem_map_of_mem hentry)

variable {breakers breakers' : CircuitBreakerManager (BreakerKey K)} {first : MGetEntry K V}
  {rest : List (MGetEntry K V)}

theorem touches_settle (breakers : CircuitBreakerManager (BreakerKey K)) {key : BreakerKey K}
    (hkey : cfg.breakerKey first = some key)
    (hroom : (breakers.breakers.size : ℚ) + 1 ≤ breakers.maxEntries) (fulfilled : Option Bool) :
    CircuitBreakerManager.Touches key 1 breakers (cfg.settle breakers first fulfilled) := by
  have hclosed : CircuitBreakerManager.Touches key 0 breakers
      (breakers.assertClosed cfg.now key).2 :=
    CircuitBreakerManager.touches_assertClosed
  have hroom' : ((breakers.assertClosed cfg.now key).2.breakers.size : ℚ) + 1 ≤
      (breakers.assertClosed cfg.now key).2.maxEntries := by
    have hsize : ((breakers.assertClosed cfg.now key).2.breakers.size : ℚ) ≤
        breakers.breakers.size := by
      exact_mod_cast hclosed.size
    rw [hclosed.maxEntries]
    linarith
  unfold settle
  rw [hkey]
  cases fulfilled with
  | none => exact CircuitBreakerManager.Touches.rfl.le (Nat.zero_le 1)
  | some fulfilled =>
    cases fulfilled with
    | true => exact (hclosed.trans CircuitBreakerManager.touches_delete).le (Nat.zero_le 1)
    | false =>
      dsimp only
      rw [if_neg Bool.false_ne_true]
      cases (cfg.settings first.options).circuitBreaker with
      | none => exact hclosed.le (Nat.zero_le 1)
      | some options =>
        exact hclosed.trans ((CircuitBreakerManager.touches_recordFailure hroom' _).trans
          CircuitBreakerManager.touches_isOpen)

theorem Separate.tail (h : cfg.Separate breakers (first :: rest)) (fulfilled : Option Bool) :
    cfg.Separate (cfg.settle breakers first fulfilled) rest ∧ ∀ entry ∈ rest,
      cfg.alone (cfg.settle breakers first fulfilled) entry = cfg.alone breakers entry := by
  obtain ⟨hnodup, hroom⟩ := h
  cases hkey : cfg.breakerKey first with
  | none =>
    rw [List.filterMap_cons_none hkey] at hnodup hroom
    have hsettle : cfg.settle breakers first fulfilled = breakers := by
      unfold settle
      rw [hkey]
    rw [hsettle]
    exact ⟨⟨hnodup, hroom⟩, fun _ _ => rfl⟩
  | some key =>
    rw [List.filterMap_cons_some hkey] at hnodup hroom
    obtain ⟨hfirst, hnodup⟩ := List.nodup_cons.mp hnodup
    rw [List.length_cons, Nat.cast_succ] at hroom
    have hlength : (0 : ℚ) ≤ (rest.filterMap cfg.breakerKey).length := Nat.cast_nonneg _
    have htouches := touches_settle breakers hkey (by linarith) fulfilled
    refine ⟨⟨hnodup, ?_⟩, fun entry hentry => ?_⟩
    · have hsize : ((cfg.settle breakers first fulfilled).breakers.size : ℚ) ≤
          breakers.breakers.size + 1 := by
        exact_mod_cast htouches.size
      rw [htouches.maxEntries]
      linarith
    · funext stage
      cases stage with
      | breaker =>
        unfold alone
        cases hother : cfg.breakerKey entry with
        | none => rfl
        | some other =>
          have hne : other ≠ key := by
            rintro rfl
            exact hfirst (List.mem_filterMap.mpr ⟨entry, hentry, hother⟩)
          exact CircuitBreakerManager.isOk_assertClosed (htouches.others other hne)
      | _ => rfl

theorem gets_spec (cfg : Idle K V) (layers : K → Cells V) (hkeys : (entries.map (·.key)).Nodup)
    (hbreakers : cfg.Separate breakers entries) :
    (cfg.gets breakers entries layers).1 =
        promiseAll (entries.map fun entry =>
          (cfg.get breakers entry (layers entry.key)).value) ∧
      Spreads entries (fun entry => (cfg.get breakers entry (layers entry.key)).cells) layers
        (cfg.gets breakers entries layers).2 := by
  induction entries generalizing layers breakers with
  | nil => exact ⟨rfl, fun _ _ => rfl, fun _ h => absurd h (by simp)⟩
  | cons first rest ih =>
    rw [List.map_cons, List.nodup_cons] at hkeys
    set outcome := cfg.get breakers first (layers first.key)
    obtain ⟨hseparate, halone⟩ := hbreakers.tail outcome.fulfilled
    obtain ⟨hvalues, hlayers⟩ :=
      ih (Function.update layers first.key outcome.cells) hkeys.2 hseparate
    have hget : ∀ entry ∈ rest, cfg.get (cfg.settle breakers first outcome.fulfilled) entry
        (Function.update layers first.key outcome.cells entry.key) =
          cfg.get breakers entry (layers entry.key) := by
      intro entry hentry
      rw [update_of_mem hkeys.1 hentry, get, halone entry hentry]
      rfl
    constructor
    · have hrest : (rest.map fun entry =>
          (cfg.get (cfg.settle breakers first outcome.fulfilled) entry
            (Function.update layers first.key outcome.cells entry.key)).value) =
          rest.map fun entry => (cfg.get breakers entry (layers entry.key)).value :=
        List.map_congr_left fun entry hentry => by rw [hget entry hentry]
      rw [hrest] at hvalues
      rw [List.map_cons, promiseAll, ← hvalues]
      rfl
    · refine spreads_update hkeys.1 ⟨hlayers.1, fun entry hentry => ?_⟩
      exact (hlayers.2 entry hentry).trans (congrArg Outcome.cells (hget entry hentry))

variable {admits : K → Stage → Bool}

theorem get_of_accepts (hactive : cfg.isDisconnecting = false) (haccepts : cfg.accepts entry = true)
    (hadmits : ∀ stage, admits entry.key stage = cfg.alone breakers entry stage)
    (cells : Cells V) :
    cfg.get breakers entry cells = cfg.getPrepared (admits entry.key) entry cells := by
  have hall : admits entry.key = cfg.alone breakers entry := funext hadmits
  simp [get, hactive, haccepts, hall]

theorem get_of_isSimple (hactive : cfg.isDisconnecting = false)
    (haccepts : cfg.accepts entry = true) (hsimple : entry.isSimple = true) {cells : Cells V}
    {found : Option (Found V)} {cells' : Cells V}
    (h : cfg.readFromLayers (cfg.settings none).ttls .allowStale true (List.range cfg.layers)
      cells = (some found, cells')) :
    cfg.get breakers entry cells =
      ⟨some ((found.map (·.value)).getD .undefined), cells', none⟩ := by
  obtain ⟨hfetch, hoptions⟩ : entry.fetch = none ∧ entry.options = none := by
    simpa [MGetEntry.isSimple] using hsimple
  have hadmits : cfg.alone breakers entry .backfill = true := rfl
  cases found with
  | none => simp [get, hactive, haccepts, getPrepared, hadmits, hfetch, hoptions, h]
  | some hit =>
    have hserve : cfg.serve (cfg.settings none) (cfg.alone breakers entry) false none hit cells' =
        ⟨some hit.value, cells', none⟩ := by
      unfold serve
      cases hit.state <;> rfl
    simp [get, hactive, haccepts, getPrepared, hadmits, hfetch, hoptions, h, hserve]

theorem fastPath_spec (layers : K → Cells V) (hkeys : (entries.map (·.key)).Nodup)
    (hactive : cfg.isDisconnecting = false) (haccepts : ∀ entry ∈ entries, cfg.accepts entry = true)
    (hsimple : ∀ entry ∈ entries, entry.isSimple = true) :
    (cfg.fastPath entries layers).1 =
        promiseAll (entries.map fun entry => (cfg.get breakers entry (layers entry.key)).value) ∧
      Spreads entries (fun entry => (cfg.get breakers entry (layers entry.key)).cells) layers
        (cfg.fastPath entries layers).2 := by
  set start : Scan K V := ⟨layers, (entries.map (·.key)).dedup, fun _ => none⟩ with hstart
  set scan := (List.range cfg.layers).foldl cfg.scanLayer start with hscan
  have hpath : cfg.fastPath entries layers =
      (some (entries.map fun entry => (scan.resultsByKey entry.key).getD .undefined),
        scan.layers) := rfl
  have hrow : ∀ key, rowOf scan key = (List.range cfg.layers).foldl cfg.scanRow
      ⟨layers key, decide (key ∈ entries.map (·.key)), none⟩ := by
    intro key
    rw [hscan, rowOf_foldl _ (List.nodup_dedup _)]
    simp [rowOf, hstart, hkeys.dedup]
  have hget : ∀ entry ∈ entries, cfg.get breakers entry (layers entry.key) =
      ⟨some ((scan.resultsByKey entry.key).getD .undefined), scan.layers entry.key, none⟩ := by
    intro entry hentry
    obtain ⟨found, hread, hresult⟩ := foldl_scanRow cfg (layers entry.key)
      (List.range cfg.layers)
    have hentryRow := hrow entry.key
    rw [decide_eq_true (List.mem_map_of_mem hentry)] at hentryRow
    rw [get_of_isSimple hactive (haccepts entry hentry) (hsimple entry hentry) hread, ← hresult,
      ← hentryRow]
    rfl
  rw [hpath]
  constructor
  · rw [← promiseAll_map_some]
    exact congrArg promiseAll (List.map_congr_left fun entry hentry => by rw [hget entry hentry])
  · constructor
    · intro key hkey
      have hother := hrow key
      rw [decide_eq_false hkey, foldl_scanRow_of_not_pending rfl] at hother
      exact congrArg Row.cells hother
    · intro entry hentry
      exact (congrArg Outcome.cells (hget entry hentry)).symm

theorem perEntry_spec (layers : K → Cells V) (hkeys : (entries.map (·.key)).Nodup)
    (hactive : cfg.isDisconnecting = false) (haccepts : ∀ entry ∈ entries, cfg.accepts entry = true)
    (hadmits : ∀ entry ∈ entries, ∀ stage,
      admits entry.key stage = cfg.alone breakers entry stage) :
    (cfg.perEntry admits entries layers).1 =
        (if entries.all MGetEntry.serializes then
          promiseAll (entries.map fun entry => (cfg.get breakers entry (layers entry.key)).value)
        else none) ∧
      Spreads (entries.takeWhile MGetEntry.serializes)
        (fun entry => (cfg.get breakers entry (layers entry.key)).cells) layers
        (cfg.perEntry admits entries layers).2 := by
  have hget : ∀ entry ∈ entries, cfg.getPrepared (admits entry.key) entry (layers entry.key) =
      cfg.get breakers entry (layers entry.key) := fun entry hentry =>
    (get_of_accepts hactive (haccepts entry hentry) (hadmits entry hentry) _).symm
  have hreads : (entries.takeWhile MGetEntry.serializes).Sublist entries :=
    List.takeWhile_sublist _
  constructor
  · have hvalues : (entries.map fun entry =>
        (cfg.getPrepared (admits entry.key) entry (layers entry.key)).value) =
        entries.map fun entry => (cfg.get breakers entry (layers entry.key)).value :=
      List.map_congr_left fun entry hentry => by rw [hget entry hentry]
    unfold perEntry
    rw [← hvalues]
  · have hlayers := spreads_foldl (fun entry =>
      (cfg.getPrepared (admits entry.key) entry (layers entry.key)).cells) layers
      (hkeys.sublist (hreads.map _))
    refine ⟨hlayers.1, fun entry hentry => ?_⟩
    have hread := hget entry (hreads.subset hentry)
    exact (hlayers.2 entry hentry).trans (congrArg Outcome.cells hread)

theorem mget_nil (admits : K → Stage → Bool) (layers : K → Cells V) :
    cfg.mget admits [] layers =
      if cfg.isDisconnecting then (none, layers) else (some [], layers) := by
  simp [mget]

/-- What `mget` comes to if there is an entry: it rejects unless it starts to read all of them, and
what it starts is a `get` each. -/
theorem mget_spec (cfg : Idle K V) (layers : K → Cells V)
    (hkeys : (entries.map (·.key)).Nodup) (hne : entries ≠ [])
    (hadmits : ∀ entry ∈ entries, ∀ stage,
      admits entry.key stage = cfg.alone breakers entry stage) :
    (cfg.started entries = entries → (cfg.mget admits entries layers).1 =
        promiseAll (entries.map fun entry => (cfg.get breakers entry (layers entry.key)).value)) ∧
      (cfg.started entries ≠ entries → (cfg.mget admits entries layers).1 = none) ∧
      cfg.started entries ⊆ entries ∧
      Spreads (cfg.started entries)
        (fun entry => (cfg.get breakers entry (layers entry.key)).cells) layers
        (cfg.mget admits entries layers).2 := by
  have hempty : entries.isEmpty = false := by simpa using hne
  by_cases hrefused : (cfg.isDisconnecting || !entries.all cfg.accepts) = true
  · have hmget : cfg.mget admits entries layers = (none, layers) := by
      obtain h | h : cfg.isDisconnecting = true ∨ entries.all cfg.accepts = false := by
        simpa using hrefused
      all_goals simp [mget, h, hempty]
    have hstarted : cfg.started entries = [] := by simp only [started, hrefused, if_true]
    rw [hmget, hstarted]
    exact ⟨fun h => absurd h.symm hne, fun _ => rfl, List.nil_subset _, fun _ _ => rfl,
      fun _ h => absurd h (by simp)⟩
  · obtain ⟨hactive, haccepts⟩ : cfg.isDisconnecting = false ∧ entries.all cfg.accepts = true := by
      simpa using hrefused
    have haccepts' : ∀ entry ∈ entries, cfg.accepts entry = true := List.all_eq_true.mp haccepts
    by_cases hsimple : entries.all MGetEntry.isSimple = true
    · have hmget : cfg.mget admits entries layers = cfg.fastPath entries layers := by
        simp [mget, hactive, haccepts, hempty, hsimple]
      have hstarted : cfg.started entries = entries := by
        simp [started, hactive, haccepts, hsimple]
      obtain ⟨hvalues, hlayers⟩ := fastPath_spec layers hkeys hactive haccepts'
        (List.all_eq_true.mp hsimple)
      rw [hmget, hstarted]
      exact ⟨fun _ => hvalues, fun h => absurd rfl h, List.Subset.refl _, hlayers⟩
    · have hmget : cfg.mget admits entries layers = cfg.perEntry admits entries layers := by
        simp [mget, hactive, haccepts, hempty, hsimple]
      have hstarted : cfg.started entries = entries.takeWhile MGetEntry.serializes := by
        simp [started, hactive, haccepts, hsimple]
      obtain ⟨hvalues, hlayers⟩ := perEntry_spec layers hkeys hactive haccepts' hadmits
      rw [hmget, hstarted]
      refine ⟨fun h => ?_, fun h => ?_, List.takeWhile_subset _, hlayers⟩
      · rw [hvalues, if_pos (List.all_eq_true.mpr (List.takeWhile_eq_self_iff.mp h))]
      · have hall : ¬entries.all MGetEntry.serializes = true := fun hall =>
          h (List.takeWhile_eq_self_iff.mpr (List.all_eq_true.mp hall))
        rw [hvalues, if_neg hall]

/-- Where no limit turns anything away and each fetch has a breaker of its own, a batched read comes
to what the single reads come to exactly if every entry is read, or not reading it makes no
difference. -/
theorem mget_eq_gets_iff (cfg : Idle K V) (admits : K → Stage → Bool)
    (breakers : CircuitBreakerManager (BreakerKey K)) (entries : List (MGetEntry K V))
    (layers : K → Cells V) (hkeys : (entries.map (·.key)).Nodup)
    (hbreakers : cfg.Separate breakers entries)
    (hadmits : ∀ entry ∈ entries, ∀ stage,
      admits entry.key stage = cfg.alone breakers entry stage) :
    cfg.mget admits entries layers = cfg.gets breakers entries layers ↔
      cfg.Serves breakers entries layers := by
  unfold Serves
  by_cases hne : entries = []
  · subst hne
    rw [mget_nil]
    cases h : cfg.isDisconnecting <;> simp [gets, started]
  · obtain ⟨hall, hsome, hsub, hlayers⟩ := mget_spec cfg layers hkeys hne hadmits
    obtain ⟨hvalues, hlayers'⟩ := gets_spec cfg layers hkeys hbreakers
    have hsame := hlayers.eq_iff hkeys hsub hlayers'
    have hrejects : (cfg.gets breakers entries layers).1 = none ↔
        ∃ entry ∈ entries, (cfg.get breakers entry (layers entry.key)).value = none := by
      rw [hvalues, promiseAll_eq_none_iff, List.mem_map]
    rw [Prod.ext_iff, hsame]
    by_cases hstarted : cfg.started entries = entries
    · have hread : ∀ entry ∈ entries, entry ∉ cfg.started entries →
          (cfg.get breakers entry (layers entry.key)).cells = layers entry.key :=
        fun entry hentry hread => absurd (hstarted.symm ▸ hentry) hread
      exact ⟨fun _ => ⟨fun h => absurd h hne, .inl hstarted⟩,
        fun _ => ⟨(hall hstarted).trans hvalues.symm, hread⟩⟩
    · rw [hsome hstarted, eq_comm, hrejects]
      constructor
      · rintro ⟨hreject, hread⟩
        exact ⟨fun h => absurd h hne, .inr ⟨hreject, hread⟩⟩
      · rintro ⟨-, h | ⟨hreject, hread⟩⟩
        · exact absurd h hstarted
        · exact ⟨hreject, hread⟩

/-- Two layers, the faster one empty, and a stack that has no options of its own but a breaker for
the backend that it fetches from. -/
def plainStack : Idle ℕ ℕ where
  now := 0
  layers := 2
  degraded := fun _ => false
  writeBehind := fun _ => false
  singleFlightCoordinator := false
  isDisconnecting := false
  validateCacheKey := fun _ => true
  validateWriteOptions := fun _ => true
  slidingTtl := fun _ => false
  settings := fun _ => ⟨fun _ => none, fun _ => 0, some State.backend, ⟨false, true, fun _ => true,
    fun _ _ _ => ⟨some 60000, none, none⟩⟩⟩

def slowCells (key : ℕ) : Cells ℕ := fun l =>
  if l = 1 ∧ key = 0 then some (.plain 7, none) else none

def noFailures : CircuitBreakerManager (BreakerKey ℕ) := ⟨1, .empty⟩

/-- One entry is found in the slower layer, and one is fetched. -/
def oneFetched : List (MGetEntry ℕ ℕ) :=
  [⟨0, none, none⟩, ⟨1, some fun _ => some (some (some 5)), none⟩]

theorem mget_eq_gets_at_oneFetched :
    plainStack.mget (fun _ _ => true) oneFetched slowCells =
      plainStack.gets noFailures oneFetched slowCells :=
  (mget_eq_gets_iff plainStack (fun _ _ => true) noFailures oneFetched slowCells
    (by simp [oneFetched]) ⟨by decide, by decide +kernel⟩ (by
      intro entry hentry stage
      obtain rfl | rfl : entry = ⟨0, none, none⟩ ∨
          entry = ⟨1, some fun _ => some (some (some 5)), none⟩ := by
        simpa [oneFetched] using hentry
      · cases stage <;> rfl
      · cases stage <;> rfl)).mpr ⟨fun _ => rfl, .inl rfl⟩

-- the single reads come to an open breaker where the fetches of a batch have all passed it
example :
    let entries : List (MGetEntry ℕ ℕ) :=
      [⟨1, some fun _ => none, none⟩, ⟨2, some fun _ => some (some (some 5)), none⟩]
    ((plainStack.gets noFailures entries slowCells).2 2 0).isNone ∧
      ((plainStack.mget (fun _ _ => true) entries slowCells).2 2 0).isSome := by
  decide +kernel

/-- A `get` may be given a function to decide what is cached, and a batched read that is given the
same one rejects. -/
theorem mget_rejects_shouldCache :
    (plainStack.gets noFailures
        [⟨0, none, some (.object true [("shouldCache", .function 0)])⟩] slowCells).1 =
        some [.value 7] ∧
      (plainStack.mget (fun _ _ => true)
        [⟨0, none, some (.object true [("shouldCache", .function 0)])⟩] slowCells).1 = none := by
  decide +kernel

end Idle

end LayerCache.Batch
