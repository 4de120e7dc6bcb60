import LayerCache.Layers.Memory
import LayerCache.Snapshot.Stack

/-! # An export from the maps it reads

The export walks over the map of a memory layer while it reads from it. A read of an `lru`
layer takes the key out of the map and sets it again, behind everything the iterator has
yet to come to, and a read of an expired entry takes it out for good. The iterator comes to
a key again, but by then the key is exported and is not read a second time, unless what was
read is `null`.
-/

namespace LayerCache.Snapshot

variable {V : Type}

/-- A memory layer under whose keys there may be `null`. -/
abbrev NullableLayer (V : Type) : Type := MemoryLayer (Option (Stored V)) Millis

abbrev NullableEntry (V : Type) : Type := MemoryEntry (Option (Stored V)) Millis

/-- What `pruneExpired` leaves, which reads the clock for every entry. -/
def pruned (clock : ℕ → Millis) :
    ℕ → List (String × NullableEntry V) → List (String × NullableEntry V)
  | _, [] => []
  | ticks, entry :: rest =>
    if entry.2.isExpired (clock ticks) then pruned clock (ticks + 1) rest
    else entry :: pruned clock (ticks + 1) rest

theorem pruned_sublist (clock : ℕ → Millis) (ticks : ℕ)
    (entries : List (String × NullableEntry V)) :
    (pruned clock ticks entries).Sublist entries := by
  induction entries generalizing ticks with
  | nil => exact List.Sublist.refl _
  | cons entry rest ih =>
    rw [pruned]
    split
    · exact (ih _).cons entry
    · exact (ih _).cons_cons entry

def pruneLayer (clock : ℕ → Millis) (ticks : ℕ) (layer : NullableLayer V) : NullableLayer V :=
  { layer with entries :=
      ⟨pruned clock ticks layer.entries.entries,
        layer.entries.nodup.sublist ((pruned_sublist _ _ _).map _)⟩ }

/-- What an export has come to. `ticks` is how often the clock has been read, and `handed` what
the visitor has been called with. -/
structure Exporting (V : Type) where
  ticks : ℕ
  exported : List String
  handed : List (CacheSnapshotEntry (Stored V))

/-- An export within a layer. The iterator has the first `position` entries of the map behind
it. -/
structure LayerVisit (V : Type) where
  layer : NullableLayer V
  position : ℕ
  state : Exporting V

/-- Where the iterator stands after a read: it moves back if an entry behind it is taken out. -/
def positionAfterRead (layer : NullableLayer V) (position : ℕ) (key : String) (now : Millis) : ℕ :=
  match layer.entries.get key with
  | none => position
  | some entry =>
    if entry.isExpired now ∨ layer.evictionPolicy = .lru then
      ((layer.entries.entries.take position).filter (·.1 ≠ key)).length
    else position

section Operations
variable {G : Type} [ToString G] (generation : Option G) (maxEntries : Option ℕ)
  (clock : ℕ → Millis)

def visitKey (key : String) (visit : LayerVisit V) : Except String Unit × LayerVisit V :=
  let exportedKey := stripGenerationPrefix key generation
  if exportedKey ∈ visit.state.exported then (.ok (), visit)
  else
    let now := clock visit.state.ticks
    let read := visit.layer.getEntry key now
    let visit : LayerVisit V :=
      { layer := read.1
        position := positionAfterRead visit.layer visit.position key now
        state := { visit.state with ticks := visit.state.ticks + 1 } }
    match read.2.join with
    | none => (.ok (), visit)
    | some stored =>
      let exported := visit.state.exported ++ [exportedKey]
      if ∃ limit ∈ maxEntries, exported.length > limit then
        (.error ("Snapshot export exceeds snapshotMaxEntries limit (" ++
            toString exported.length ++ " > " ++ toString (maxEntries.getD 0) ++ ")."),
          { visit with state := { visit.state with exported } })
      else
        let ttl := remainingStoredTtlMs (clock (visit.state.ticks + 1)) stored
          (clock visit.state.ticks)
        (.ok (),
          { visit with state :=
              { ticks := visit.state.ticks + 2
                exported
                handed := visit.state.handed ++ [⟨exportedKey, stored, ttl⟩] } })

/-- The loop over the keys of a layer, for at most so many turns. -/
def forEachKey : ℕ → LayerVisit V → Option (Except String Unit × Exporting V)
  | 0, _ => none
  | turns + 1, visit =>
    match visit.layer.entries.entries[visit.position]? with
    | none => some (.ok (), visit.state)
    | some (key, _) =>
      match visitKey generation maxEntries clock key
          { visit with position := visit.position + 1 } with
      | (.ok (), visit) => forEachKey turns visit
      | (.error message, visit) => some (.error message, visit.state)

/-- The iteration over a layer begins once the layer has dropped what has expired. -/
def startLayer (layer : NullableLayer V) (state : Exporting V) : LayerVisit V where
  layer := pruneLayer clock state.ticks layer
  position := 0
  state := { state with ticks := state.ticks + layer.entries.size }

def visitLayers (turns : ℕ) :
    List (NullableLayer V) → Exporting V → Option (Except String Unit × Exporting V)
  | [], state => some (.ok (), state)
  | layer :: rest, state =>
    match forEachKey generation maxEntries clock turns (startLayer clock layer state) with
    | some (.ok (), state) => visitLayers turns rest state
    | some (.error message, state) => some (.error message, state)
    | none => none

def visitExportEntries (turns : ℕ) (layers : List (NullableLayer V)) :
    Option (Except String Unit × Exporting V) :=
  visitLayers generation maxEntries clock turns layers ⟨0, [], []⟩

end Operations

/-- At the time the first of the layers that still holds the key holds the value under it. -/
def FirstHolds (layers : List (NullableLayer V)) (now : Millis) (key : String)
    (value : Stored V) : Prop :=
  ∃ before layer after, layers = before ++ layer :: after ∧
    (∃ entry ∈ layer.entries.get key, entry.value = some value ∧ entry.isExpired now = false) ∧
    ∀ earlier ∈ before, ∀ entry ∈ earlier.entries.get key, entry.isExpired now = true

/-- The record is of what the first layer that still held the key had at some reading of the clock
before, with the TTL that is left by the next two. -/
def ReadAt (layers : List (NullableLayer V)) (clock : ℕ → Millis) (ticks : ℕ)
    (record : CacheSnapshotEntry (Stored V)) : Prop :=
  ∃ tick, tick + 2 < ticks ∧ FirstHolds layers (clock tick) record.key record.value ∧
    record.ttl = remainingStoredTtlMs (clock (tick + 2)) record.value (clock (tick + 1))

theorem ReadAt.later {layers : List (NullableLayer V)} {clock : ℕ → Millis} {ticks ticks' : ℕ}
    {record : CacheSnapshotEntry (Stored V)} (h : ReadAt layers clock ticks record)
    (hle : ticks ≤ ticks') : ReadAt layers clock ticks' record := by
  obtain ⟨tick, htick, hfirst, httl⟩ := h
  exact ⟨tick, htick.trans_le hle, hfirst, httl⟩

structure Exact (layers : List (NullableLayer V)) (maxEntries : Option ℕ) (clock : ℕ → Millis)
    (outcome : Except String Unit) (state : Exporting V) : Prop where
  once : (state.handed.map (·.key)).Nodup
  first : ∀ record ∈ state.handed, ReadAt layers clock state.ticks record
  complete : outcome = .ok () → ∀ layer ∈ layers, ∀ key, ∀ entry ∈ layer.entries.get key,
    entry.isExpired (clock state.ticks) = false → key ∈ state.handed.map (·.key)
  limited : outcome = .ok () ∨ ∃ limit ∈ maxEntries, state.handed.length = limit

/-- Under every clock, and without a generation prefix, an export from the layers ends and is
exact. -/
def ExportsExactly (layers : List (NullableLayer V)) : Prop :=
  ∀ (clock : ℕ → Millis) (maxEntries : Option ℕ), Monotone clock →
    ∃ outcome state,
      (∃ enough, ∀ turns, enough ≤ turns →
        visitExportEntries (none : Option ℕ) maxEntries clock turns layers =
          some (outcome, state)) ∧
      Exact layers maxEntries clock outcome state

/-- An entry that is not `null` stands in an earlier layer under the key of every one that is,
and does not expire before it. -/
def NullsShadowed (layers : List (NullableLayer V)) : Prop :=
  ∀ before layer after, layers = before ++ layer :: after →
    ∀ key, ∀ entry ∈ layer.entries.get key, entry.value = none →
      ∃ earlier ∈ before, ∃ other ∈ earlier.entries.get key, other.value ≠ none ∧
        ∀ now, other.isExpired now = true → entry.isExpired now = true

theorem NullableEntry.isExpired_mono {entry : NullableEntry V} {now later : Millis}
    (h : entry.isExpired now = true) (hle : now ≤ later) : entry.isExpired later = true := by
  unfold MemoryEntry.isExpired at *
  cases hexpires : entry.expiresAt with
  | none =>
    rw [hexpires] at h
    cases h
  | some expiresAt =>
    simp only [hexpires, decide_eq_true_eq] at h ⊢
    exact h.trans hle

theorem filter_ne_of_nodup {entries rest : List (String × NullableEntry V)} {key : String}
    {entry : NullableEntry V} (hnodup : ((entries ++ (key, entry) :: rest).map Prod.fst).Nodup) :
    entries.filter (·.1 ≠ key) = entries ∧ rest.filter (·.1 ≠ key) = rest := by
  rw [List.map_append, List.map_cons, List.nodup_append, List.nodup_cons] at hnodup
  obtain ⟨-, ⟨hrest, -⟩, hne⟩ := hnodup
  constructor
  · refine List.filter_eq_self.mpr fun m hm => decide_eq_true fun heq => ?_
    exact hne m.1 (List.mem_map_of_mem hm) key List.mem_cons_self heq
  · refine List.filter_eq_self.mpr fun m hm => decide_eq_true fun heq => ?_
    have hmem : m.1 ∈ rest.map Prod.fst := List.mem_map_of_mem hm
    exact hrest (heq ▸ hmem)

/-- A read of the key that the iterator has just passed leaves what is ahead of the iterator, but
for the key itself under `lru`, which comes last. -/
theorem drop_getEntry {layer : NullableLayer V} {position : ℕ} {key : String}
    {entry : NullableEntry V} (now : Millis)
    (hkey : layer.entries.entries[position]? = some (key, entry)) :
    (layer.getEntry key now).2 = (if entry.isExpired now then none else some entry.value) ∧
      (layer.getEntry key now).1.entries.entries.drop
          (positionAfterRead layer (position + 1) key now) =
        layer.entries.entries.drop (position + 1) ++
          (if entry.isExpired now = false ∧ layer.evictionPolicy = .lru then
            [(key, entry.accessed)] else []) := by
  have hlt : position < layer.entries.entries.length := by
    rw [List.getElem?_eq_some_iff] at hkey
    exact hkey.1
  have hget : layer.entries.get key = some entry :=
    OrderedMap.get_eq_some_iff.mpr (List.mem_of_getElem? hkey)
  have htake : layer.entries.entries.take (position + 1) =
      layer.entries.entries.take position ++ [(key, entry)] := by
    rw [List.take_add_one, hkey]
    rfl
  have hsplit : layer.entries.entries =
      layer.entries.entries.take position ++
        (key, entry) :: layer.entries.entries.drop (position + 1) := by
    conv_lhs => rw [← List.take_append_drop (position + 1) layer.entries.entries, htake]
    rw [List.append_assoc, List.singleton_append]
  have hnodup := layer.entries.nodup
  rw [hsplit] at hnodup
  obtain ⟨hbehind, hahead⟩ := filter_ne_of_nodup hnodup
  have hposition : ((layer.entries.entries.take (position + 1)).filter (·.1 ≠ key)).length =
      position := by
    rw [htake, List.filter_append, hbehind]
    simp [Nat.min_eq_left hlt.le]
  have hfilter : layer.entries.entries.filter (·.1 ≠ key) =
      layer.entries.entries.take position ++ layer.entries.entries.drop (position + 1) := by
    conv_lhs => rw [hsplit]
    rw [List.filter_append, List.filter_cons, if_neg (by simp), hbehind, hahead]
  have hdrop : ∀ rest : List (String × NullableEntry V),
      (layer.entries.entries.take position ++ rest).drop position = rest := fun rest =>
    List.drop_left' (by simp [Nat.min_eq_left hlt.le])
  unfold positionAfterRead MemoryLayer.getEntry
  simp only [hget]
  by_cases hexpired : entry.isExpired now = true
  · simp only [hexpired, if_true, true_or, Bool.true_eq_false, false_and, if_false, List.append_nil,
      hposition, true_and]
    change (layer.entries.entries.filter (·.1 ≠ key)).drop position = _
    rw [hfilter, hdrop]
  · rw [Bool.not_eq_true] at hexpired
    simp only [hexpired, Bool.false_eq_true, if_false, false_or, true_and]
    cases hpolicy : layer.evictionPolicy with
    | lru =>
      simp only [if_true, hposition, true_and]
      rw [OrderedMap.entries_delete_set, hfilter, List.append_assoc, hdrop]
    | lfu =>
      have hmem : key ∈ layer.entries.keys := OrderedMap.get_isSome_iff.mp (by simp [hget])
      simp only [reduceCtorEq, if_false, List.append_nil, true_and]
      rw [OrderedMap.set, dif_pos hmem, ← List.map_drop]
      refine (List.map_congr_left fun m hm => ?_).trans (List.map_id _)
      rw [← hahead] at hm
      exact if_neg (of_decide_eq_true (List.mem_filter.mp hm).2)
    | fifo => simp

section Loop
variable {layers before after : List (NullableLayer V)} {original : NullableLayer V}
  {maxEntries : Option ℕ} {clock : ℕ → Millis} {s : Exporting V} {visit : LayerVisit V}

def LayerVisit.ahead (visit : LayerVisit V) : List (String × NullableEntry V) :=
  visit.layer.entries.entries.drop visit.position

/-- The keys handed over are the exported ones, and each has been handed over from the first
layer that held it then. -/
structure Exporting.Sound (layers : List (NullableLayer V)) (clock : ℕ → Millis)
    (s : Exporting V) : Prop where
  exported : s.exported = s.handed.map (·.key)
  once : s.exported.Nodup
  first : ∀ record ∈ s.handed, ReadAt layers clock s.ticks record

/-- Of the layers that are done every key is exported or has expired. -/
def Exporting.Settled (before : List (NullableLayer V)) (clock : ℕ → Millis)
    (s : Exporting V) : Prop :=
  ∀ layer ∈ before, ∀ key, ∀ entry ∈ layer.entries.get key,
    key ∈ s.exported ∨ entry.isExpired (clock s.ticks) = true

def Exporting.Within (maxEntries : Option ℕ) (s : Exporting V) : Prop :=
  ∀ limit ∈ maxEntries, s.exported.length ≤ limit

/-- What is ahead of the iterator is from the layer as it was, and what is not ahead of it is
exported or has expired. -/
structure LayerVisit.Walks (original : NullableLayer V) (clock : ℕ → Millis)
    (visit : LayerVisit V) : Prop where
  same : ∀ m ∈ visit.ahead, ∃ entry ∈ original.entries.get m.1,
    m.2.value = entry.value ∧ m.2.expiresAt = entry.expiresAt
  covered : ∀ key, ∀ entry ∈ original.entries.get key, key ∈ visit.state.exported ∨
    entry.isExpired (clock visit.state.ticks) = true ∨ ∃ m ∈ visit.ahead, m.1 = key
  nulls : ∀ key, ∀ entry ∈ original.entries.get key, entry.value = none →
    key ∈ visit.state.exported ∨ entry.isExpired (clock visit.state.ticks) = true

theorem isExpired_congr {entry other : NullableEntry V} (h : entry.expiresAt = other.expiresAt)
    (now : Millis) : entry.isExpired now = other.isExpired now := by
  rw [MemoryEntry.isExpired, MemoryEntry.isExpired, h]

/-- Turns that the loop still has to take: a key that is not exported may come twice. -/
def LayerVisit.work (visit : LayerVisit V) : ℕ :=
  visit.ahead.length + (visit.ahead.filter fun m => m.1 ∉ visit.state.exported).length

/-- What a turn of the loop comes to, once the iterator has passed the key. -/
structure Turned (layers before : List (NullableLayer V)) (original : NullableLayer V)
    (maxEntries : Option ℕ) (clock : ℕ → Millis) (visit visit' : LayerVisit V) : Prop where
  sound : visit'.state.Sound layers clock
  settled : visit'.state.Settled before clock
  within : visit'.state.Within maxEntries
  walks : visit'.Walks original clock
  work : visit'.work < visit.work

theorem Exporting.Settled.mono (h : s.Settled before clock) (hclock : Monotone clock)
    {s' : Exporting V} (hexported : ∀ key ∈ s.exported, key ∈ s'.exported)
    (hticks : s.ticks ≤ s'.ticks) : s'.Settled before clock := by
  intro layer hlayer key entry hentry
  rcases h layer hlayer key entry hentry with hkey | hexpired
  · exact .inl (hexported key hkey)
  · exact .inr (NullableEntry.isExpired_mono hexpired (hclock hticks))

theorem LayerVisit.Walks.mono (h : visit.Walks original clock) (hclock : Monotone clock)
    {visit' : LayerVisit V} (hexported : ∀ key ∈ visit.state.exported, key ∈ visit'.state.exported)
    (hticks : visit.state.ticks ≤ visit'.state.ticks)
    (hahead : ∀ m ∈ visit'.ahead, ∃ m' ∈ visit.ahead, m'.1 = m.1 ∧ m'.2.value = m.2.value ∧
      m'.2.expiresAt = m.2.expiresAt)
    (hpassed : ∀ m ∈ visit.ahead, m.1 ∈ visit'.state.exported ∨
      m.2.isExpired (clock visit'.state.ticks) = true ∨ ∃ m' ∈ visit'.ahead, m'.1 = m.1) :
    visit'.Walks original clock where
  same := by
    intro m hm
    obtain ⟨m', hm', hkey, hvalue, hexpires⟩ := hahead m hm
    obtain ⟨entry, hentry, hvalue', hexpires'⟩ := h.same m' hm'
    exact ⟨entry, hkey ▸ hentry, hvalue.symm.trans hvalue', hexpires.symm.trans hexpires'⟩
  covered := by
    intro key entry hentry
    rcases h.covered key entry hentry with hkey | hexpired | ⟨m, hm, rfl⟩
    · exact .inl (hexported key hkey)
    · exact .inr (.inl (NullableEntry.isExpired_mono hexpired (hclock hticks)))
    · rcases hpassed m hm with hkey | hexpired | hstill
      · exact .inl hkey
      · obtain ⟨entry', hentry', -, hexpires⟩ := h.same m hm
        obtain rfl : entry' = entry := Option.mem_unique hentry' hentry
        exact .inr (.inl (isExpired_congr hexpires _ ▸ hexpired))
      · exact .inr (.inr hstill)
  nulls := by
    intro key entry hentry hvalue
    rcases h.nulls key entry hentry hvalue with hkey | hexpired
    · exact .inl (hexported key hkey)
    · exact .inr (NullableEntry.isExpired_mono hexpired (hclock hticks))

theorem stripGenerationPrefix_none (key : String) :
    stripGenerationPrefix key (none : Option ℕ) = key := by
  simp [stripGenerationPrefix, generationPrefix]

/-- A turn goes on: the key is behind the iterator, or exported and ahead of it again. -/
theorem turned_of {visit' : LayerVisit V} (hclock : Monotone clock)
    (hsettled : visit.state.Settled before clock) (hwalks : visit.Walks original clock)
    {key : String} {entry : NullableEntry V} {rest again : List (String × NullableEntry V)}
    (hahead : visit.ahead = (key, entry) :: rest) (hahead' : visit'.ahead = rest ++ again)
    (hagain : again = [] ∨ again = [(key, entry.accessed)] ∧ key ∉ visit.state.exported ∧
      key ∈ visit'.state.exported)
    (hexported : ∀ key ∈ visit.state.exported, key ∈ visit'.state.exported)
    (hticks : visit.state.ticks ≤ visit'.state.ticks)
    (hpassed : key ∈ visit'.state.exported ∨
      entry.isExpired (clock visit'.state.ticks) = true)
    (hsound : visit'.state.Sound layers clock) (hwithin : visit'.state.Within maxEntries) :
    Turned layers before original maxEntries clock visit visit' where
  sound := hsound
  settled := hsettled.mono hclock hexported hticks
  within := hwithin
  walks := by
    refine hwalks.mono hclock hexported hticks (fun m hm => ?_) fun m hm => ?_
    · rw [hahead', List.mem_append] at hm
      rcases hm with hm | hm
      · exact ⟨m, hahead ▸ List.mem_cons_of_mem _ hm, rfl, rfl, rfl⟩
      · rcases hagain with rfl | ⟨rfl, -, -⟩
        · cases hm
        · obtain rfl := List.mem_singleton.mp hm
          exact ⟨(key, entry), hahead ▸ List.mem_cons_self, rfl, rfl, rfl⟩
    · rw [hahead] at hm
      rcases List.mem_cons.mp hm with rfl | hm
      · exact hpassed.imp_right .inl
      · exact .inr (.inr ⟨m, hahead' ▸ List.mem_append_left _ hm, rfl⟩)
  work := by
    have hrest : (rest.filter fun m => m.1 ∉ visit'.state.exported).length ≤
        (rest.filter fun m => m.1 ∉ visit.state.exported).length := by
      refine List.Sublist.length_le (List.monotone_filter_right _ fun m hm => ?_)
      exact decide_eq_true fun h => of_decide_eq_true hm (hexported _ h)
    rw [LayerVisit.work, LayerVisit.work, hahead, hahead', List.filter_append]
    rcases hagain with rfl | ⟨rfl, hnot, hkey⟩
    · simp only [List.filter_nil, List.append_nil, List.length_cons]
      have hcons : (rest.filter fun m => m.1 ∉ visit.state.exported).length ≤
          (((key, entry) :: rest).filter fun m => m.1 ∉ visit.state.exported).length :=
        ((List.sublist_cons_self _ _).filter _).length_le
      omega
    · simp only [List.length_append, List.length_cons, List.filter_cons, hnot, hkey,
        not_true_eq_false, not_false_eq_true, decide_true, decide_false, if_true,
        Bool.false_eq_true, if_false, List.filter_nil, List.length_nil]
      omega

theorem Exporting.Sound.later {s : Exporting V} (h : s.Sound layers clock) :
    ({ s with ticks := s.ticks + 1 } : Exporting V).Sound layers clock where
  exported := h.exported
  once := h.once
  first record hrecord := (h.first record hrecord).later (Nat.le_succ _)

theorem Exporting.Sound.hand {s : Exporting V} (h : s.Sound layers clock) {key : String}
    {stored : Stored V} (hkey : key ∉ s.exported)
    (hfirst : FirstHolds layers (clock s.ticks) key stored) :
    (⟨s.ticks + 3, s.exported ++ [key], s.handed ++ [⟨key, stored,
        remainingStoredTtlMs (clock (s.ticks + 2)) stored (clock (s.ticks + 1))⟩]⟩ :
      Exporting V).Sound layers clock where
  exported := by
    rw [List.map_append, ← h.exported]
    rfl
  once := by
    refine h.once.append (List.nodup_singleton _) ?_
    intro k hk hmem
    exact hkey (List.mem_singleton.mp hmem ▸ hk)
  first record hrecord := by
    rcases List.mem_append.mp hrecord with hrecord | hrecord
    · exact (h.first record hrecord).later (Nat.le_add_right _ _)
    · obtain rfl := List.mem_singleton.mp hrecord
      exact ⟨s.ticks, Nat.lt_succ_self _, hfirst, rfl⟩

/-- Without a generation prefix the key at the iterator is skipped, or read and perhaps handed
over, and the loop goes on; or it is one too many. -/
theorem visitKey_spec (hlayers : layers = before ++ original :: after) (hclock : Monotone clock)
    (hsound : visit.state.Sound layers clock) (hsettled : visit.state.Settled before clock)
    (hwithin : visit.state.Within maxEntries) (hwalks : visit.Walks original clock)
    {key : String} {entry : NullableEntry V}
    (hkey : visit.layer.entries.entries[visit.position]? = some (key, entry)) :
    ∃ visit', (visitKey (none : Option ℕ) maxEntries clock key
          { visit with position := visit.position + 1 } = (.ok (), visit') ∧
        Turned layers before original maxEntries clock visit visit') ∨
      ∃ message, visitKey (none : Option ℕ) maxEntries clock key
          { visit with position := visit.position + 1 } = (.error message, visit') ∧
        visit'.state.handed = visit.state.handed ∧ visit.state.ticks ≤ visit'.state.ticks ∧
        ∃ limit ∈ maxEntries, visit'.state.handed.length = limit := by
  obtain ⟨hread, hdrop⟩ := drop_getEntry (clock visit.state.ticks) hkey
  have hahead : visit.ahead =
      (key, entry) :: visit.layer.entries.entries.drop (visit.position + 1) := by
    obtain ⟨hlt, hget⟩ := List.getElem?_eq_some_iff.mp hkey
    rw [LayerVisit.ahead, List.drop_eq_getElem_cons hlt, hget]
  unfold visitKey
  simp only [stripGenerationPrefix_none]
  by_cases hexported : key ∈ visit.state.exported
  · rw [if_pos hexported]
    exact ⟨_, .inl ⟨rfl, turned_of hclock hsettled hwalks hahead (List.append_nil _).symm (.inl rfl)
      (fun _ h => h) le_rfl (.inl hexported) hsound hwithin⟩⟩
  rw [if_neg hexported]
  by_cases hexpired : entry.isExpired (clock visit.state.ticks) = true
  · simp only [hexpired, if_true, Bool.true_eq_false, false_and, if_false] at hread hdrop
    simp only [hread, Option.join_none]
    exact ⟨_, .inl ⟨rfl, turned_of hclock hsettled hwalks hahead hdrop (.inl rfl)
      (fun _ h => h) (Nat.le_succ _)
      (.inr (NullableEntry.isExpired_mono hexpired (hclock (Nat.le_succ _)))) hsound.later hwithin⟩⟩
  rw [Bool.not_eq_true] at hexpired
  simp only [hexpired, Bool.false_eq_true, if_false, true_and] at hread hdrop
  -- a live entry whose key is not exported is not `null`
  obtain ⟨entry₀, hentry₀, hvalue₀, hexpires₀⟩ :=
    hwalks.same (key, entry) (hahead ▸ List.mem_cons_self)
  cases hvalue : entry.value with
  | none =>
    rcases hwalks.nulls key entry₀ hentry₀ (hvalue₀ ▸ hvalue) with hmem | hgone
    · exact absurd hmem hexported
    · rw [← isExpired_congr hexpires₀, hexpired] at hgone
      cases hgone
  | some stored =>
    simp only [hread, hvalue, Option.join_some]
    by_cases hlimit : ∃ limit ∈ maxEntries, (visit.state.exported ++ [key]).length > limit
    · rw [if_pos hlimit]
      refine ⟨_, .inr ⟨_, rfl, rfl, Nat.le_succ _, ?_⟩⟩
      obtain ⟨limit, hmem, hlt⟩ := hlimit
      have hle := hwithin limit hmem
      rw [List.length_append, List.length_singleton] at hlt
      rw [hsound.exported, List.length_map] at hle hlt
      exact ⟨limit, hmem, le_antisymm hle (Nat.le_of_lt_succ hlt)⟩
    · rw [if_neg hlimit]
      have hfirst : FirstHolds layers (clock visit.state.ticks) key stored := by
        refine ⟨before, original, after, hlayers, ⟨entry₀, hentry₀, hvalue₀ ▸ hvalue,
          isExpired_congr hexpires₀ _ ▸ hexpired⟩, fun earlier hearlier other hother => ?_⟩
        exact (hsettled earlier hearlier key other hother).resolve_left hexported
      have hticks : visit.state.ticks ≤ visit.state.ticks + 1 + 2 := by omega
      refine ⟨_, .inl ⟨rfl, turned_of hclock hsettled hwalks hahead hdrop ?_
        (fun _ h => List.mem_append_left _ h) hticks
        (.inl (List.mem_append_right _ List.mem_cons_self))
        (hsound.hand hexported hfirst) ?_⟩⟩
      · split
        · exact .inr ⟨rfl, hexported, List.mem_append_right _ List.mem_cons_self⟩
        · exact .inl rfl
      · intro limit hmem
        exact Nat.le_of_not_lt fun hlt => hlimit ⟨limit, hmem, hlt⟩

/-- What is known once the layers are done, or the export has thrown. -/
def Ended (layers done : List (NullableLayer V)) (maxEntries : Option ℕ) (clock : ℕ → Millis)
    (state : Exporting V) : Except String Unit → Prop
  | .ok () => state.Sound layers clock ∧ state.Settled done clock ∧ state.Within maxEntries
  | .error _ => (state.handed.map (·.key)).Nodup ∧
      (∀ record ∈ state.handed, ReadAt layers clock state.ticks record) ∧
      ∃ limit ∈ maxEntries, state.handed.length = limit

/-- The loop over a layer ends, since every turn leaves it less work. -/
theorem forEachKey_spec (hlayers : layers = before ++ original :: after) (hclock : Monotone clock)
    (hsound : visit.state.Sound layers clock) (hsettled : visit.state.Settled before clock)
    (hwithin : visit.state.Within maxEntries) (hwalks : visit.Walks original clock) :
    ∃ outcome state, (∀ turns, visit.work < turns →
        forEachKey (none : Option ℕ) maxEntries clock turns visit = some (outcome, state)) ∧
      Ended layers (before ++ [original]) maxEntries clock state outcome := by
  induction hwork : visit.work using Nat.strong_induction_on generalizing visit with
  | _ work ih =>
    cases hkey : visit.layer.entries.entries[visit.position]? with
    | none =>
      refine ⟨.ok (), visit.state, fun turns hturns => ?_, hsound, ?_, hwithin⟩
      · obtain ⟨turns, rfl⟩ := Nat.exists_eq_succ_of_ne_zero (Nat.ne_zero_of_lt hturns)
        simp only [forEachKey, hkey]
      · intro layer hlayer key entry hentry
        rcases List.mem_append.mp hlayer with hlayer | hlayer
        · exact hsettled layer hlayer key entry hentry
        · obtain rfl := List.mem_singleton.mp hlayer
          rcases hwalks.covered key entry hentry with hmem | hexpired | ⟨m, hm, -⟩
          · exact .inl hmem
          · exact .inr hexpired
          · have hahead : visit.ahead = [] :=
              List.drop_eq_nil_of_le (List.getElem?_eq_none_iff.mp hkey)
            rw [hahead] at hm
            cases hm
    | some m =>
      obtain ⟨key, entry⟩ := m
      obtain ⟨visit', ⟨hvisit, hturned⟩ | ⟨message, hvisit, hhanded, hticks, hlimit⟩⟩ :=
        visitKey_spec hlayers hclock hsound hsettled hwithin hwalks hkey
      · obtain ⟨outcome, state, hloop, hended⟩ := ih visit'.work (hwork ▸ hturned.work)
          hturned.sound hturned.settled hturned.within hturned.walks rfl
        refine ⟨outcome, state, fun turns hturns => ?_, hended⟩
        obtain ⟨turns, rfl⟩ := Nat.exists_eq_succ_of_ne_zero (Nat.ne_zero_of_lt hturns)
        simp only [forEachKey, hkey, hvisit]
        have hless := hturned.work
        exact hloop turns (by omega)
      · refine ⟨.error message, visit'.state, fun turns hturns => ?_, ?_, ?_, hlimit⟩
        · obtain ⟨turns, rfl⟩ := Nat.exists_eq_succ_of_ne_zero
            (Nat.ne_of_gt (Nat.zero_lt_of_lt hturns))
          simp only [forEachKey, hkey, hvisit]
        · rw [hhanded, ← hsound.exported]
          exact hsound.once
        · intro record hrecord
          exact (hsound.first record (hhanded ▸ hrecord)).later hticks

theorem mem_pruned (hclock : Monotone clock) {entries : List (String × NullableEntry V)}
    {m : String × NullableEntry V} (hm : m ∈ entries) (ticks : ℕ) :
    m ∈ pruned clock ticks entries ∨ m.2.isExpired (clock (ticks + entries.length)) = true := by
  induction entries generalizing ticks with
  | nil => cases hm
  | cons entry rest ih =>
    rw [pruned, List.length_cons, Nat.add_comm rest.length, ← Nat.add_assoc]
    rcases List.mem_cons.mp hm with rfl | hm
    · split
      · next hexpired =>
        exact .inr (NullableEntry.isExpired_mono hexpired (hclock (by omega)))
      · exact .inl List.mem_cons_self
    · rcases ih hm (ticks + 1) with hkept | hexpired
      · left
        split
        · exact hkept
        · exact List.mem_cons_of_mem _ hkept
      · exact .inr hexpired

/-- A layer is begun with everything ahead of the iterator that has not expired. Its `null`
entries are shadowed, so they are exported or expired by then. -/
theorem walks_startLayer (hlayers : layers = before ++ original :: after)
    (hshadowed : NullsShadowed layers) (hclock : Monotone clock)
    (hsettled : s.Settled before clock) : (startLayer clock original s).Walks original clock where
  same := by
    intro m hm
    have hmem : m ∈ original.entries.entries := (pruned_sublist _ _ _).subset hm
    exact ⟨m.2, OrderedMap.get_eq_some_iff.mpr hmem, rfl, rfl⟩
  covered := by
    intro key entry hentry
    have hmem : (key, entry) ∈ original.entries.entries := OrderedMap.get_eq_some_iff.mp hentry
    rcases mem_pruned hclock hmem s.ticks with hkept | hexpired
    · exact .inr (.inr ⟨(key, entry), hkept, rfl⟩)
    · exact .inr (.inl hexpired)
  nulls := by
    intro key entry hentry hvalue
    obtain ⟨earlier, hearlier, other, hother, -, houtlasts⟩ :=
      hshadowed before original after hlayers key entry hentry hvalue
    rcases hsettled earlier hearlier key other hother with hmem | hexpired
    · exact .inl hmem
    · refine .inr (NullableEntry.isExpired_mono (houtlasts _ hexpired) (hclock ?_))
      exact Nat.le_add_right _ _

theorem visitLayers_spec (hshadowed : NullsShadowed layers) (hclock : Monotone clock)
    {rest : List (NullableLayer V)} (hlayers : layers = before ++ rest)
    (hsound : s.Sound layers clock) (hsettled : s.Settled before clock)
    (hwithin : s.Within maxEntries) :
    ∃ outcome state enough, (∀ turns, enough ≤ turns →
        visitLayers (none : Option ℕ) maxEntries clock turns rest s = some (outcome, state)) ∧
      Ended layers layers maxEntries clock state outcome := by
  induction rest generalizing before s with
  | nil =>
    rw [List.append_nil] at hlayers
    exact ⟨.ok (), s, 0, fun _ _ => rfl, hsound, hlayers ▸ hsettled, hwithin⟩
  | cons layer rest ih =>
    have hticks : s.ticks ≤ s.ticks + layer.entries.size := Nat.le_add_right _ _
    have hsound' : (startLayer clock layer s).state.Sound layers clock :=
      ⟨hsound.exported, hsound.once,
        fun record hrecord => (hsound.first record hrecord).later hticks⟩
    obtain ⟨outcome, state, hloop, hended⟩ := forEachKey_spec hlayers hclock hsound'
      (hsettled.mono hclock (fun _ h => h) hticks) hwithin
      (walks_startLayer hlayers hshadowed hclock hsettled)
    match outcome, hended with
    | .ok (), ⟨hsound, hsettled, hwithin⟩ =>
      obtain ⟨outcome, final, enough, hrest, hended⟩ := ih
        (by rw [hlayers, List.append_assoc, List.singleton_append]) hsound hsettled hwithin
      refine ⟨outcome, final, max enough ((startLayer clock layer s).work + 1),
        fun turns hturns => ?_, hended⟩
      rw [visitLayers, hloop turns (by omega)]
      exact hrest turns (by omega)
    | .error message, hended =>
      refine ⟨.error message, state, (startLayer clock layer s).work + 1,
        fun turns hturns => ?_, hended⟩
      rw [visitLayers, hloop turns (by omega)]

/-- Where all `null` entries are shadowed every export is exact. -/
theorem exportsExactly_of_shadowed (hshadowed : NullsShadowed layers) : ExportsExactly layers := by
  intro clock maxEntries hclock
  have hsound : (⟨0, [], []⟩ : Exporting V).Sound layers clock :=
    ⟨rfl, List.nodup_nil, fun _ h => nomatch h⟩
  have hsettled : (⟨0, [], []⟩ : Exporting V).Settled [] clock := fun _ h => nomatch h
  have hwithin : (⟨0, [], []⟩ : Exporting V).Within maxEntries := fun _ _ => Nat.zero_le _
  obtain ⟨outcome, state, enough, hrun, hended⟩ := visitLayers_spec hshadowed hclock
    (List.nil_append layers).symm hsound hsettled hwithin
  refine ⟨outcome, state, ⟨enough, hrun⟩, ?_⟩
  match outcome, hended with
  | .ok (), ⟨hsound, hsettled, _⟩ =>
    refine ⟨hsound.exported ▸ hsound.once, hsound.first, ?_, .inl rfl⟩
    intro _ layer hlayer key entry hentry hlive
    rw [← hsound.exported]
    refine (hsettled layer hlayer key entry hentry).resolve_right fun hexpired => ?_
    rw [hlive] at hexpired
    cases hexpired
  | .error message, ⟨honce, hfirst, hlimit⟩ =>
    exact ⟨honce, hfirst, fun h => (nomatch h), .inr hlimit⟩

end Loop

/-- Entries that each expire at some time when another is still live have all expired at such a
time. -/
theorem exists_live {key : String} {entry : NullableEntry V} {before : List (NullableLayer V)}
    (h : ∀ earlier ∈ before, ∀ other ∈ earlier.entries.get key, other.value ≠ none →
      ∃ now, other.isExpired now = true ∧ entry.isExpired now = false) :
    ∃ now, entry.isExpired now = false ∧ ∀ earlier ∈ before, ∀ other ∈ earlier.entries.get key,
      other.value ≠ none → other.isExpired now = true := by
  induction before with
  | nil =>
    refine ⟨(entry.expiresAt.getD 0) - 1, ?_, nofun⟩
    cases hexpires : entry.expiresAt with
    | none => simp [MemoryEntry.isExpired, hexpires]
    | some expiresAt => simp [MemoryEntry.isExpired, hexpires]
  | cons layer before ih =>
    rw [List.forall_mem_cons] at h
    obtain ⟨now, hlive, hexpired⟩ := ih h.2
    by_cases hother : ∃ other ∈ layer.entries.get key, other.value ≠ none
    · obtain ⟨other, hget, hvalue⟩ := hother
      obtain ⟨now', hexpired', hlive'⟩ := h.1 other hget hvalue
      refine ⟨max now now', ?_, List.forall_mem_cons.mpr ⟨fun other' hget' _ => ?_, ?_⟩⟩
      · rcases max_choice now now' with hmax | hmax
        · rwa [hmax]
        · rwa [hmax]
      · obtain rfl : other = other' := Option.mem_unique hget hget'
        exact NullableEntry.isExpired_mono hexpired' (le_max_right _ _)
      · exact fun earlier hearlier other hget hvalue =>
          NullableEntry.isExpired_mono (hexpired earlier hearlier other hget hvalue)
            (le_max_left _ _)
    · refine ⟨now, hlive, List.forall_mem_cons.mpr ⟨fun other hget hvalue => ?_, hexpired⟩⟩
      exact absurd ⟨other, hget, hvalue⟩ hother

/-- A `null` that no earlier layer shadows is never handed over, though it may be the first entry
that is left under its key. -/
theorem shadowed_of_exportsExactly {layers : List (NullableLayer V)} (h : ExportsExactly layers) :
    NullsShadowed layers := by
  intro before layer after hlayers key entry hentry hnull
  by_contra! hbare
  obtain ⟨now, hlive, hexpired⟩ := exists_live fun earlier hearlier other hother hvalue => by
    obtain ⟨now, hother, hentry⟩ := hbare earlier hearlier other hother hvalue
    exact ⟨now, hother, eq_false_of_ne_true hentry⟩
  obtain ⟨outcome, state, -, hexact⟩ := h (fun _ => now) none monotone_const
  have hok : outcome = .ok () := hexact.limited.resolve_right fun ⟨limit, hmem, _⟩ => nomatch hmem
  have hmem : layer ∈ layers := hlayers ▸ List.mem_append_right _ List.mem_cons_self
  obtain ⟨handed, hhanded, rfl⟩ :=
    List.mem_map.mp (hexact.complete hok layer hmem key entry hentry hlive)
  obtain ⟨tick, -, ⟨before', layer', after', hlayers', ⟨entry', hentry', hvalue', hlive'⟩, hgone⟩,
    -⟩ := hexact.first handed hhanded
  -- the layer it is from is this one, or a later one, or an earlier one
  rcases List.append_eq_append_iff.mp (hlayers.symm.trans hlayers') with
    ⟨between, hbefore, hsplit⟩ | ⟨between, hbefore, hsplit⟩
  · cases between with
    | nil =>
      obtain ⟨rfl, -⟩ := List.cons.inj hsplit
      obtain rfl : entry = entry' := Option.mem_unique hentry hentry'
      rw [hnull] at hvalue'
      cases hvalue'
    | cons other between =>
      obtain ⟨rfl, -⟩ := List.cons.inj hsplit
      have hexpired :=
        hgone layer (hbefore ▸ List.mem_append_right _ List.mem_cons_self) entry hentry
      rw [hlive] at hexpired
      cases hexpired
  · cases between with
    | nil =>
      obtain ⟨rfl, -⟩ := List.cons.inj hsplit
      obtain rfl : entry = entry' := Option.mem_unique hentry hentry'
      rw [hnull] at hvalue'
      cases hvalue'
    | cons other between =>
      obtain ⟨rfl, -⟩ := List.cons.inj hsplit
      have hgone' := hexpired layer' (hbefore ▸ List.mem_append_right _ List.mem_cons_self) entry'
        hentry' (by rw [hvalue']; exact Option.some_ne_none _)
      rw [hlive'] at hgone'
      cases hgone'

/-- Exports from the layers end and are exact exactly when no `null` is left first under its
key. -/
theorem exportsExactly_iff (layers : List (NullableLayer V)) :
    ExportsExactly layers ↔ NullsShadowed layers :=
  ⟨shadowed_of_exportsExactly, exportsExactly_of_shadowed⟩

/-- The iterator of an `lru` layer comes to a `null` again and again. -/
theorem forEachKey_null {visit : LayerVisit V} {entry : NullableEntry V} (turns : ℕ)
    (hentries : visit.layer.entries.entries = [("a", entry)]) (hnull : entry.value = none)
    (hexpires : entry.expiresAt = none) (hlru : visit.layer.evictionPolicy = .lru)
    (hposition : visit.position = 0) (hexported : visit.state.exported = []) :
    forEachKey (none : Option ℕ) none (fun _ => 0) turns visit = none := by
  induction turns generalizing visit entry with
  | zero => rfl
  | succ turns ih =>
    have hget : visit.layer.entries.get "a" = some entry :=
      OrderedMap.get_eq_some_iff.mpr (hentries ▸ List.mem_cons_self)
    have hlive : entry.isExpired 0 = false := by simp [MemoryEntry.isExpired, hexpires]
    have hread : visit.layer.getEntry "a" 0 = ({ visit.layer with
        entries := (visit.layer.entries.delete "a").set "a" entry.accessed }, some none) := by
      simp [MemoryLayer.getEntry, hget, hlive, hlru, hnull]
    rw [forEachKey, hposition, hentries]
    simp only [List.getElem?_cons_zero, visitKey, stripGenerationPrefix_none, hexported,
      List.not_mem_nil, if_false, hread, Option.join_some]
    refine @ih _ entry.accessed ?_ hnull hexpires hlru ?_ rfl
    · rw [OrderedMap.entries_delete_set, hentries]
      simp
    · simp [positionAfterRead, hget, hlru, hentries]

/-- One `lru` layer that has been given `null` to hold. -/
def nullLayer : NullableLayer String :=
  ((MemoryLayer.create none 1000 .lru : NullableLayer String).set ⟨"a", none, none, 0, 0⟩).1

theorem not_exportsExactly_null : ¬ ExportsExactly [nullLayer] := by
  intro h
  obtain ⟨outcome, state, ⟨enough, hrun⟩, -⟩ := h (fun _ => 0) none monotone_const
  have hnever :
      visitExportEntries (none : Option ℕ) none (fun _ => 0) enough [nullLayer] = none := by
    have hloop : forEachKey (none : Option ℕ) none (fun _ => 0) enough
        (startLayer (fun _ => 0) nullLayer ⟨0, [], []⟩) = none :=
      forEachKey_null enough rfl rfl rfl rfl rfl rfl
    rw [visitExportEntries, visitLayers, hloop]
  rw [hrun enough le_rfl] at hnever
  cases hnever

end LayerCache.Snapshot
