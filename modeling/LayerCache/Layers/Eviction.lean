import LayerCache.Layers.Memory

/-! # The eviction that makes room

A write evicts after it has inserted. Under `lru` and `fifo` the entry just written comes last
and stays. Under `lfu` it has not been read yet, and a layer whose other entries have all been
read evicts it.
-/

namespace LayerCache.MemoryLayer

variable {V T : Type} [LinearOrder T] [Zero T] [Add T] {layer : MemoryLayer V T}
  {write : MemoryWrite V T}

/-- The layers that any operations lead to. `setMany`, `getMany` and `deleteMany` are several. -/
inductive Reachable (defaultTtl : Option T) (maxSize : ℚ) (evictionPolicy : EvictionPolicy) :
    MemoryLayer V T → Prop
  | create : Reachable defaultTtl maxSize evictionPolicy (.create defaultTtl maxSize evictionPolicy)
  | getEntry {layer : MemoryLayer V T} (key : String) (now : T)
      (h : Reachable defaultTtl maxSize evictionPolicy layer) :
      Reachable defaultTtl maxSize evictionPolicy (layer.getEntry key now).1
  | has {layer : MemoryLayer V T} (key : String) (now : T)
      (h : Reachable defaultTtl maxSize evictionPolicy layer) :
      Reachable defaultTtl maxSize evictionPolicy (layer.has key now).1
  | set {layer : MemoryLayer V T} (write : MemoryWrite V T)
      (h : Reachable defaultTtl maxSize evictionPolicy layer) :
      Reachable defaultTtl maxSize evictionPolicy (layer.set write).1
  | delete {layer : MemoryLayer V T} (key : String)
      (h : Reachable defaultTtl maxSize evictionPolicy layer) :
      Reachable defaultTtl maxSize evictionPolicy (layer.delete key)
  | clear {layer : MemoryLayer V T} (h : Reachable defaultTtl maxSize evictionPolicy layer) :
      Reachable defaultTtl maxSize evictionPolicy layer.clear
  | pruneExpired {layer : MemoryLayer V T} (now : T)
      (h : Reachable defaultTtl maxSize evictionPolicy layer) :
      Reachable defaultTtl maxSize evictionPolicy (layer.pruneExpired now)
  | importState {layer : MemoryLayer V T} (records : List (Record V T))
      (h : Reachable defaultTtl maxSize evictionPolicy layer) :
      Reachable defaultTtl maxSize evictionPolicy (layer.importState records).1

section Reachable

variable {defaultTtl : Option T} {maxSize : ℚ} {evictionPolicy : EvictionPolicy}

theorem Reachable.sameOptions (h : Reachable defaultTtl maxSize evictionPolicy layer) :
    SameOptions (.create defaultTtl maxSize evictionPolicy) layer := by
  induction h with
  | create => exact .refl _
  | getEntry key now _ ih => exact ih.trans (sameOptions_getEntry key now)
  | has key now _ ih => exact ih.trans (sameOptions_has key now)
  | set write _ ih => exact ih.trans sameOptions_set
  | delete key _ ih => exact ih.trans ⟨rfl, rfl, rfl⟩
  | clear _ ih => exact ih.trans ⟨rfl, rfl, rfl⟩
  | pruneExpired now _ ih => exact ih.trans ⟨rfl, rfl, rfl⟩
  | importState records _ ih => exact ih.trans (sameOptions_importState records)

theorem Reachable.bounded (h : Reachable defaultTtl maxSize evictionPolicy layer)
    (hmax : 1 ≤ maxSize) : layer.Bounded := by
  induction h with
  | create => exact bounded_create hmax
  | getEntry key now _ ih => exact ih.mono (sameOptions_getEntry key now) (size_getEntry_le key now)
  | has key now _ ih => exact ih.mono (sameOptions_has key now) (size_has_le key now)
  | set write h _ =>
    have hsize := h.sameOptions.2.1
    exact bounded_set (hsize ▸ hmax)
  | delete key _ ih => exact ih.mono ⟨rfl, rfl, rfl⟩ OrderedMap.size_delete_le
  | clear _ ih => exact ih.mono ⟨rfl, rfl, rfl⟩ (Nat.zero_le _)
  | pruneExpired now _ ih => exact ih.mono ⟨rfl, rfl, rfl⟩ (List.length_filter_le _ _)
  | importState records h _ =>
    apply bounded_shrink
    have hsize := (h.sameOptions.trans (sameOptions_importEntries records)).2.1
    rw [hsize]
    exact zero_le_one.trans hmax

end Reachable

/-- Some entry comes no later than the new one in the order of `lfu`. -/
def YieldsTo (layer : MemoryLayer V T) (write : MemoryWrite V T) : Prop :=
  ∃ entry ∈ layer.entries.entries, entry.2.accessCount = 0 ∧ entry.2.insertedAt ≤ write.insertedAt

/-- What keeps the entry of a write from being evicted by it. -/
def KeepsWrite (layer : MemoryLayer V T) (write : MemoryWrite V T) : Prop :=
  layer.evictionPolicy ≠ .lfu ∨ write.key ∈ layer.entries.keys ∨
    (layer.entries.size + 1 : ℚ) ≤ layer.maxSize ∨ layer.YieldsTo write

theorem yieldsTo_iff : layer.YieldsTo write ↔
    ∃ entry ∈ layer.entries.entries, entry.2.rank ≤ (layer.newEntry write).rank := by
  simp only [YieldsTo, MemoryEntry.rank, newEntry, Prod.Lex.toLex_le_toLex, Nat.not_lt_zero,
    false_or]

theorem head_insert_ne (hsize : 1 < (layer.insert write).entries.size) :
    ∀ entry ∈ (layer.insert write).entries.entries.head?, entry.1 ≠ write.key := by
  rw [OrderedMap.size, entries_insert, List.length_append, List.length_singleton] at hsize
  rw [entries_insert]
  cases hfilter : layer.entries.entries.filter (·.1 ≠ write.key) with
  | nil =>
    rw [hfilter] at hsize
    exact absurd hsize (lt_irrefl 1)
  | cons first rest =>
    intro entry hentry
    cases hentry
    have hmem : first ∈ layer.entries.entries.filter (·.1 ≠ write.key) := by
      rw [hfilter]
      exact List.mem_cons_self
    simpa using (List.mem_filter.mp hmem).2

theorem victim_insert_lfu (hpolicy : layer.evictionPolicy = .lfu)
    (hkey : write.key ∉ layer.entries.keys) (hne : layer.entries.entries ≠ []) :
    (∃ entry, (layer.insert write).victim = some entry ∧ entry.1 = write.key) ↔
      ¬ layer.YieldsTo write := by
  have hvictim : (layer.insert write).victim =
      leastUsed (layer.entries.entries ++ [(write.key, layer.newEntry write)]) := by
    have hpolicy' : (layer.insert write).evictionPolicy = .lfu := hpolicy
    have hfilter : layer.entries.entries.filter (·.1 ≠ write.key) = layer.entries.entries :=
      congrArg OrderedMap.entries (OrderedMap.delete_of_not_mem hkey)
    rw [MemoryLayer.victim, hpolicy', entries_insert, hfilter]
  rw [hvictim, leastUsed_append, yieldsTo_iff]
  cases hleast : leastUsed layer.entries.entries with
  | none => exact absurd (leastUsed_eq_none.mp hleast) hne
  | some least =>
    have hmem := leastUsed_mem hleast
    have hleastKey : least.1 ≠ write.key := fun heq => hkey (heq ▸ List.mem_map_of_mem hmem)
    have hiff : (∃ entry ∈ layer.entries.entries, entry.2.rank ≤ (layer.newEntry write).rank) ↔
        least.2.rank ≤ (layer.newEntry write).rank := by
      constructor
      · rintro ⟨entry, hentry, hle⟩
        exact (leastUsed_rank_le hleast entry hentry).trans hle
      · exact fun hle => ⟨least, hmem, hle⟩
    rw [hiff, not_le, ← MemoryEntry.before_iff]
    by_cases hbefore : (layer.newEntry write).Before least.2
    · simp [hbefore]
    · simp [hbefore, hleastKey]

def Stays (layer : MemoryLayer V T) (write : MemoryWrite V T) : Prop :=
  layer.maxSize < (layer.insert write).entries.size →
    ∀ entry, (layer.insert write).victim = some entry → entry.1 ≠ write.key

theorem stays_iff (hbounded : layer.Bounded) (hmax : 1 ≤ layer.maxSize) :
    layer.Stays write ↔ layer.KeepsWrite write := by
  have hsize : (layer.insert write).entries.size =
      if write.key ∈ layer.entries.keys then layer.entries.size else layer.entries.size + 1 :=
    size_insert
  by_cases hkey : write.key ∈ layer.entries.keys
  · have hle : ((layer.insert write).entries.size : ℚ) ≤ layer.maxSize := by
      rw [hsize, if_pos hkey]
      exact hbounded
    exact iff_of_true (fun hover => absurd hle (not_le.mpr hover)) (.inr (.inl hkey))
  rw [if_neg hkey] at hsize
  have hcast : ((layer.insert write).entries.size : ℚ) = layer.entries.size + 1 := by
    rw [hsize]
    push_cast
    rfl
  rw [Stays, hcast]
  by_cases hover : layer.maxSize < layer.entries.size + 1
  · have hone : 1 < (layer.insert write).entries.size := by
      rw [← hcast] at hover
      exact_mod_cast hmax.trans_lt hover
    by_cases hpolicy : layer.evictionPolicy = .lfu
    · have hne : layer.entries.entries ≠ [] := by
        intro hnil
        rw [hsize, OrderedMap.size, hnil] at hone
        exact absurd hone (lt_irrefl 1)
      have hvictim := victim_insert_lfu hpolicy hkey hne
      simp only [KeepsWrite, hpolicy, hkey, not_le.mpr hover, hover, ne_eq, not_true_eq_false,
        false_or, forall_const]
      rw [← not_iff_not, ← hvictim]
      simp
    · refine iff_of_true ?_ (.inl hpolicy)
      intro _ entry hentry
      apply head_insert_ne hone
      have hpolicy' : (layer.insert write).evictionPolicy ≠ .lfu := hpolicy
      rw [MemoryLayer.victim] at hentry
      split at hentry
      · exact hentry
      · exact hentry
      · rename_i hlfu
        exact absurd hlfu hpolicy'
  · have hle := not_lt.mp hover
    exact iff_of_true (fun h => absurd h hover) (.inr (.inr (.inl hle)))

theorem get_set (hbounded : layer.Bounded) :
    (layer.Stays write → (layer.set write).1.entries.get write.key = some (layer.newEntry write)) ∧
      (¬ layer.Stays write → (layer.set write).1.entries.get write.key = none) := by
  have hinsert : (layer.insert write).entries.get write.key = some (layer.newEntry write) :=
    OrderedMap.get_set_self
  rw [set_eq hbounded, Stays]
  split
  case isTrue hover =>
    rw [evict]
    split
    case h_1 key entry hvictim =>
      constructor
      · intro hstays
        have hne : key ≠ write.key := hstays hover (key, entry) hvictim
        rw [OrderedMap.get_delete_of_ne (Ne.symm hne), hinsert]
      · intro hnot
        have heq : key = write.key := by
          by_contra hne
          refine hnot fun _ other hother => ?_
          rw [hvictim] at hother
          cases hother
          exact hne
        rw [heq, OrderedMap.get_delete_self]
    case h_2 hnone =>
      refine ⟨fun _ => hinsert, fun hnot => absurd ?_ hnot⟩
      intro _ entry hentry
      rw [hnone] at hentry
      cases hentry
  case isFalse hfits =>
    exact ⟨fun _ => hinsert, fun hnot => absurd (fun hover => absurd hover hfits) hnot⟩

/-- A read before the entry expires finds what was written, just where the write does not
evict its own entry. -/
theorem readsBack_iff {defaultTtl : Option T} {maxSize : ℚ} {evictionPolicy : EvictionPolicy}
    (h : Reachable defaultTtl maxSize evictionPolicy layer) (hmax : 1 ≤ maxSize) {later : T}
    (hlive : ¬ (layer.newEntry write).isExpired later) :
    ((layer.set write).1.getEntry write.key later).2 = some write.value ↔
      layer.KeepsWrite write := by
  have hbounded := h.bounded hmax
  have hmax' : 1 ≤ layer.maxSize := h.sameOptions.2.1.symm ▸ hmax
  rw [← stays_iff hbounded hmax']
  obtain ⟨hkept, hlost⟩ : (layer.Stays write → _) ∧ (¬ layer.Stays write → _) := get_set hbounded
  constructor
  · intro hread
    by_contra hnot
    rw [getEntry, hlost hnot] at hread
    cases hread
  · intro hstays
    rw [getEntry, hkept hstays]
    simp only [hlive, Bool.false_eq_true, if_false]
    split <;> rfl

def readOnce (evictionPolicy : EvictionPolicy) : MemoryLayer ℕ ℤ :=
  let layer := create none 1 evictionPolicy
  ((layer.set ⟨"first", 1, none, 0, 0⟩).1.getEntry "first" 1).1

theorem reachable_readOnce (evictionPolicy : EvictionPolicy) :
    Reachable none 1 evictionPolicy (readOnce evictionPolicy) :=
  (Reachable.create.set _).getEntry _ _

theorem readsBack_iff_readOnce :
    (((readOnce .fifo).set ⟨"second", 2, none, 2, 2⟩).1.getEntry "second" 3).2 = some 2 ↔
      (readOnce .fifo).KeepsWrite ⟨"second", 2, none, 2, 2⟩ :=
  readsBack_iff (reachable_readOnce .fifo) le_rfl (by decide)

/-- The entry in the layer has been read, so the new one goes. -/
theorem not_readsBack_lfu : Reachable none 1 .lfu (readOnce .lfu) ∧
    ((readOnce .lfu).newEntry ⟨"second", 2, none, 2, 2⟩).isExpired 3 = false ∧
    (((readOnce .lfu).set ⟨"second", 2, none, 2, 2⟩).1.getEntry "second" 3).2 ≠ some 2 :=
  ⟨reachable_readOnce .lfu, by decide, by decide +kernel⟩

end LayerCache.MemoryLayer
