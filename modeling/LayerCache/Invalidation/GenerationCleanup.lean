import LayerCache.Collections.Counting
import LayerCache.Invalidation.Discovery
import LayerCache.Layers.Memory
import LayerCache.Transition.Run

/-! # The cleanup of a generation

The keys of an old generation are deleted in batches while the search that finds them goes on: the
walk over the trie of the index, and then the iterations over the maps of the layers, which take
turns.
-/

namespace LayerCache

open Namespaced (startsWith)
open Snapshot (generationPrefix)

structure GenerationCleanup where
  batchSize : ℚ
  batchSize_pos : 0 < batchSize
  /-- `none` is a limit turned off. -/
  maxMatches : Option ℚ
  maxMatches_pos : ∀ m ∈ maxMatches, 0 < m

structure Cleanup (V : Type) where
  layers : List (MemoryLayer V Millis)
  tagIndex : MemoryTagIndex
  batch : List String
  /-- The keys that the visitor has been called with. -/
  visited : List String

namespace Cleanup

variable {V : Type} (s : Cleanup V)

def start (layers : List (MemoryLayer V Millis)) (tagIndex : MemoryTagIndex) : Cleanup V :=
  ⟨layers, tagIndex, [], []⟩

def knownKeys : List String := s.tagIndex.known.knownKeys.keys

/-- Memory layers delete all keys at once, and nothing reads the index meanwhile. -/
def deleteKeys (keys : List String) : Cleanup V :=
  if keys.length = 0 then s
  else
    { s with
      layers := s.layers.map fun layer => layer.deleteMany keys
      tagIndex := keys.foldl MemoryTagIndex.remove s.tagIndex }

def flushBatch : Cleanup V :=
  if s.batch.length = 0 then s else { s with batch := [] }.deleteKeys s.batch

def visitKey (options : GenerationCleanup) (key : String) (s : Cleanup V) : Cleanup V :=
  let s := { s with batch := s.batch ++ [key], visited := s.visited ++ [key] }
  if options.batchSize ≤ s.batch.length then s.flushBatch else s

def pruneExpired (now : Millis) : Cleanup V :=
  { s with layers := s.layers.map fun layer => layer.pruneExpired now }

end Cleanup

structure Scans (V : Type) where
  search : Search (Cleanup V)
  /-- What the iterator of each layer has yet to come to. -/
  remaining : ℕ → List String
  /-- What the first iteration to fail has failed with. -/
  error : Option LimitError

namespace GenerationCleanup

variable {V : Type} (options : GenerationCleanup)

def visit : String → Search (Cleanup V) →
    Except (LimitError × Search (Cleanup V)) (Search (Cleanup V)) :=
  LayerCache.visit options.maxMatches (Cleanup.visitKey options)

def searchIndex (pre : String) (s : Cleanup V) :
    Option (Except (LimitError × Search (Cleanup V)) (Search (Cleanup V))) :=
  KnownKeys.forEachKeyForPrefix (fun s : Search (Cleanup V) => s.state.tagIndex.known)
    options.visit pre ⟨[], s⟩

/-- All iterations begin together, each after its layer has dropped what has expired. -/
def startScans (now : Millis) (search : Search (Cleanup V)) : Scans V :=
  let state := search.state.pruneExpired now
  { search := { search with state }
    remaining := fun i => (state.layers[i]?.map fun layer => layer.entries.keys).getD []
    error := none }

/-- The iterator of a layer comes to its next key. It passes over those that have been deleted,
and where the limit is exceeded it comes to no more. -/
def advance (pre : String) (s : Scans V) (i : ℕ) : Option (Scans V) :=
  match s.remaining i with
  | [] => none
  | key :: rest =>
    if (∃ layer ∈ s.search.state.layers[i]?, key ∈ layer.entries.keys) ∧
        startsWith key pre = true then
      match options.visit key s.search with
      | .ok search => some { s with search, remaining := Function.update s.remaining i rest }
      | .error (error, search) => some
          { search
            remaining := Function.update s.remaining i []
            error := s.error.or (some error) }
    else some { s with remaining := Function.update s.remaining i rest }

/-- The iterations begin where the search of the index has not failed. -/
def startCleanup (now : Millis) (pre : String) (s : Cleanup V) : Option (Scans V) :=
  (options.searchIndex pre s).map fun
    | .ok search => startScans now search
    | .error (error, search) => { search, remaining := fun _ => [], error := some error }

/-- `cleanupGeneration` up to its last batch, with the order in which the iterators of the layers
take their turns. -/
def cleanupGeneration (now : Millis) (generation : Keys.Number) (s : Cleanup V)
    (turns : List ℕ) : Option (Scans V) :=
  let pre := generationPrefix (some generation)
  (options.startCleanup now pre s).bind fun s => Transition.run (options.advance pre) s turns

def finish (s : Scans V) : Except LimitError Unit × Cleanup V :=
  match s.error with
  | none => (.ok (), s.search.state.flushBatch)
  | some error => (.error error, s.search.state)

end GenerationCleanup

namespace Cleanup

variable {V : Type} (stack : Cleanup V) (now : Millis)

/-- What the layers have under a key that has not expired. -/
def cells (key : String) : List (Option (MemoryEntry V Millis)) :=
  stack.layers.map fun layer => (layer.entries.get key).filter fun entry => !entry.isExpired now

def Has (key : String) : Prop :=
  key ∈ stack.knownKeys ∨ ∃ layer ∈ stack.layers, ∃ entry,
    layer.entries.get key = some entry ∧ entry.isExpired now = false

/-- Keys to be found have been visited, each once and no more than the limit, and all that is known
or stored under other keys is as before. -/
structure Orderly (options : GenerationCleanup) (all : Finset String) (s : Cleanup V) : Prop where
  nodup : s.visited.Nodup
  mem : ∀ key ∈ s.visited, key ∈ all
  within : Within options.maxMatches s.visited.length
  known : ∀ key, key ∉ s.visited → (key ∈ s.knownKeys ↔ key ∈ stack.knownKeys)
  tags : ∀ key, key ∉ s.visited → ∀ tag,
    tag ∈ s.tagIndex.tagsForKey key ↔ tag ∈ stack.tagIndex.tagsForKey key
  cells : ∀ key, key ∉ s.visited → s.cells now key = stack.cells now key

structure Cleared (pre : String) (s : Cleanup V) : Prop where
  known : ∀ key, startsWith key pre = true → key ∉ s.knownKeys
  layers : ∀ key, startsWith key pre = true → ∀ layer ∈ s.layers, key ∉ layer.entries.keys
  tags : ∀ key ∈ s.visited, ∀ tag, tag ∉ s.tagIndex.tagsForKey key

variable {stack now} {base s : Cleanup V} {options : GenerationCleanup} {visited : List String}
  {key : String}

/-- All visited keys but those of the last batch have been deleted, and nothing else. -/
def After (base : Cleanup V) (visited : List String) (s : Cleanup V) : Prop :=
  s.visited = visited ∧ ∃ flushed, visited = flushed ++ s.batch ∧
    s.layers = base.layers.map (fun layer => layer.deleteMany flushed) ∧
    s.tagIndex = flushed.foldl MemoryTagIndex.remove base.tagIndex

theorem after_start (layers : List (MemoryLayer V Millis)) (tagIndex : MemoryTagIndex) :
    After (start layers tagIndex) [] (start layers tagIndex) := by
  refine ⟨rfl, [], rfl, ?_, rfl⟩
  simp [start, MemoryLayer.deleteMany]

theorem After.flushBatch (h : After base visited s) : After base visited s.flushBatch := by
  obtain ⟨hvisited, flushed, hflushed, hlayers, hindex⟩ := h
  unfold Cleanup.flushBatch
  split
  case isTrue => exact ⟨hvisited, flushed, hflushed, hlayers, hindex⟩
  case isFalse hne =>
    rw [deleteKeys, if_neg hne]
    refine ⟨hvisited, visited, (List.append_nil _).symm, ?_, ?_⟩
    · simp only [hlayers, hflushed, List.map_map, Function.comp_def, MemoryLayer.deleteMany_append]
    · simp only [hindex, hflushed, List.foldl_append]

theorem batch_flushBatch : s.flushBatch.batch = [] := by
  unfold flushBatch
  split
  case isTrue hnil => exact List.length_eq_zero_iff.mp hnil
  case isFalse hne =>
    rw [deleteKeys, if_neg hne]

theorem After.visitKey (h : After base visited s) (key : String) :
    After base (visited ++ [key]) (Cleanup.visitKey options key s) := by
  obtain ⟨rfl, flushed, hflushed, hlayers, hindex⟩ := h
  have hnext : After base (s.visited ++ [key])
      { s with batch := s.batch ++ [key], visited := s.visited ++ [key] } := by
    refine ⟨rfl, flushed, ?_, hlayers, hindex⟩
    rw [hflushed, List.append_assoc]
  unfold Cleanup.visitKey
  simp only
  split
  · exact hnext.flushBatch
  · exact hnext

theorem After.pruneExpired (h : After base visited s) (now : Millis) :
    After (base.pruneExpired now) visited (s.pruneExpired now) := by
  obtain ⟨hvisited, flushed, hflushed, hlayers, hindex⟩ := h
  refine ⟨hvisited, flushed, hflushed, ?_, hindex⟩
  simp only [Cleanup.pruneExpired, hlayers, List.map_map, Function.comp_def,
    MemoryLayer.pruneExpired_deleteMany]

theorem After.known_iff (h : After base visited s) (hkey : key ∉ visited) :
    key ∈ s.knownKeys ↔ key ∈ base.knownKeys := by
  obtain ⟨-, flushed, rfl, -, hindex⟩ := h
  have hnot : key ∉ flushed := fun hmem => hkey (List.mem_append_left _ hmem)
  rw [knownKeys, hindex, MemoryTagIndex.mem_known_foldl_remove]
  exact and_iff_right hnot

theorem After.known_of_mem (h : After base visited s) (hkey : key ∈ s.knownKeys) :
    key ∈ base.knownKeys := by
  obtain ⟨-, flushed, -, -, hindex⟩ := h
  rw [knownKeys, hindex, MemoryTagIndex.mem_known_foldl_remove] at hkey
  exact hkey.2

/-- What an iterator passes over has been visited. -/
theorem After.mem_layer_iff (h : After base visited s) (hkey : key ∉ visited) (i : ℕ) :
    (∃ layer ∈ s.layers[i]?, key ∈ layer.entries.keys) ↔
      ∃ layer ∈ base.layers[i]?, key ∈ layer.entries.keys := by
  obtain ⟨-, flushed, rfl, hlayers, -⟩ := h
  have hnot : key ∉ flushed := fun hmem => hkey (List.mem_append_left _ hmem)
  rw [hlayers, List.getElem?_map]
  cases base.layers[i]? <;> simp [MemoryLayer.mem_keys_deleteMany, hnot]

theorem After.exists_layer (h : After base visited s) {i : ℕ}
    (hkey : ∃ layer ∈ s.layers[i]?, key ∈ layer.entries.keys) :
    ∃ layer ∈ base.layers[i]?, key ∈ layer.entries.keys := by
  obtain ⟨-, flushed, -, hlayers, -⟩ := h
  obtain ⟨layer, hlayer, hmem⟩ := hkey
  rw [hlayers, List.getElem?_map] at hlayer
  obtain ⟨before, hbefore, rfl⟩ := Option.map_eq_some_iff.mp hlayer
  exact ⟨before, hbefore, (MemoryLayer.mem_keys_deleteMany.mp hmem).2⟩

theorem cells_pruneExpired : (s.pruneExpired now).cells now key = s.cells now key := by
  simp [cells, pruneExpired, MemoryLayer.pruneExpired, OrderedMap.get_filter]

theorem After.cells_eq (h : After base visited s) (hkey : key ∉ visited) :
    s.cells now key = base.cells now key := by
  obtain ⟨-, flushed, rfl, hlayers, -⟩ := h
  have hnot : key ∉ flushed := fun hmem => hkey (List.mem_append_left _ hmem)
  simp only [cells, hlayers, List.map_map, Function.comp_def, MemoryLayer.entries_deleteMany,
    OrderedMap.get_foldl_delete, if_neg hnot]

theorem After.tags_iff (h : After base visited s) (hkey : key ∉ visited) (tag : String) :
    tag ∈ s.tagIndex.tagsForKey key ↔ tag ∈ base.tagIndex.tagsForKey key := by
  obtain ⟨-, flushed, rfl, -, hindex⟩ := h
  have hnot : key ∉ flushed := fun hmem => hkey (List.mem_append_left _ hmem)
  rw [hindex, MemoryTagIndex.mem_tagsForKey_foldl_remove]
  exact and_iff_right hnot

theorem Orderly.of_sound {all : Finset String}
    (h : Search.Sound (After stack) options.maxMatches all ⟨s.visited, s⟩) :
    stack.Orderly now options all s := by
  have hafter : After stack s.visited s := h.state
  constructor
  · exact h.nodup
  · exact h.mem
  · exact h.within
  · exact fun key hkey => hafter.known_iff hkey
  · exact fun key hkey tag => hafter.tags_iff hkey tag
  · exact fun key hkey => hafter.cells_eq hkey

theorem Orderly.of_pruneExpired {all : Finset String}
    (h : (stack.pruneExpired now).Orderly now options all s) : stack.Orderly now options all s where
  nodup := h.nodup
  mem := h.mem
  within := h.within
  known := h.known
  tags := h.tags
  cells := fun key hkey => (h.cells key hkey).trans cells_pruneExpired

end Cleanup

namespace GenerationCleanup

open Cleanup (After)

variable {V : Type} {options : GenerationCleanup} {base : Cleanup V} {all : Finset String}
  {s s' : Scans V} {pre : String} {i : ℕ}

/-- While the iterations go on, what is to be found has been visited or is still to come. -/
structure Scanning (options : GenerationCleanup) (pre : String) (base : Cleanup V)
    (all : Finset String) (s : Scans V) : Prop where
  sound : Search.Sound (After base) options.maxMatches all
    ⟨s.search.state.visited, s.search.state⟩
  listed : ∀ i, ∀ key ∈ s.remaining i, (∃ layer ∈ base.layers[i]?, key ∈ layer.entries.keys) ∧
    (startsWith key pre = true → key ∈ all)
  found : s.error = none → s.search.found = s.search.state.visited
  covered : s.error = none → ∀ key ∈ all,
    key ∈ s.search.state.visited ∨ ∃ i, key ∈ s.remaining i
  exceeded : s.error ≠ none → ¬ Within options.maxMatches s.search.found.length ∧
    ¬ Within options.maxMatches all.card

theorem Scanning.sound_search (h : Scanning options pre base all s) (herror : s.error = none) :
    Search.Sound (After base) options.maxMatches all s.search := by
  have hsound := h.sound
  rwa [← h.found herror] at hsound

theorem listed_update {keys : List String} (h : Scanning options pre base all s)
    (hkeys : keys ⊆ s.remaining i) : ∀ j, ∀ key ∈ Function.update s.remaining i keys j,
      (∃ layer ∈ base.layers[j]?, key ∈ layer.entries.keys) ∧
        (startsWith key pre = true → key ∈ all) := by
  intro j key hkey
  by_cases hj : j = i
  · subst hj
    rw [Function.update_self] at hkey
    exact h.listed j key (hkeys hkey)
  · rw [Function.update_of_ne hj] at hkey
    exact h.listed j key hkey

theorem mem_update_of_ne {key k : String} {rest : List String}
    (hremaining : s.remaining i = key :: rest) (hk : k ≠ key) {j : ℕ} (hmem : k ∈ s.remaining j) :
    ∃ j, k ∈ Function.update s.remaining i rest j := by
  refine ⟨j, ?_⟩
  by_cases hj : j = i
  · subst hj
    rw [hremaining] at hmem
    rw [Function.update_self]
    exact (List.mem_cons.mp hmem).resolve_left hk
  · rwa [Function.update_of_ne hj]

theorem visit_sound (hsound : Search.Sound (After base) options.maxMatches all s.search)
    {key : String} (hkey : key ∈ all) :
    match options.visit key s.search with
    | .ok search => Search.Sound (After base) options.maxMatches all search ∧
        search.found = addMatch s.search.found key
    | .error (_, search) => search.state = s.search.state ∧
        ¬ Within options.maxMatches search.found.length ∧ ¬ Within options.maxMatches all.card := by
  have hvisitor : ∀ found k st, k ∉ found → After base found st →
      After base (found ++ [k]) (Cleanup.visitKey options k st) :=
    fun _ k _ _ hafter => hafter.visitKey k
  have hvisit := visit_spec hvisitor hsound hkey
  unfold visit
  cases hafter : LayerCache.visit options.maxMatches (Cleanup.visitKey options) key s.search with
  | error e =>
    rw [hafter] at hvisit
    obtain ⟨hstate, hover⟩ := visit_error hafter
    exact ⟨hstate, hover, hvisit⟩
  | ok search =>
    rw [hafter] at hvisit
    exact hvisit

theorem Scanning.advance (h : Scanning options pre base all s)
    (hall : ∀ key ∈ all, startsWith key pre = true)
    (hstep : options.advance pre s i = some s') : Scanning options pre base all s' := by
  unfold GenerationCleanup.advance at hstep
  split at hstep
  case h_1 => cases hstep
  case h_2 key rest hremaining =>
    have hrest : rest ⊆ s.remaining i := hremaining ▸ List.subset_cons_self key rest
    obtain ⟨hkey, hfind⟩ := h.listed i key (hremaining ▸ List.mem_cons_self)
    split at hstep
    case isFalse hpasses =>
      cases hstep
      refine ⟨h.sound, listed_update h hrest, h.found, fun herror k hk => ?_, h.exceeded⟩
      rcases h.covered herror k hk with hvisited | ⟨j, hj⟩
      · exact .inl hvisited
      by_cases hkk : k = key
      · subst hkk
        left
        by_contra hnot
        exact hpasses ⟨(h.sound.state.mem_layer_iff hnot i).mpr hkey, hall k hk⟩
      · exact .inr (mem_update_of_ne hremaining hkk hj)
    case isTrue hstarts =>
      have hkeyall : key ∈ all := hfind hstarts.2
      cases herror : s.error with
      | none =>
        have hvisit := visit_sound (h.sound_search herror) hkeyall
        cases hafter : options.visit key s.search with
        | error e =>
          obtain ⟨error, search⟩ := e
          rw [hafter] at hvisit hstep
          obtain ⟨hstate, hover⟩ := hvisit
          cases hstep
          refine ⟨?_, listed_update h (List.nil_subset _), ?_, ?_, fun _ => hover⟩
          · rw [hstate]
            exact h.sound
          · simp [herror]
          · simp [herror]
        | ok search =>
          rw [hafter] at hvisit hstep
          obtain ⟨hsound, hfound⟩ := hvisit
          have hvisited : search.state.visited = search.found := hsound.state.1
          cases hstep
          refine ⟨?_, listed_update h hrest, fun _ => hvisited.symm, fun _ k hk => ?_, ?_⟩
          · rw [hvisited]
            exact hsound
          · rw [hvisited, hfound, mem_addMatch, h.found herror]
            by_cases hkk : k = key
            · exact .inl (.inl hkk)
            · rcases h.covered herror k hk with hvisited | ⟨j, hj⟩
              · exact .inl (.inr hvisited)
              · exact .inr (mem_update_of_ne hremaining hkk hj)
          · exact fun hne => absurd herror hne
      | some e =>
        have hne : s.error ≠ none := by simp [herror]
        obtain ⟨hover, hmany⟩ := h.exceeded hne
        cases hafter : options.visit key s.search with
        | error e' =>
          obtain ⟨error, search⟩ := e'
          rw [hafter] at hstep
          obtain ⟨hstate, hover'⟩ := visit_error hafter
          cases hstep
          refine ⟨?_, listed_update h (List.nil_subset _), ?_, ?_, fun _ => ⟨hover', hmany⟩⟩
          · rw [hstate]
            exact h.sound
          · simp [herror]
          · simp [herror]
        | ok search =>
          rw [hafter] at hstep
          have hsame : search = s.search := visit_of_not_within hover hafter
          cases hstep
          subst hsame
          refine ⟨h.sound, listed_update h hrest, h.found, ?_, h.exceeded⟩
          exact fun hnone => absurd hnone hne

theorem total_remaining_advance {n : ℕ} (hstep : options.advance pre s i = some s')
    (hlisted : s.remaining i ≠ [] → i < n) :
    Counting.total n s'.remaining List.length + 1 ≤ Counting.total n s.remaining List.length := by
  unfold GenerationCleanup.advance at hstep
  split at hstep
  case h_1 => cases hstep
  case h_2 key rest hremaining =>
    have hi : i < n := hlisted (by simp [hremaining])
    have hle : ∀ keys : List String, keys.length ≤ rest.length →
        Counting.total n (Function.update s.remaining i keys) List.length + 1 ≤
          Counting.total n s.remaining List.length := by
      intro keys hkeys
      have htotal := Counting.total_update hi s.remaining keys List.length
      rw [hremaining, List.length_cons] at htotal
      omega
    split at hstep
    case isFalse =>
      cases hstep
      exact hle rest le_rfl
    case isTrue =>
      split at hstep
      · cases hstep
        exact hle rest le_rfl
      · cases hstep
        exact hle [] (Nat.zero_le _)

theorem Scanning.lt_length (h : Scanning options pre base all s) (hne : s.remaining i ≠ []) :
    i < base.layers.length := by
  obtain ⟨key, hkey⟩ := List.exists_mem_of_ne_nil _ hne
  obtain ⟨⟨layer, hlayer, -⟩, -⟩ := h.listed i key hkey
  exact (List.getElem?_eq_some_iff.mp hlayer).1

theorem Scanning.run (h : Scanning options pre base all s)
    (hall : ∀ key ∈ all, startsWith key pre = true)
    {turns : List ℕ} (hrun : Transition.run (options.advance pre) s turns = some s') :
    Scanning options pre base all s' ∧
      turns.length ≤ Counting.total base.layers.length s.remaining List.length := by
  induction turns generalizing s with
  | nil =>
    cases hrun
    exact ⟨h, Nat.zero_le _⟩
  | cons i turns ih =>
    rw [Transition.run, Option.bind_eq_some_iff] at hrun
    obtain ⟨next, hnext, hrun⟩ := hrun
    obtain ⟨hlast, hlength⟩ := ih (h.advance hall hnext) hrun
    have htotal := total_remaining_advance hnext h.lt_length
    refine ⟨hlast, ?_⟩
    rw [List.length_cons]
    omega

/-- An iterator that has keys to come to can go on. -/
theorem exists_advance (options : GenerationCleanup) (pre : String) (hne : s.remaining i ≠ []) :
    ∃ s', options.advance pre s i = some s' := by
  unfold GenerationCleanup.advance
  split
  case h_1 hnil => exact absurd hnil hne
  case h_2 =>
    split
    · split
      · exact ⟨_, rfl⟩
      · exact ⟨_, rfl⟩
    · exact ⟨_, rfl⟩

def keysToFind (pre : String) (now : Millis) (stack : Cleanup V) : Finset String :=
  candidates stack.tagIndex.known
    (stack.layers.flatMap fun layer => (layer.pruneExpired now).entries.keys) (startsWith · pre)

variable {stack : Cleanup V} {now : Millis}

theorem mem_keys_pruneExpired {layer : MemoryLayer V Millis} {key : String} :
    key ∈ (layer.pruneExpired now).entries.keys ↔
      ∃ entry, layer.entries.get key = some entry ∧ entry.isExpired now = false := by
  rw [← OrderedMap.get_isSome_iff, MemoryLayer.pruneExpired, OrderedMap.get_filter,
    Option.isSome_iff_exists]
  simp only [Option.filter_eq_some_iff, Bool.not_eq_true']

theorem has_of_pruneExpired {key : String}
    (h : ∃ layer ∈ (stack.pruneExpired now).layers[i]?, key ∈ layer.entries.keys) :
    stack.Has now key := by
  obtain ⟨layer, hlayer, hmem⟩ := h
  obtain ⟨before, hbefore, rfl⟩ := List.mem_map.mp (List.mem_of_getElem? hlayer)
  exact .inr ⟨before, hbefore, mem_keys_pruneExpired.mp hmem⟩

theorem exists_pruneExpired {key : String} (h : stack.Has now key) :
    key ∈ stack.knownKeys ∨
      ∃ i : ℕ, ∃ layer ∈ (stack.pruneExpired now).layers[i]?, key ∈ layer.entries.keys := by
  rcases h with hknown | ⟨layer, hlayer, hentry⟩
  · exact .inl hknown
  · have hmem : layer.pruneExpired now ∈ (stack.pruneExpired now).layers :=
      List.mem_map_of_mem hlayer
    obtain ⟨i, hi⟩ := List.mem_iff_getElem?.mp hmem
    exact .inr ⟨i, _, hi, mem_keys_pruneExpired.mpr hentry⟩

theorem mem_keysToFind {key : String} : key ∈ keysToFind pre now stack ↔
    stack.Has now key ∧ startsWith key pre = true := by
  rw [keysToFind, mem_candidates, Cleanup.Has, List.mem_flatMap]
  simp only [mem_keys_pruneExpired]
  rfl

theorem mem_remaining_startScans {search : Search (Cleanup V)} {key : String} :
    key ∈ (startScans now search).remaining i ↔
      ∃ layer ∈ (search.state.pruneExpired now).layers[i]?, key ∈ layer.entries.keys := by
  unfold startScans
  simp only
  cases (search.state.pruneExpired now).layers[i]? <;> simp

theorem searchIndex_spec (options : GenerationCleanup) (pre : String) (now : Millis)
    (stack : Cleanup V)
    (hstart : After stack [] stack) :
    ∃ r, options.searchIndex pre stack = some r ∧
      match r with
      | .ok search =>
        Search.Sound (After stack) options.maxMatches (keysToFind pre now stack) search ∧
          ∀ key, key ∈ search.found ↔ key ∈ stack.knownKeys ∧ startsWith key pre = true
      | .error (_, search) =>
        (∃ found, Search.Sound (After stack) options.maxMatches (keysToFind pre now stack)
          ⟨found, search.state⟩) ∧
        ¬ Within options.maxMatches search.found.length ∧
        ¬ Within options.maxMatches (keysToFind pre now stack).card := by
  have hsound : Search.Sound (After stack) options.maxMatches (keysToFind pre now stack)
      ⟨[], stack⟩ := by
    constructor
    · exact List.nodup_nil
    · exact fun key hkey => nomatch hkey
    · exact within_zero options.maxMatches_pos
    · exact hstart
  obtain ⟨r, hr, hsearch⟩ := forEachKeyForPrefix_visit (fun s : Cleanup V => s.tagIndex.known)
    (fun _ _ hafter key hkey hnot => (hafter.known_iff hnot).mpr hkey)
    (fun _ _ hafter key hkey => hafter.known_of_mem hkey)
    (fun _ key _ _ hafter => hafter.visitKey key) hsound rfl
    (fun key hkey hstarts => mem_keysToFind.mpr ⟨.inl hkey, hstarts⟩)
  refine ⟨r, hr, ?_⟩
  match r, hsearch with
  | .ok search, hfound => exact hfound
  | .error (error, search), hover => exact hover

/-- The iterations begin with everything in order, or not at all. -/
theorem scanning_startCleanup (options : GenerationCleanup) (pre : String) (now : Millis)
    (stack : Cleanup V) (hstart : After stack [] stack) :
    ∃ s, options.startCleanup now pre stack = some s ∧
      (Scanning options pre (stack.pruneExpired now) (keysToFind pre now stack) s ∨
        Scanning options pre stack (keysToFind pre now stack) s ∧ s.error ≠ none ∧
          ∀ i, s.remaining i = []) := by
  obtain ⟨r, hr, hsearch⟩ := searchIndex_spec options pre now stack hstart
  unfold startCleanup
  rw [hr, Option.map_some]
  refine ⟨_, rfl, ?_⟩
  match r, hsearch with
  | .error (error, search), ⟨⟨found, hsound⟩, hover⟩ =>
    obtain rfl : search.state.visited = found := hsound.state.1
    right
    refine ⟨⟨hsound, ?_, ?_, ?_, fun _ => hover⟩, ?_, fun _ => rfl⟩
    · exact fun i key hkey => nomatch hkey
    · exact fun hnone => nomatch hnone
    · exact fun hnone => nomatch hnone
    · exact fun hnone => nomatch hnone
  | .ok search, ⟨hsound, hfound⟩ =>
    have hvisited : search.state.visited = search.found := hsound.state.1
    have hafter := hsound.state.pruneExpired now
    left
    refine ⟨⟨?_, ?_, ?_, ?_⟩, ?_, fun _ => hvisited.symm, fun _ key hkey => ?_, ?_⟩
    · exact hvisited ▸ hsound.nodup
    · exact hvisited ▸ hsound.mem
    · exact hvisited ▸ hsound.within
    · exact hvisited ▸ hafter
    · intro i key hkey
      have hlayer := hafter.exists_layer (mem_remaining_startScans.mp hkey)
      exact ⟨hlayer, fun hstarts => mem_keysToFind.mpr ⟨has_of_pruneExpired hlayer, hstarts⟩⟩
    · obtain ⟨hhas, hstarts⟩ := mem_keysToFind.mp hkey
      by_cases hmem : key ∈ search.found
      · exact .inl (hvisited ▸ hmem)
      · rcases exists_pruneExpired hhas with hknown | ⟨i, hlayer⟩
        · exact absurd ((hfound key).mpr ⟨hknown, hstarts⟩) hmem
        · exact .inr ⟨i, mem_remaining_startScans.mpr ((hafter.mem_layer_iff hmem i).mpr hlayer)⟩
    · exact fun hne => absurd rfl hne

/-- The last batch takes with it what the others have left. -/
theorem Scanning.cleared (h : Scanning options pre (stack.pruneExpired now)
      (keysToFind pre now stack) s)
    (herror : s.error = none) (hdone : ∀ i, s.remaining i = []) :
    (∀ key, key ∈ s.search.state.flushBatch.visited ↔ key ∈ keysToFind pre now stack) ∧
      s.search.state.flushBatch.Cleared pre := by
  have hafter : After (stack.pruneExpired now) s.search.state.visited s.search.state :=
    h.sound.state
  have hall : ∀ key ∈ keysToFind pre now stack, key ∈ s.search.state.visited := by
    intro key hkey
    rcases h.covered herror key hkey with hvisited | ⟨i, hi⟩
    · exact hvisited
    · rw [hdone i] at hi
      cases hi
  obtain ⟨hvisited, flushed, hflushed, hlayers, hindex⟩ := hafter.flushBatch
  rw [Cleanup.batch_flushBatch, List.append_nil] at hflushed
  subst hflushed
  refine ⟨fun key => ?_, ?_, ?_, ?_⟩
  · rw [hvisited]
    exact ⟨h.sound.mem key, hall key⟩
  · intro key hstarts hkey
    rw [Cleanup.knownKeys, hindex, MemoryTagIndex.mem_known_foldl_remove] at hkey
    exact hkey.1 (hall key (mem_keysToFind.mpr ⟨.inl hkey.2, hstarts⟩))
  · intro key hstarts layer hlayer hkey
    rw [hlayers] at hlayer
    obtain ⟨before, hbefore, rfl⟩ := List.mem_map.mp hlayer
    obtain ⟨hnot, hmem⟩ := MemoryLayer.mem_keys_deleteMany.mp hkey
    obtain ⟨i, hi⟩ := List.mem_iff_getElem?.mp hbefore
    have hhas : stack.Has now key := has_of_pruneExpired ⟨before, hi, hmem⟩
    exact hnot (hall key (mem_keysToFind.mpr ⟨hhas, hstarts⟩))
  · intro key hkey tag htag
    rw [hindex, MemoryTagIndex.mem_tagsForKey_foldl_remove] at htag
    exact htag.1 (hvisited ▸ hkey)

/-- The index has been searched, and the layers have or have not dropped what has expired. -/
def Begun (stack : Cleanup V) (now : Millis) (base : Cleanup V) : Prop :=
  base = stack ∨ base = stack.pruneExpired now

theorem Scanning.orderly (h : Scanning options pre base all s) (hbase : Begun stack now base) :
    stack.Orderly now options all s.search.state := by
  rcases hbase with rfl | rfl
  · exact .of_sound h.sound
  · exact (Cleanup.Orderly.of_sound h.sound).of_pruneExpired

theorem Scanning.orderly_finish (h : Scanning options pre base all s)
    (hbase : Begun stack now base) : stack.Orderly now options all (finish s).2 := by
  unfold finish
  split
  case h_1 =>
    have hafter : After base s.search.state.visited s.search.state.flushBatch :=
      h.sound.state.flushBatch
    have hvisited : s.search.state.flushBatch.visited = s.search.state.visited := hafter.1
    have hsound : Search.Sound (After base) options.maxMatches all
        ⟨s.search.state.flushBatch.visited, s.search.state.flushBatch⟩ := by
      rw [hvisited]
      exact ⟨h.sound.nodup, h.sound.mem, h.sound.within, hafter⟩
    rcases hbase with rfl | rfl
    · exact .of_sound hsound
    · exact (Cleanup.Orderly.of_sound hsound).of_pruneExpired
  case h_2 => exact h.orderly hbase

/-- What a cleanup whose iterations have ended reports and leaves. -/
def Ended (options : GenerationCleanup) (pre : String) (all : Finset String) :
    Except LimitError Unit × Cleanup V → Prop
  | (.ok (), after) => Within options.maxMatches all.card ∧
      (∀ key, key ∈ after.visited ↔ key ∈ all) ∧ after.Cleared pre
  | (.error _, _) => ¬ Within options.maxMatches all.card

theorem Scanning.ended (h : Scanning options pre base (keysToFind pre now stack) s)
    (hbase : s.error = none → base = stack.pruneExpired now) (hdone : ∀ i, s.remaining i = []) :
    Ended options pre (keysToFind pre now stack) (finish s) := by
  unfold finish
  split
  case h_1 hnone =>
    obtain rfl := hbase hnone
    obtain ⟨hvisited, hcleared⟩ := h.cleared hnone hdone
    have hcollected : Collected options.maxMatches (keysToFind pre now stack)
        (.ok s.search.found) := by
      apply (h.sound_search hnone).collected
      intro key hkey
      rw [h.found hnone]
      rcases h.covered hnone key hkey with hmem | ⟨i, hi⟩
      · exact hmem
      · rw [hdone i] at hi
        cases hi
    exact ⟨hcollected.2.2, hvisited, hcleared⟩
  case h_2 error herror => exact (h.exceeded (by simp [herror])).2

/-- In whatever order the iterators take their turns, a cleanup ends. On the way it visits only keys
of its generation, each once and no more than the limit; and at its end it has removed them all from
the index and the layers, unless they are more than the limit. -/
theorem cleanupGeneration_exact (options : GenerationCleanup)
    (layers : List (MemoryLayer V Millis)) (tagIndex : MemoryTagIndex) (now : Millis)
    (generation : Keys.Number) :
    ∃ all : Finset String,
      (∀ key, key ∈ all ↔ (Cleanup.start layers tagIndex).Has now key ∧
        startsWith key (generationPrefix (some generation)) = true) ∧
      (∃ s, options.cleanupGeneration now generation (.start layers tagIndex) [] = some s) ∧
      (∃ bound, ∀ turns s,
        options.cleanupGeneration now generation (.start layers tagIndex) turns = some s →
        turns.length ≤ bound ∧
        (Cleanup.start layers tagIndex).Orderly now options all s.search.state ∧
        (∀ i, s.remaining i ≠ [] → ∃ s',
          options.cleanupGeneration now generation (.start layers tagIndex) (turns ++ [i]) =
            some s') ∧
        ((∀ i, s.remaining i = []) →
          (Cleanup.start layers tagIndex).Orderly now options all (finish s).2 ∧
          Ended options (generationPrefix (some generation)) all (finish s))) := by
  have hstart := Cleanup.after_start layers tagIndex
  generalize Cleanup.start layers tagIndex = stack at hstart ⊢
  obtain ⟨first, hfirst, hscanning⟩ := scanning_startCleanup options
    (generationPrefix (some generation)) now stack hstart
  refine ⟨keysToFind (generationPrefix (some generation)) now stack, fun key => mem_keysToFind,
    ⟨first, ?_⟩, ?_⟩
  · rw [cleanupGeneration, hfirst]
    rfl
  have hall : ∀ key ∈ keysToFind (generationPrefix (some generation)) now stack,
      startsWith key (generationPrefix (some generation)) = true := fun key hkey =>
    (mem_keysToFind.mp hkey).2
  obtain ⟨base, hbase, hscan, hnone⟩ : ∃ base, Begun stack now base ∧
      Scanning options (generationPrefix (some generation)) base
        (keysToFind (generationPrefix (some generation)) now stack) first ∧
      (base ≠ stack.pruneExpired now → first.error ≠ none ∧ ∀ i, first.remaining i = []) := by
    rcases hscanning with hscan | ⟨hscan, hfailed⟩
    · exact ⟨_, .inr rfl, hscan, fun hne => absurd rfl hne⟩
    · exact ⟨_, .inl rfl, hscan, fun _ => hfailed⟩
  refine ⟨Counting.total base.layers.length first.remaining List.length, fun turns s hrun => ?_⟩
  rw [cleanupGeneration, hfirst, Option.bind_some] at hrun
  obtain ⟨hlast, hlength⟩ := hscan.run hall hrun
  refine ⟨hlength, hlast.orderly hbase, fun i hi => ?_, fun hdone =>
    ⟨hlast.orderly_finish hbase, ?_⟩⟩
  · obtain ⟨s', hs'⟩ := exists_advance options (generationPrefix (some generation)) hi
    refine ⟨s', ?_⟩
    rw [cleanupGeneration, hfirst, Option.bind_some, Transition.run_concat, hrun]
    exact hs'
  · apply hlast.ended _ hdone
    intro herror
    by_contra hne
    obtain ⟨hfailed, hnil⟩ := hnone hne
    have hzero : turns.length ≤ 0 := by
      rwa [Counting.total_eq_zero fun i _ => by rw [hnil i]; rfl] at hlength
    obtain rfl := List.length_eq_zero_iff.mp (Nat.le_zero.mp hzero)
    cases hrun
    exact hfailed herror

end GenerationCleanup

end LayerCache
