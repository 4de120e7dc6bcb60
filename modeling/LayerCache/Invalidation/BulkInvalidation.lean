import LayerCache.Collections.Interleaving
import LayerCache.Invalidation.Discovery

/-! # Invalidation by pattern and by prefix

The keys are collected from the index and from what the layers list, and only then deleted. Where
they are too many for the limit, nothing has been deleted.
-/

namespace LayerCache

open Namespaced (units startsWith patternMatches)
open Snapshot (Cell generationPrefix)

structure ListedLayer (V : Type) where
  entries : OrderedMap String (Cell V)
  /-- Whether a listing drops the entries that have expired. -/
  prunes : Bool

namespace ListedLayer

variable {V : Type} (layer : ListedLayer V) (now : Millis)

def getEntry (key : String) : Option (Cell V) :=
  (layer.entries.get key).filter fun cell => decide (cell.Live now)

def listed : ListedLayer V :=
  if layer.prunes then
    { layer with entries := layer.entries.filter fun cell => decide (cell.Live now) }
  else layer

/-- The keys of a listing: those of live entries, in any order and any number of times. -/
def Lists (listing : List String) : Prop :=
  ∀ key, key ∈ listing ↔ (layer.getEntry now key).isSome

def deleteMany (keys : List String) : ListedLayer V :=
  { layer with entries := keys.foldl OrderedMap.delete layer.entries }

variable {layer now} {key : String}

theorem getEntry_listed : (layer.listed now).getEntry now key = layer.getEntry now key := by
  unfold listed
  split
  · rw [getEntry, OrderedMap.get_filter, Option.filter_filter, getEntry]
    simp
  · rfl

theorem getEntry_deleteMany (keys : List String) :
    (layer.deleteMany keys).getEntry now key =
      if key ∈ keys then none else layer.getEntry now key := by
  rw [getEntry, deleteMany, OrderedMap.get_foldl_delete]
  split
  · rfl
  · rfl

theorem lists_keys (h : ∀ entry ∈ layer.entries.entries, entry.2.Live now) :
    layer.Lists now layer.entries.keys := by
  intro key
  rw [← OrderedMap.get_isSome_iff, getEntry]
  cases hget : layer.entries.get key with
  | none => simp
  | some cell =>
    have hlive : cell.Live now := h (key, cell) (OrderedMap.get_eq_some_iff.mp hget)
    simp [hlive]

end ListedLayer

structure IndexedStack (V : Type) where
  currentGeneration : Option Keys.Number
  layers : List (ListedLayer V)
  tagIndex : MemoryTagIndex
  /-- `none` is a limit turned off. -/
  invalidationMaxKeys : Option ℚ
  invalidationMaxKeys_pos : ∀ m ∈ invalidationMaxKeys, 0 < m
  now : Millis

inductive BulkSelection
  | pattern (pattern : String)
  | startingWith (pre : String)

def BulkSelection.validate : BulkSelection → Except String Unit
  | .pattern text => validatePattern text
  | .startingWith pre => validateCacheKey pre

def BulkSelection.selects : BulkSelection → String → Bool
  | .pattern text, key => patternMatches text key
  | .startingWith pre, key => startsWith key pre

inductive InvalidationError
  | invalid (message : String)
  | limit (error : LimitError)

namespace IndexedStack

variable {V : Type} (stack : IndexedStack V)

def qualifyKey (key : String) : String := generationPrefix stack.currentGeneration ++ key

def collectKeys (listed : List String) : BulkSelection → Option (Except LimitError (List String))
  | .pattern pattern => collectKeysMatchingPattern stack.invalidationMaxKeys stack.tagIndex.known
      listed (stack.qualifyKey pattern)
  | .startingWith pre => collectKeysWithPrefix stack.invalidationMaxKeys stack.tagIndex.known
      listed (stack.qualifyKey pre)

def scanned : IndexedStack V :=
  { stack with layers := stack.layers.map fun layer => layer.listed stack.now }

def deleteKeys (keys : List String) : IndexedStack V :=
  if keys.length = 0 then stack
  else
    { stack with
      layers := stack.layers.map fun layer => layer.deleteMany keys
      tagIndex := keys.foldl MemoryTagIndex.remove stack.tagIndex }

/-- `invalidateByPattern` and `invalidateByPrefix`, with the keys that the layers list in the
order in which their scans come to them. -/
def invalidate (selection : BulkSelection) (listed : List String) :
    Option (Except InvalidationError Unit × IndexedStack V) :=
  match selection.validate with
  | .error message => some (.error (.invalid message), stack)
  | .ok () =>
    match stack.collectKeys [] selection with
    -- the index alone has too many, and no layer is asked
    | some (.error error) => some (.error (.limit error), stack)
    | _ => (stack.collectKeys listed selection).map fun
      | .error error => (.error (.limit error), stack.scanned)
      | .ok keys => (.ok (), stack.scanned.deleteKeys keys)

def cells (key : String) : List (Option (Cell V)) :=
  stack.layers.map fun layer => layer.getEntry stack.now key

def Has (raw : String) : Prop :=
  raw ∈ stack.tagIndex.known.knownKeys.keys ∨
    ∃ layer ∈ stack.layers, (layer.getEntry stack.now raw).isSome

/-- The raw keys of the current generation that are selected and there. -/
def Selected (selection : BulkSelection) (raw : String) : Prop :=
  stack.Has raw ∧ ∃ key, raw = stack.qualifyKey key ∧ selection.selects key = true

structure Unchanged (after : IndexedStack V) : Prop where
  tagIndex : after.tagIndex = stack.tagIndex
  cells : ∀ raw, after.cells raw = stack.cells raw

/-- The keys are gone from every layer and the index, and nothing else is. -/
structure Removed (keys : Finset String) (after : IndexedStack V) : Prop where
  known : ∀ raw, raw ∈ after.tagIndex.known.knownKeys.keys ↔
    raw ∉ keys ∧ raw ∈ stack.tagIndex.known.knownKeys.keys
  tags : ∀ raw tag, tag ∈ after.tagIndex.tagsForKey raw ↔
    raw ∉ keys ∧ tag ∈ stack.tagIndex.tagsForKey raw
  cells : ∀ raw, after.cells raw =
    if raw ∈ keys then stack.layers.map fun _ => none else stack.cells raw

variable {stack} {listed : List String} {selection : BulkSelection} {raw : String}

theorem cells_scanned : stack.scanned.cells raw = stack.cells raw := by
  simp [cells, scanned, ListedLayer.getEntry_listed]

theorem unchanged_self : stack.Unchanged stack := ⟨rfl, fun _ => rfl⟩

theorem unchanged_scanned : stack.Unchanged stack.scanned :=
  ⟨rfl, fun _ => cells_scanned⟩

theorem removed_deleteKeys {keys : List String} {all : Finset String}
    (h : ∀ k, k ∈ keys ↔ k ∈ all) : stack.Removed all (stack.deleteKeys keys) := by
  have hnot : ∀ k, k ∉ keys ↔ k ∉ all := fun k => not_congr (h k)
  unfold deleteKeys
  split
  case isTrue hnil =>
    obtain rfl := List.length_eq_zero_iff.mp hnil
    have hnone : ∀ k, k ∉ all := fun k => (hnot k).mp (List.not_mem_nil)
    constructor <;> simp [hnone]
  case isFalse =>
    constructor
    · intro raw
      rw [← hnot]
      exact MemoryTagIndex.mem_known_foldl_remove keys stack.tagIndex
    · intro raw tag
      rw [← hnot]
      exact MemoryTagIndex.mem_tagsForKey_foldl_remove keys stack.tagIndex
    · intro raw
      simp only [cells, List.map_map, Function.comp_def, ListedLayer.getEntry_deleteMany, h]
      split <;> rfl

/-- Nothing is removed by the listings, so what is removed after them is removed in all. -/
theorem Removed.of_scanned {all : Finset String} {after : IndexedStack V}
    (h : stack.scanned.Removed all after) : stack.Removed all after := by
  refine ⟨h.known, h.tags, fun raw => ?_⟩
  rw [h.cells, cells_scanned]
  simp [scanned, Function.comp_def]

theorem units_qualifyKey (key : String) :
    units (stack.qualifyKey key) = units (generationPrefix stack.currentGeneration) ++ units key :=
  Namespaced.units_append _ _

theorem not_mem_generationPrefix {c : Char} (hc : c = '*' ∨ c = '?')
    (generation : Option Keys.Number) : c.toNat ∉ units (generationPrefix generation) := by
  have hsmall : c.toNat < 0xD800 := by rcases hc with rfl | rfl <;> decide
  rw [Namespaced.mem_units hsmall]
  cases generation with
  | none => simp [generationPrefix]
  | some n =>
    have htext : c ∉ n.text := by
      rcases hc with rfl | rfl <;>
        exact Namespaced.not_mem_text rfl (by decide) (by decide) n
    rcases hc with rfl | rfl <;> simpa [generationPrefix, toString] using htext

theorem exists_qualifyKey (h : startsWith raw (generationPrefix stack.currentGeneration) = true) :
    ∃ key, raw = stack.qualifyKey key := by
  rw [KnownKeys.startsWith_iff_toList] at h
  obtain ⟨rest, hrest⟩ := h
  refine ⟨String.ofList rest, String.toList_inj.mp ?_⟩
  rw [qualifyKey, String.toList_append, String.toList_ofList, hrest]

theorem matches_qualifyKey_iff {pattern : String} :
    patternMatches (stack.qualifyKey pattern) raw = true ↔
      ∃ key, raw = stack.qualifyKey key ∧ patternMatches pattern key = true := by
  simp only [patternMatches, Glob.matchLinear_iff]
  rw [units_qualifyKey]
  constructor
  · intro h
    obtain ⟨rest, hraw, hrest⟩ := h.literal
      (not_mem_generationPrefix (.inl rfl) stack.currentGeneration)
      (not_mem_generationPrefix (.inr rfl) stack.currentGeneration)
    have hstarts : startsWith raw (generationPrefix stack.currentGeneration) = true :=
      Namespaced.startsWith_iff.mpr ⟨rest, hraw.symm⟩
    obtain ⟨key, rfl⟩ := exists_qualifyKey hstarts
    rw [units_qualifyKey, List.append_cancel_left_eq] at hraw
    exact ⟨key, rfl, hraw ▸ hrest⟩
  · rintro ⟨key, rfl, hmatch⟩
    rw [units_qualifyKey]
    exact (Glob.Matches.refl _).append hmatch

theorem startsWith_qualifyKey_iff {pre : String} :
    startsWith raw (stack.qualifyKey pre) = true ↔
      ∃ key, raw = stack.qualifyKey key ∧ startsWith key pre = true := by
  constructor
  · intro h
    obtain ⟨key, rfl⟩ := exists_qualifyKey (Namespaced.startsWith_of_append h)
    refine ⟨key, rfl, ?_⟩
    rwa [Namespaced.startsWith_iff, units_qualifyKey, units_qualifyKey,
      List.prefix_append_right_inj, ← Namespaced.startsWith_iff] at h
  · rintro ⟨key, rfl, hstarts⟩
    rwa [Namespaced.startsWith_iff, units_qualifyKey, units_qualifyKey,
      List.prefix_append_right_inj, ← Namespaced.startsWith_iff]

/-- The keys that the layers have listed, each in its own order, in any order between them. -/
structure Listings (stack : IndexedStack V) (listed : List String) : Prop where
  exists_listings : ∃ listings, Interleaves listings listed ∧
    List.Forall₂ (fun layer listing => layer.Lists stack.now listing) stack.layers listings

theorem Listings.mem_iff (h : stack.Listings listed) :
    raw ∈ listed ↔ ∃ layer ∈ stack.layers, (layer.getEntry stack.now raw).isSome := by
  obtain ⟨listings, hinterleaves, hlists⟩ := h.exists_listings
  rw [hinterleaves.mem_iff]
  clear hinterleaves
  generalize stack.layers = layers at hlists ⊢
  induction hlists with
  | nil => simp
  | cons hlist _ ih => simp only [List.mem_cons, exists_eq_or_imp, hlist raw, ih]

def test (stack : IndexedStack V) : BulkSelection → String → Bool
  | .pattern text, raw => patternMatches (stack.qualifyKey text) raw
  | .startingWith pre, raw => startsWith raw (stack.qualifyKey pre)

theorem test_iff : stack.test selection raw = true ↔
    ∃ key, raw = stack.qualifyKey key ∧ selection.selects key = true := by
  cases selection with
  | pattern text => exact matches_qualifyKey_iff
  | startingWith pre => exact startsWith_qualifyKey_iff

theorem collectKeys_spec (stack : IndexedStack V) (listed : List String)
    (selection : BulkSelection) : ∃ r, stack.collectKeys listed selection = some r ∧
      Collected stack.invalidationMaxKeys
        (candidates stack.tagIndex.known listed (stack.test selection)) r := by
  cases selection with
  | pattern text =>
    exact collectKeysMatchingPattern_spec stack.invalidationMaxKeys_pos stack.tagIndex.known
      listed (stack.qualifyKey text)
  | startingWith pre =>
    exact collectKeysWithPrefix_spec stack.invalidationMaxKeys_pos stack.tagIndex.known listed
      (stack.qualifyKey pre)

theorem mem_candidates_iff (hlistings : stack.Listings listed) :
    raw ∈ candidates stack.tagIndex.known listed (stack.test selection) ↔
      stack.Selected selection raw := by
  rw [mem_candidates, Selected, Has, hlistings.mem_iff, test_iff]

theorem card_index_le (listed : List String) :
    (candidates stack.tagIndex.known [] (stack.test selection)).card ≤
      (candidates stack.tagIndex.known listed (stack.test selection)).card := by
  apply Finset.card_le_card
  intro raw hraw
  rw [mem_candidates] at hraw ⊢
  obtain ⟨hknown | hlisted, htest⟩ := hraw
  · exact ⟨.inl hknown, htest⟩
  · cases hlisted

/-- The invalidation comes to an end: with an error, where the keys are more than the limit, or
with what it has collected deleted. -/
theorem invalidate_cases (hvalid : selection.validate = .ok ()) (listed : List String) :
    (∃ error after, stack.invalidate selection listed = some (.error (.limit error), after) ∧
      stack.Unchanged after ∧ ¬ Within stack.invalidationMaxKeys
        (candidates stack.tagIndex.known listed (stack.test selection)).card) ∨
    (∃ keys, stack.invalidate selection listed = some (.ok (), stack.scanned.deleteKeys keys) ∧
      (∀ k, k ∈ keys ↔ k ∈ candidates stack.tagIndex.known listed (stack.test selection)) ∧
      Within stack.invalidationMaxKeys
        (candidates stack.tagIndex.known listed (stack.test selection)).card) := by
  obtain ⟨indexed, hindexed, hfirst⟩ := stack.collectKeys_spec [] selection
  obtain ⟨r, hr, hcollected⟩ := stack.collectKeys_spec listed selection
  cases indexed with
  | error error =>
    refine .inl ⟨error, stack, ?_, unchanged_self, fun hwithin => ?_⟩
    · simp only [invalidate, hvalid, hindexed]
    · exact hfirst (hwithin.mono (card_index_le listed))
  | ok found =>
    cases r with
    | error error =>
      refine .inl ⟨error, stack.scanned, ?_, unchanged_scanned, hcollected⟩
      simp only [invalidate, hvalid, hindexed, hr, Option.map_some]
    | ok keys =>
      refine .inr ⟨keys, ?_, hcollected.2⟩
      simp only [invalidate, hvalid, hindexed, hr, Option.map_some]

/-- Where the selected keys are more than the limit, the invalidation throws and changes
nothing; otherwise it removes them from every layer and the index, and nothing else. -/
theorem invalidate_exact (stack : IndexedStack V) (selection : BulkSelection)
    (hvalid : selection.validate = .ok ()) (listed : List String)
    (hlistings : stack.Listings listed) :
    ∃ all : Finset String, (∀ raw, raw ∈ all ↔ stack.Selected selection raw) ∧
      ((∃ m ∈ stack.invalidationMaxKeys, m < all.card) → ∃ error after,
        stack.invalidate selection listed = some (.error (.limit error), after) ∧
          stack.Unchanged after) ∧
      ((∀ m ∈ stack.invalidationMaxKeys, (all.card : ℚ) ≤ m) → ∃ after,
        stack.invalidate selection listed = some (.ok (), after) ∧ stack.Removed all after) := by
  refine ⟨candidates stack.tagIndex.known listed (stack.test selection),
    fun raw => mem_candidates_iff hlistings, ?_, ?_⟩
  · rintro ⟨m, hm, hlt⟩
    rcases invalidate_cases hvalid listed with ⟨error, after, hafter, hunchanged, -⟩ |
      ⟨keys, -, -, hwithin⟩
    · exact ⟨error, after, hafter, hunchanged⟩
    · exact absurd (hwithin m hm) (not_le.mpr hlt)
  · intro hwithin
    rcases invalidate_cases hvalid listed with ⟨error, after, -, -, hmany⟩ |
      ⟨keys, hafter, hkeys, -⟩
    · exact absurd hwithin hmany
    · exact ⟨_, hafter, (removed_deleteKeys hkeys).of_scanned⟩

/-- Two layers, and an index that has come to know two keys. -/
def twoLayers : IndexedStack ℕ where
  currentGeneration := none
  layers := [⟨OrderedMap.empty.set "a1" ⟨1, none⟩, true⟩,
    ⟨(OrderedMap.empty.set "a1" ⟨1, none⟩).set "b" ⟨2, none⟩, true⟩]
  tagIndex := (MemoryTagIndex.empty.touch ⟨10, 1, 1000⟩ 0 "a2").touch ⟨10, 1, 1000⟩ 0 "b"
  invalidationMaxKeys := some 2
  invalidationMaxKeys_pos := by simp
  now := 0

theorem listings_twoLayers : twoLayers.Listings ["a1", "a1", "b"] := by
  have hlast : Interleaves [[], ["b"]] ["b"] :=
    @Interleaves.next String [[]] [] "b" [] [] (.nil (by simp))
  have hsecond : Interleaves [[], ["a1", "b"]] ["a1", "b"] :=
    @Interleaves.next String [[]] [] "a1" ["b"] ["b"] hlast
  have hinterleaves : Interleaves [["a1"], ["a1", "b"]] ["a1", "a1", "b"] :=
    @Interleaves.next String [] [["a1", "b"]] "a1" [] _ hsecond
  exact ⟨_, hinterleaves, .cons (ListedLayer.lists_keys (by decide +kernel))
    (.cons (ListedLayer.lists_keys (by decide +kernel)) .nil)⟩

theorem invalidate_exact_twoLayers : ∃ after,
    twoLayers.invalidate (.pattern "a*") ["a1", "a1", "b"] = some (.ok (), after) ∧
      after.cells "a1" = [none, none] ∧ after.cells "b" = [none, some ⟨2, none⟩] ∧
      "a2" ∉ after.tagIndex.known.knownKeys.keys ∧ "b" ∈ after.tagIndex.known.knownKeys.keys := by
  obtain ⟨all, hall, -, hremoves⟩ := invalidate_exact twoLayers (.pattern "a*")
    (by decide +kernel) ["a1", "a1", "b"] listings_twoLayers
  have hkeys : all = {"a1", "a2"} := by
    have hcandidates : candidates twoLayers.tagIndex.known ["a1", "a1", "b"]
        (twoLayers.test (.pattern "a*")) = {"a1", "a2"} := by
      decide +kernel
    rw [← hcandidates]
    ext raw
    rw [hall, mem_candidates_iff listings_twoLayers]
  obtain ⟨after, hafter, hremoved⟩ := hremoves (by
    rintro m ⟨⟩
    have hcard : ({"a1", "a2"} : Finset String).card ≤ 2 := by decide
    rw [hkeys]
    exact_mod_cast hcard)
  subst hkeys
  refine ⟨after, hafter, ?_, ?_, fun h => ?_, ?_⟩
  · rw [hremoved.cells, if_pos (by decide)]
    rfl
  · rw [hremoved.cells, if_neg (by decide)]
    decide +kernel
  · exact ((hremoved.known "a2").mp h).1 (by decide)
  · exact (hremoved.known "b").mpr ⟨by decide, by decide +kernel⟩

end IndexedStack

end LayerCache
