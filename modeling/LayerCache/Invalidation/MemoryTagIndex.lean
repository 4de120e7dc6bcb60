import LayerCache.Invalidation.KnownKeys

/-! # The in-process tag index and its trie

The maps of tags and keys are those of the tag index without a bound on its keys. Below them are
the known keys, of which the oldest leave when there are too many.
-/

namespace LayerCache

open Namespaced (startsWith patternMatches)

namespace TagIndex

variable {K T : Type*} {index : TagIndex K T} {key k : K} {tag : T} {tags : List T}

def Linked (index : TagIndex K T) : Prop :=
  ∀ key tag, key ∈ index.tagToKeys tag ↔ ∃ tags, index.keyToTags key = some tags ∧ tag ∈ tags

theorem Linked.consistent (h : index.Linked) : index.Consistent := fun key tag => (h key tag).mp

theorem linked_empty : (empty : TagIndex K T).Linked := fun _ _ => by simp [empty]

variable [DecidableEq K] [DecidableEq T]

theorem keyToTags_track (hne : tags ≠ []) :
    (index.track key tags).keyToTags = Function.update index.keyToTags key (some tags.dedup) := by
  have hempty : tags.isEmpty = false := by simpa using hne
  simp [track, hempty, touch]

theorem Linked.track (h : index.Linked) : (index.track key tags).Linked := by
  by_cases hne : tags = []
  · subst hne
    exact h
  intro k tag
  by_cases hk : k = key
  · subst hk
    rw [keyToTags_track hne, Function.update_self]
    have hself : k ∈ (index.track k tags).tagToKeys tag ↔ tag ∈ tags :=
      mem_keysForTag_track_iff h.consistent hne
    simpa using hself
  · rw [keyToTags_track hne, Function.update_of_ne hk, ← h k tag]
    exact mem_keysForTag_track_of_ne hk

theorem Linked.remove (h : index.Linked) : (index.remove key).Linked := by
  intro k tag
  by_cases hk : k = key
  · subst hk
    simpa [TagIndex.remove] using not_mem_untag h.consistent
  · have hkeys : (index.remove key).keyToTags k = index.keyToTags k :=
      Function.update_of_ne hk _ _
    rw [hkeys, ← h k tag]
    exact mem_untag_of_ne hk

end TagIndex

/-- A key that has not been known makes room for itself. -/
def KnownKeys.see (known : KnownKeys) (options : TagIndexOptions) (now : Millis) (key : String) :
    KnownKeys :=
  let (inserted, known) := known.insertKnownKey options now key
  if inserted then known.pruneKnownKeysIfNeeded options else known

structure MemoryTagIndex where
  tagToKeys : String → List String
  keyToTags : String → Option (List String)
  known : KnownKeys
  linked : ∀ key tag, key ∈ tagToKeys tag ↔ ∃ tags, keyToTags key = some tags ∧ tag ∈ tags

namespace MemoryTagIndex

def maps (index : MemoryTagIndex) : TagIndex String String :=
  ⟨index.tagToKeys, index.keyToTags, index.known.knownKeys.keys⟩

theorem linked_maps (index : MemoryTagIndex) : index.maps.Linked := index.linked

def empty : MemoryTagIndex := ⟨fun _ => [], fun _ => none, .empty, TagIndex.linked_empty⟩

def touch (index : MemoryTagIndex) (options : TagIndexOptions) (now : Millis) (key : String) :
    MemoryTagIndex :=
  { index with known := index.known.see options now key }

def track (index : MemoryTagIndex) (options : TagIndexOptions) (now : Millis) (key : String)
    (tags : List String) : MemoryTagIndex where
  tagToKeys := (index.maps.track key tags).tagToKeys
  keyToTags := (index.maps.track key tags).keyToTags
  known := index.known.see options now key
  linked := index.linked_maps.track

def remove (index : MemoryTagIndex) (key : String) : MemoryTagIndex where
  tagToKeys := (index.maps.remove key).tagToKeys
  keyToTags := (index.maps.remove key).keyToTags
  known := index.known.removeKnownKey key
  linked := index.linked_maps.remove

def clear (_ : MemoryTagIndex) : MemoryTagIndex := empty

variable (index : MemoryTagIndex)

def keysForTag (tag : String) : List String := index.tagToKeys tag

def tagsForKey (key : String) : List String := (index.keyToTags key).getD []

def keysForPrefix (pre : String) : Option (List String) := index.known.keysForPrefix pre

def matchPattern (pattern : String) : Option (List String) := index.known.matchPattern pattern

variable {index : MemoryTagIndex} {options : TagIndexOptions} {now : Millis} {key k tag : String}
  {tags : List String}

theorem mem_keysForTag : key ∈ index.keysForTag tag ↔ tag ∈ index.tagsForKey key := by
  rw [keysForTag, index.linked, tagsForKey]
  cases index.keyToTags key <;> simp

theorem mem_tagsForKey_track :
    tag ∈ (index.track options now key tags).tagsForKey k ↔
      if k = key ∧ tags ≠ [] then tag ∈ tags else tag ∈ index.tagsForKey k := by
  by_cases hne : tags = []
  · subst hne
    simp only [ne_eq, not_true, and_false, if_false]
    exact Iff.rfl
  · have hkeys : (index.track options now key tags).keyToTags =
        Function.update index.keyToTags key (some tags.dedup) := TagIndex.keyToTags_track hne
    rw [tagsForKey, hkeys]
    by_cases hk : k = key
    · subst hk
      simp [hne]
    · simp [hk, tagsForKey]

theorem mem_tagsForKey_remove :
    tag ∈ (index.remove key).tagsForKey k ↔ k ≠ key ∧ tag ∈ index.tagsForKey k := by
  unfold tagsForKey
  by_cases hk : k = key
  · subst hk
    simp [remove, TagIndex.remove]
  · simp [remove, TagIndex.remove, maps, hk]

theorem mem_known_foldl_remove (keys : List String) (index : MemoryTagIndex) :
    k ∈ (keys.foldl remove index).known.knownKeys.keys ↔
      k ∉ keys ∧ k ∈ index.known.knownKeys.keys := by
  induction keys generalizing index with
  | nil => simp
  | cons key keys ih =>
    have hkey : k ∈ (index.remove key).known.knownKeys.keys ↔
        k ≠ key ∧ k ∈ index.known.knownKeys.keys := KnownKeys.mem_keys_removeKnownKey
    rw [List.foldl_cons, ih, hkey, List.mem_cons, not_or, and_assoc]
    exact and_left_comm

theorem mem_tagsForKey_foldl_remove (keys : List String) (index : MemoryTagIndex) {tag : String} :
    tag ∈ (keys.foldl remove index).tagsForKey k ↔
      k ∉ keys ∧ tag ∈ index.tagsForKey k := by
  induction keys generalizing index with
  | nil => simp
  | cons key keys ih =>
    rw [List.foldl_cons, ih, mem_tagsForKey_remove, List.mem_cons, not_or, and_assoc]
    exact and_left_comm

end MemoryTagIndex

end LayerCache
