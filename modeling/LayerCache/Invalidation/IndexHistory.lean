import LayerCache.Invalidation.IndexAgreement

/-! # What the in-process index holds after any history

The known keys stay within their bound, the trie is theirs and no more, and a tag has the keys
that were last tracked with it, those that pruning has dropped from the known keys included.
-/

namespace LayerCache

open Namespaced (startsWith patternMatches)

namespace KnownKeys

variable {known : KnownKeys} {options : TagIndexOptions} {now : Millis} {key : String}

theorem size_insertKnownKey_le :
    (known.insertKnownKey options now key).2.knownKeys.size ≤ known.knownKeys.size + 1 := by
  unfold insertKnownKey
  split
  case h_1 =>
    split
    case isTrue => exact Nat.le_succ _
    case isFalse =>
      have hsize : ((known.knownKeys.delete key).set key now).size =
          (known.knownKeys.delete key).size + 1 := OrderedMap.size_delete_set
      have hle : (known.knownKeys.delete key).size ≤ known.knownKeys.size :=
        OrderedMap.size_delete_le
      exact hsize.trans_le (Nat.succ_le_succ hle)
  case h_2 hnone =>
    have hnot : key ∉ known.knownKeys.keys := OrderedMap.get_eq_none_iff.mp hnone
    have hsize : (known.knownKeys.set key now).size = known.knownKeys.size + 1 := by
      rw [OrderedMap.size, OrderedMap.entries_set_of_not_mem hnot, List.length_append]
      rfl
    exact hsize.le

theorem insertKnownKey_cases : known.insertKnownKey options now key = (false, known) ∨
    (known.insertKnownKey options now key).1 = true := by
  unfold insertKnownKey
  split
  · split
    · exact .inl rfl
    · exact .inr rfl
  · exact .inr rfl

theorem size_removeKnownKey_le :
    (known.removeKnownKey key).knownKeys.size ≤ known.knownKeys.size := by
  unfold removeKnownKey
  split
  · exact OrderedMap.size_delete_le
  · exact le_rfl

theorem size_removeOldest (known : KnownKeys) (n : ℕ) :
    (known.removeOldest n).knownKeys.size = known.knownKeys.size - n := by
  induction n generalizing known with
  | zero => rfl
  | succ n ih =>
    rw [removeOldest]
    split
    case h_1 hnil =>
      have hsize : known.knownKeys.size = 0 := by
        rw [← OrderedMap.length_keys, hnil]
        rfl
      rw [hsize, Nat.zero_sub]
    case h_2 oldestKey rest hkeys =>
      have hmem : oldestKey ∈ known.knownKeys.keys := by simp [hkeys]
      have hsize : (known.removeKnownKey oldestKey).knownKeys.size + 1 = known.knownKeys.size := by
        rw [removeKnownKey, if_pos hmem]
        exact OrderedMap.size_delete_of_mem hmem
      rw [ih]
      omega

/-- One round is enough for the key that has come in. -/
theorem size_see_le (hbound : (known.knownKeys.size : ℚ) ≤ options.maxKnownKeys)
    (hround : 1 ≤ options.toRemove) :
    ((known.see options now key).knownKeys.size : ℚ) ≤ options.maxKnownKeys := by
  have hcases : known.insertKnownKey options now key = (false, known) ∨
      (known.insertKnownKey options now key).1 = true := insertKnownKey_cases
  rcases hcases with hsame | hinserted
  · rw [see, hsame]
    exact hbound
  have hsee : known.see options now key =
      (known.insertKnownKey options now key).2.pruneKnownKeysIfNeeded options := by
    simp only [see, hinserted, if_true]
  rw [hsee, pruneKnownKeysIfNeeded]
  split
  case isTrue hfits => exact hfits
  case isFalse =>
    refine le_trans ?_ hbound
    rw [size_removeOldest, Nat.cast_le]
    have hinsert : (known.insertKnownKey options now key).2.knownKeys.size ≤
        known.knownKeys.size + 1 := size_insertKnownKey_le
    omega

end KnownKeys

namespace MemoryTagIndex

variable {index : MemoryTagIndex} {options : TagIndexOptions} {now : Millis}
  {key k tag : String} {tags : List String} {operation : Millis × IndexOperation}

def perform (index : MemoryTagIndex) (options : TagIndexOptions) :
    Millis × IndexOperation → MemoryTagIndex
  | (now, .touch key) => index.touch options now key
  | (now, .track key tags) => index.track options now key tags
  | (_, .remove key) => index.remove key
  | (_, .clear) => index.clear

/-- The index after a history, the latest operation first. -/
def after (options : TagIndexOptions) : List (Millis × IndexOperation) → MemoryTagIndex
  | [] => empty
  | operation :: earlier => (after options earlier).perform options operation

/-- The tags of the latest `track` of the key that has any, unless the key has been removed or
the index cleared since. -/
def latestTags (key : String) : List (Millis × IndexOperation) → Option (List String)
  | [] => none
  | (_, .touch _) :: earlier => latestTags key earlier
  | (_, .track k tags) :: earlier =>
    if k = key ∧ tags ≠ [] then some tags else latestTags key earlier
  | (_, .remove k) :: earlier => if k = key then none else latestTags key earlier
  | (_, .clear) :: _ => none

theorem mem_tagsForKey_after (history : List (Millis × IndexOperation)) :
    tag ∈ (after options history).tagsForKey key ↔
      ∃ tags, latestTags key history = some tags ∧ tag ∈ tags := by
  induction history with
  | nil => simp [after, empty, tagsForKey, latestTags]
  | cons operation earlier ih =>
    obtain ⟨now, operation⟩ := operation
    cases operation with
    | touch k => exact ih
    | track k tags =>
      rw [after, perform, mem_tagsForKey_track, latestTags]
      by_cases hk : k = key ∧ tags ≠ []
      · rw [if_pos hk, if_pos ⟨hk.1.symm, hk.2⟩]
        simp
      · rw [if_neg hk, if_neg fun h => hk ⟨h.1.symm, h.2⟩]
        exact ih
    | remove k =>
      rw [after, perform, mem_tagsForKey_remove, latestTags]
      by_cases hk : k = key
      · simp [hk]
      · rw [if_neg hk, ih]
        exact and_iff_right (Ne.symm hk)
    | clear => simp [after, perform, clear, empty, tagsForKey, latestTags]

theorem nodup_untag (hnodup : ∀ tag, (index.tagToKeys tag).Nodup) (key tag : String) :
    (index.maps.untag key tag).Nodup := by
  unfold TagIndex.untag
  cases index.maps.keyToTags key with
  | none => exact hnodup tag
  | some tags =>
    simp only
    split
    · exact (hnodup tag).filter _
    · exact hnodup tag

theorem nodup_perform (hnodup : ∀ tag, (index.tagToKeys tag).Nodup)
    (operation : Millis × IndexOperation) :
    ∀ tag, ((index.perform options operation).tagToKeys tag).Nodup := by
  intro tag
  obtain ⟨now, operation⟩ := operation
  cases operation with
  | touch k => exact hnodup tag
  | track k tags =>
    by_cases hne : tags = []
    · subst hne
      exact hnodup tag
    have huntag := nodup_untag hnodup k tag
    have hkeys : ((index.track options now k tags).tagToKeys tag) =
        if tag ∈ tags then (index.maps.untag k tag).filter (· ≠ k) ++ [k]
        else index.maps.untag k tag := by
      simp [track, TagIndex.track, hne, TagIndex.untag, TagIndex.touch]
    rw [perform, hkeys]
    split
    · apply List.nodup_append'.mpr
      refine ⟨huntag.filter _, List.nodup_singleton _, ?_⟩
      simp
    · exact huntag
  | remove k => exact nodup_untag hnodup k tag
  | clear => exact List.nodup_nil

theorem nodup_keysForTag_after (history : List (Millis × IndexOperation)) (tag : String) :
    ((after options history).keysForTag tag).Nodup := by
  suffices hall : ∀ tag, ((after options history).tagToKeys tag).Nodup from hall tag
  induction history with
  | nil => exact fun _ => List.nodup_nil
  | cons operation earlier ih => exact nodup_perform ih operation

theorem size_after_le (hmax : 1 ≤ options.maxKnownKeys) (hround : 1 ≤ options.toRemove)
    (history : List (Millis × IndexOperation)) :
    ((after options history).known.knownKeys.size : ℚ) ≤ options.maxKnownKeys := by
  have hempty : ((empty.known.knownKeys.size : ℕ) : ℚ) ≤ options.maxKnownKeys := by
    have hsize : empty.known.knownKeys.size = 0 := rfl
    rw [hsize, Nat.cast_zero]
    exact zero_le_one.trans hmax
  induction history with
  | nil => exact hempty
  | cons operation earlier ih =>
    obtain ⟨now, operation⟩ := operation
    cases operation with
    | touch k => exact KnownKeys.size_see_le ih hround
    | track k tags => exact KnownKeys.size_see_le ih hround
    | remove k =>
      refine le_trans ?_ ih
      rw [Nat.cast_le]
      exact KnownKeys.size_removeKnownKey_le
    | clear => exact hempty

/-- The maps, the trie and the lists that are read from them, after a history. -/
structure Represents (options : TagIndexOptions) (history : List (Millis × IndexOperation))
    (index : MemoryTagIndex) : Prop where
  terminal : ∀ key, index.known.root.terminal (keyNode key) = true ↔
    key ∈ index.known.knownKeys.keys
  no_dead_branch : ∀ node c, c ∈ index.known.root.children node →
    ∃ key ∈ index.known.knownKeys.keys, c :: node <:+ keyNode key
  inverse : ∀ key tag, key ∈ index.keysForTag tag ↔ tag ∈ index.tagsForKey key
  bounded : (index.known.knownKeys.size : ℚ) ≤ options.maxKnownKeys
  keysForPrefix : ∀ pre, ∃ keys, index.keysForPrefix pre = some keys ∧ keys.Nodup ∧
    ∀ key, key ∈ keys ↔ key ∈ index.known.knownKeys.keys ∧ startsWith key pre = true
  matchPattern : ∀ pattern, ∃ keys, index.matchPattern pattern = some keys ∧ keys.Nodup ∧
    ∀ key, key ∈ keys ↔ key ∈ index.known.knownKeys.keys ∧ patternMatches pattern key = true
  keysForTag : ∀ tag, (index.keysForTag tag).Nodup ∧ ∀ key, key ∈ index.keysForTag tag ↔
    ∃ tags, latestTags key history = some tags ∧ tag ∈ tags

/-- After every history, whatever the clock. A tenth of a bound from one on is rounded up to
one or more. -/
theorem represents (options : TagIndexOptions) (hmax : 1 ≤ options.maxKnownKeys)
    (hround : 0 < options.maxKnownKeys → 1 ≤ options.toRemove)
    (history : List (Millis × IndexOperation)) :
    Represents options history (after options history) := by
  have hholds := (after options history).known.holds
  constructor
  · intro key
    rw [hholds.terminal, endsOf, Set.mem_ofPred_eq, nodeKey_keyNode]
  · intro node c hc
    obtain ⟨word, hword, hbelow⟩ := (hholds.children node c).mp hc
    refine ⟨nodeKey word, hword, ?_⟩
    rwa [keyNode_nodeKey]
  · exact fun key tag => mem_keysForTag
  · exact size_after_le hmax (hround (zero_lt_one.trans_le hmax)) history
  · exact fun pre => (after options history).known.keysForPrefix_spec pre
  · exact fun pattern => (after options history).known.matchPattern_spec pattern
  · intro tag
    refine ⟨nodup_keysForTag_after history tag, fun key => ?_⟩
    rw [mem_keysForTag]
    exact mem_tagsForKey_after history

/-- The first key is no longer known, and its tag still has it. -/
theorem represents_pruned :
    let options : TagIndexOptions := ⟨1, 1, 1000⟩
    let history : List (Millis × IndexOperation) :=
      [(1, .track "b" ["t"]), (0, .track "a" ["t"])]
    (after options history).known.knownKeys.keys = ["b"] ∧
      "a" ∈ (after options history).keysForTag "t" ∧
      Represents options history (after options history) :=
  ⟨by decide +kernel, by decide +kernel, represents ⟨1, 1, 1000⟩ le_rfl (fun _ => le_rfl) _⟩

end MemoryTagIndex

end LayerCache
