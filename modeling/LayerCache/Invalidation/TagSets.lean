import Mathlib.Data.Finset.Card
import LayerCache.Invalidation.IndexHistory

/-! # The key sets that the tag index stores

Here the maps of the index are maps with entries, so that a tag whose keys are all gone is
told apart from one that is not stored. Removing a key drops the sets it empties. Tracking
a key with other tags leaves them behind.
-/

namespace LayerCache

structure StoredTagIndex where
  tagToKeys : OrderedMap String (List String)
  keyToTags : OrderedMap String (List String)
  known : KnownKeys

namespace StoredTagIndex

def empty : StoredTagIndex := ⟨.empty, .empty, .empty⟩

/-- `set.add(element)` -/
def add (elements : List String) (element : String) : List String :=
  if element ∈ elements then elements else elements ++ [element]

/-- `keys.delete(key)` -/
def without (keys : List String) (key : String) : List String := keys.filter (· ≠ key)

/-- `keys.delete(key)`, and the tag goes with its last key. -/
def detach (key : String) : Option (List String) → Option (List String)
  | none => none
  | some keys => if without keys key = [] then none else some (without keys key)

section Operations
variable (index : StoredTagIndex)

def keysForTag (tag : String) : List String := (index.tagToKeys.get tag).getD []

def tagsForKey (key : String) : List String := (index.keyToTags.get key).getD []

def touch (options : TagIndexOptions) (now : Millis) (key : String) : StoredTagIndex :=
  { index with known := index.known.see options now key }

/-- The key out of the sets of the tags it has had, which stay. -/
def untagged (key : String) : OrderedMap String (List String) :=
  (index.tagsForKey key).foldl
    (fun tagToKeys tag => tagToKeys.alter tag (Option.map (without · key))) index.tagToKeys

def track (options : TagIndexOptions) (now : Millis) (key : String) (tags : List String) :
    StoredTagIndex :=
  let index := index.touch options now key
  if tags.isEmpty then index
  else
    let tagSet := tags.foldl add []
    { index with
      keyToTags := index.keyToTags.set key tagSet
      tagToKeys := tagSet.foldl
        (fun tagToKeys tag => tagToKeys.alter tag fun keys => some (add (keys.getD []) key))
        (index.untagged key) }

def remove (key : String) : StoredTagIndex where
  tagToKeys := (index.tagsForKey key).foldl
    (fun tagToKeys tag => tagToKeys.alter tag (detach key)) index.tagToKeys
  keyToTags := index.keyToTags.delete key
  known := index.known.removeKnownKey key

def clear (_ : StoredTagIndex) : StoredTagIndex := empty

def perform (options : TagIndexOptions) : Millis × IndexOperation → StoredTagIndex
  | (now, .touch key) => index.touch options now key
  | (now, .track key tags) => index.track options now key tags
  | (_, .remove key) => index.remove key
  | (_, .clear) => index.clear

def tagsInUse : Finset String := (index.keyToTags.entries.flatMap (·.2)).toFinset

end Operations

/-- The index after a history, the latest operation first. -/
def after (options : TagIndexOptions) : List (Millis × IndexOperation) → StoredTagIndex
  | [] => empty
  | operation :: earlier => (after options earlier).perform options operation

/-- Every stored tag has a key, so that no more tags are stored than are in use. -/
structure Compact (index : StoredTagIndex) : Prop where
  nonempty : ∀ tag keys, index.tagToKeys.get tag = some keys → keys ≠ []
  bounded : index.tagToKeys.size ≤ index.tagsInUse.card

/-- A key that is tracked with other tags leaves no tag behind that it alone has had. -/
def Spares (index : StoredTagIndex) : Millis × IndexOperation → Prop
  | (_, .track key tags) => tags ≠ [] → ∀ tag ∈ index.tagsForKey key, tag ∉ tags →
      ∃ k, k ≠ key ∧ tag ∈ index.tagsForKey k
  | _ => True

def Linked (index : StoredTagIndex) : Prop :=
  ∀ key tag, key ∈ index.keysForTag tag ↔ tag ∈ index.tagsForKey key

variable {index : StoredTagIndex} {options : TagIndexOptions} {now : Millis}
  {key k tag : String} {tags : List String} {operation : Millis × IndexOperation}

theorem mem_add {elements : List String} {element x : String} :
    x ∈ add elements element ↔ x ∈ elements ∨ x = element := by
  unfold add
  split
  · next h =>
    constructor
    · exact .inl
    · rintro (hx | rfl)
      · exact hx
      · exact h
  · rw [List.mem_append, List.mem_singleton]

theorem mem_foldl_add {elements : List String} {x : String} :
    x ∈ tags.foldl add elements ↔ x ∈ elements ∨ x ∈ tags := by
  induction tags generalizing elements with
  | nil => simp
  | cons tag tags ih => rw [List.foldl_cons, ih, mem_add, List.mem_cons, or_assoc]

theorem mem_without {keys : List String} : k ∈ without keys key ↔ k ≠ key ∧ k ∈ keys := by
  rw [without, List.mem_filter, decide_eq_true_eq, and_comm]

theorem without_without (keys : List String) (key : String) :
    without (without keys key) key = without keys key := by
  rw [without, without, List.filter_filter]
  simp

theorem detach_detach (key : String) (keys : Option (List String)) :
    detach key (detach key keys) = detach key keys := by
  cases keys with
  | none => rfl
  | some keys =>
    by_cases h : without keys key = []
    · simp only [detach, if_pos h]
    · simp only [detach, if_neg h, without_without]

theorem get_untagged : (index.untagged key).get tag =
    if tag ∈ index.tagsForKey key then (index.tagToKeys.get tag).map (without · key)
    else index.tagToKeys.get tag := by
  rw [untagged, OrderedMap.get_foldl_alter]
  intro keys
  cases keys with
  | none => rfl
  | some keys => exact congrArg some (without_without keys key)

theorem get_tagToKeys_track (hne : tags ≠ []) :
    (index.track options now key tags).tagToKeys.get tag =
      if tag ∈ tags then some (add (((index.untagged key).get tag).getD []) key)
      else (index.untagged key).get tag := by
  have hempty : tags.isEmpty = false := by simpa using hne
  have hset : tag ∈ tags.foldl add [] ↔ tag ∈ tags := by simp [mem_foldl_add]
  simp only [track, hempty, Bool.false_eq_true, if_false]
  rw [OrderedMap.get_foldl_alter, if_congr hset rfl rfl]
  · rfl
  · intro keys
    have hmem : key ∈ add (keys.getD []) key := mem_add.mpr (.inr rfl)
    rw [Option.getD_some, add.eq_def (add _ _), if_pos hmem]

theorem tagsForKey_track : tag ∈ (index.track options now key tags).tagsForKey k ↔
    if k = key ∧ tags ≠ [] then tag ∈ tags else tag ∈ index.tagsForKey k := by
  by_cases hne : tags = []
  · subst hne
    rw [if_neg (fun h => h.2 rfl)]
    exact Iff.rfl
  have hempty : tags.isEmpty = false := by simpa using hne
  simp only [track, hempty, Bool.false_eq_true, if_false, tagsForKey]
  by_cases hk : k = key
  · subst hk
    rw [if_pos ⟨rfl, hne⟩, OrderedMap.get_set_self, Option.getD_some, mem_foldl_add]
    simp
  · rw [if_neg (fun h => hk h.1), OrderedMap.get_set_of_ne hk]
    rfl

theorem get_tagToKeys_remove : (index.remove key).tagToKeys.get tag =
    if tag ∈ index.tagsForKey key then detach key (index.tagToKeys.get tag)
    else index.tagToKeys.get tag := by
  rw [remove, OrderedMap.get_foldl_alter (detach_detach key)]

theorem tagsForKey_remove :
    tag ∈ (index.remove key).tagsForKey k ↔ k ≠ key ∧ tag ∈ index.tagsForKey k := by
  rw [tagsForKey, remove, tagsForKey]
  by_cases hk : k = key
  · subst hk
    simp
  · rw [OrderedMap.get_delete_of_ne hk]
    exact (and_iff_right hk).symm

theorem linked_empty : empty.Linked := fun _ _ => by simp [empty, keysForTag, tagsForKey]

theorem Linked.mem_without (h : index.Linked) {keys : Option (List String)}
    (hkeys : keys.getD [] = if tag ∈ index.tagsForKey key then without (index.keysForTag tag) key
      else index.keysForTag tag) :
    k ∈ keys.getD [] ↔ k ≠ key ∧ k ∈ index.keysForTag tag := by
  rw [hkeys]
  split
  · exact StoredTagIndex.mem_without
  · next htag =>
    rw [← h] at htag
    constructor
    · intro hk
      refine ⟨?_, hk⟩
      rintro rfl
      exact htag hk
    · exact And.right

theorem Linked.mem_untagged (h : index.Linked) :
    k ∈ ((index.untagged key).get tag).getD [] ↔ k ≠ key ∧ k ∈ index.keysForTag tag := by
  refine h.mem_without ?_
  rw [get_untagged]
  split
  · rw [keysForTag]
    cases index.tagToKeys.get tag <;> rfl
  · rfl

theorem Linked.mem_keysForTag_remove (h : index.Linked) :
    k ∈ (index.remove key).keysForTag tag ↔ k ≠ key ∧ k ∈ index.keysForTag tag := by
  refine h.mem_without ?_
  rw [get_tagToKeys_remove]
  split
  · rw [keysForTag]
    cases index.tagToKeys.get tag with
    | none => rfl
    | some keys =>
      by_cases hk : without keys key = []
      · rw [detach, if_pos hk, Option.getD_some, hk, Option.getD_none]
      · rw [detach, if_neg hk, Option.getD_some, Option.getD_some]
  · rfl

theorem Linked.mem_keysForTag_track (h : index.Linked) (hne : tags ≠ []) :
    k ∈ (index.track options now key tags).keysForTag tag ↔
      if k = key then tag ∈ tags else k ∈ index.keysForTag tag := by
  rw [keysForTag, get_tagToKeys_track hne]
  by_cases hk : k = key
  · subst hk
    by_cases htag : tag ∈ tags
    · simp [htag, mem_add]
    · simp [htag, h.mem_untagged]
  · by_cases htag : tag ∈ tags
    · simp [htag, mem_add, h.mem_untagged, hk]
    · simp [htag, h.mem_untagged, hk]

theorem Linked.perform (h : index.Linked) (operation : Millis × IndexOperation) :
    (index.perform options operation).Linked := by
  obtain ⟨now, operation⟩ := operation
  intro k tag
  cases operation with
  | touch key => exact h k tag
  | track key tags =>
    by_cases hne : tags = []
    · subst hne
      exact h k tag
    · rw [StoredTagIndex.perform, h.mem_keysForTag_track hne, tagsForKey_track, h]
      by_cases hk : k = key <;> simp [hk, hne]
  | remove key => rw [StoredTagIndex.perform, h.mem_keysForTag_remove, tagsForKey_remove, h]
  | clear => exact linked_empty k tag

theorem linked_after (options : TagIndexOptions) (history : List (Millis × IndexOperation)) :
    (after options history).Linked := by
  induction history with
  | nil => exact linked_empty
  | cons operation earlier ih => exact ih.perform operation

theorem mem_tagsInUse : tag ∈ index.tagsInUse ↔ ∃ key, tag ∈ index.tagsForKey key := by
  rw [tagsInUse, List.mem_toFinset, List.mem_flatMap]
  constructor
  · rintro ⟨⟨key, tags⟩, hmem, htag⟩
    refine ⟨key, ?_⟩
    rw [tagsForKey, OrderedMap.get_eq_some_iff.mpr hmem]
    exact htag
  · rintro ⟨key, htag⟩
    rw [tagsForKey] at htag
    cases hget : index.keyToTags.get key with
    | none =>
      rw [hget] at htag
      cases htag
    | some tags =>
      rw [hget] at htag
      exact ⟨(key, tags), OrderedMap.get_eq_some_iff.mp hget, htag⟩

theorem Linked.compact (h : index.Linked)
    (hnonempty : ∀ tag keys, index.tagToKeys.get tag = some keys → keys ≠ []) : index.Compact where
  nonempty := hnonempty
  bounded := by
    have hnodup : index.tagToKeys.keys.Nodup := index.tagToKeys.nodup
    rw [← OrderedMap.length_keys, ← List.toFinset_card_of_nodup hnodup]
    apply Finset.card_le_card
    intro tag htag
    rw [List.mem_toFinset, ← OrderedMap.get_isSome_iff, Option.isSome_iff_exists] at htag
    obtain ⟨keys, hkeys⟩ := htag
    obtain ⟨key, hkey⟩ := List.exists_mem_of_ne_nil keys (hnonempty tag keys hkeys)
    refine mem_tagsInUse.mpr ⟨key, (h key tag).mp ?_⟩
    rwa [keysForTag, hkeys]

theorem linked_compact_empty : empty.Compact := linked_empty.compact fun _ _ h => nomatch h

theorem Linked.nonempty_track (h : index.Linked) (hc : index.Compact) (hne : tags ≠ []) :
    (∀ tag keys, (index.track options now key tags).tagToKeys.get tag = some keys → keys ≠ []) ↔
      index.Spares (now, .track key tags) := by
  constructor
  · intro hnonempty _ tag htag hnot
    have hget : (index.track options now key tags).tagToKeys.get tag = _ :=
      get_tagToKeys_track hne
    have hmem := (h key tag).mpr htag
    rw [keysForTag] at hmem
    cases hkeys : index.tagToKeys.get tag with
    | none =>
      rw [hkeys] at hmem
      cases hmem
    | some keys =>
      rw [if_neg hnot, get_untagged, if_pos htag, hkeys, Option.map_some] at hget
      obtain ⟨k, hk⟩ := List.exists_mem_of_ne_nil _ (hnonempty tag _ hget)
      obtain ⟨hkne, hk⟩ := StoredTagIndex.mem_without.mp hk
      refine ⟨k, hkne, (h k tag).mp ?_⟩
      rwa [keysForTag, hkeys]
  · intro hspares tag keys hget
    rw [get_tagToKeys_track hne] at hget
    split at hget
    · cases hget
      exact List.ne_nil_of_mem (mem_add.mpr (.inr rfl))
    · next hnot =>
      by_cases htag : tag ∈ index.tagsForKey key
      · obtain ⟨k, hkne, hk⟩ := hspares hne tag htag hnot
        have hmem := h.mem_untagged.mpr ⟨hkne, (h k tag).mpr hk⟩
        rw [hget] at hmem
        exact List.ne_nil_of_mem hmem
      · rw [get_untagged, if_neg htag] at hget
        exact hc.nonempty tag keys hget

/-- The removal of a key drops the tags it alone has had. -/
theorem nonempty_remove (hc : index.Compact) :
    ∀ tag keys, (index.remove key).tagToKeys.get tag = some keys → keys ≠ [] := by
  intro tag keys hget
  rw [get_tagToKeys_remove] at hget
  split at hget
  · cases hkeys : index.tagToKeys.get tag with
    | none =>
      rw [hkeys] at hget
      cases hget
    | some stored =>
      rw [hkeys, detach] at hget
      split at hget
      · cases hget
      · next hrest => exact Option.some.inj hget ▸ hrest
  · exact hc.nonempty tag keys hget

/-- Of the operations only a `track` can leave a tag behind. -/
theorem Linked.compact_perform_iff (h : index.Linked) (hc : index.Compact) :
    (index.perform options operation).Compact ↔ index.Spares operation := by
  have hlinked : (index.perform options operation).Linked := h.perform operation
  obtain ⟨now, operation⟩ := operation
  cases operation with
  | touch key => exact iff_of_true (hlinked.compact hc.nonempty) trivial
  | track key tags =>
    by_cases hne : tags = []
    · subst hne
      exact iff_of_true (hlinked.compact hc.nonempty) (fun hne => absurd rfl hne)
    · rw [← h.nonempty_track hc hne]
      exact ⟨Compact.nonempty, hlinked.compact⟩
  | remove key => exact iff_of_true (hlinked.compact (nonempty_remove hc)) trivial
  | clear => exact iff_of_true linked_compact_empty trivial

/-- The index stays compact along a history exactly when no `track` in it leaves a tag behind. -/
theorem compact_along_iff (options : TagIndexOptions) (history : List (Millis × IndexOperation)) :
    (∀ past, past <:+ history → (after options past).Compact) ↔
      ∀ operation past, operation :: past <:+ history → (after options past).Spares operation := by
  constructor
  · intro h operation past hpast
    have hc := h past ((List.suffix_cons operation past).trans hpast)
    exact ((linked_after options past).compact_perform_iff hc).mp (h _ hpast)
  · intro h past hpast
    induction past with
    | nil => exact linked_compact_empty
    | cons operation past ih =>
      have hc := ih ((List.suffix_cons operation past).trans hpast)
      exact ((linked_after options past).compact_perform_iff hc).mpr (h operation past hpast)

/-- A key that changes its only tag leaves the old one behind, with no key. -/
theorem not_compact_retagged : ¬ (after Indexes.defaultOptions
    [(1, .track "user:1" ["session:2"]), (0, .track "user:1" ["session:1"])]).Compact := by
  intro h
  have hstored : (after Indexes.defaultOptions [(1, .track "user:1" ["session:2"]),
      (0, .track "user:1" ["session:1"])]).tagToKeys.get "session:1" = some [] := by
    decide +kernel
  exact h.nonempty _ _ hstored rfl

end StoredTagIndex

end LayerCache
