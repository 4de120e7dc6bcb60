import Mathlib.Data.List.Dedup
import Mathlib.Logic.Function.Basic

/-! # The in-process tag index

The index maps tags to keys and keys to tags and remembers the keys it has seen. It is
taken below its key bound, where no known key is pruned.
-/

namespace LayerCache

structure TagIndex (K T : Type*) where
  tagToKeys : T → List K
  keyToTags : K → Option (List T)
  knownKeys : List K

namespace TagIndex

variable {K T : Type*}

def empty : TagIndex K T := ⟨fun _ => [], fun _ => none, []⟩

def clear (_ : TagIndex K T) : TagIndex K T := empty

def keysForTag (index : TagIndex K T) (tag : T) : List K := index.tagToKeys tag

variable [DecidableEq K]

def touch (index : TagIndex K T) (key : K) : TagIndex K T :=
  { index with
    knownKeys := if key ∈ index.knownKeys then index.knownKeys else index.knownKeys ++ [key] }

variable [DecidableEq T]

/-- Takes the key out of the key sets of the tags it has had. -/
def untag (index : TagIndex K T) (key : K) : T → List K :=
  match index.keyToTags key with
  | none => index.tagToKeys
  | some tags => fun tag =>
    if tag ∈ tags then (index.tagToKeys tag).filter (· ≠ key) else index.tagToKeys tag

/-- An empty list of tags leaves the tags of the key as they are. -/
def track (index : TagIndex K T) (key : K) (tags : List T) : TagIndex K T :=
  let index := index.touch key
  if tags.isEmpty then index
  else
    { index with
      tagToKeys := fun tag =>
        if tag ∈ tags then (index.untag key tag).filter (· ≠ key) ++ [key]
        else index.untag key tag
      keyToTags := Function.update index.keyToTags key (some tags.dedup) }

def remove (index : TagIndex K T) (key : K) : TagIndex K T where
  tagToKeys := index.untag key
  keyToTags := Function.update index.keyToTags key none
  knownKeys := index.knownKeys.filter (· ≠ key)

variable {index : TagIndex K T} {key k : K} {tag : T} {tags : List T}

omit [DecidableEq T] in
@[simp]
theorem tagToKeys_touch : (index.touch key).tagToKeys = index.tagToKeys := rfl

theorem mem_untag_of_ne (h : k ≠ key) :
    k ∈ index.untag key tag ↔ k ∈ index.keysForTag tag := by
  unfold untag keysForTag
  cases index.keyToTags key with
  | none => rfl
  | some tags =>
    simp only
    split
    · simp [h]
    · rfl

theorem mem_keysForTag_track_self (h : tag ∈ tags) :
    key ∈ (index.track key tags).keysForTag tag := by
  have hne : tags.isEmpty = false := by
    cases tags with
    | nil => cases h
    | cons => rfl
  simp [track, hne, keysForTag, h]

theorem mem_keysForTag_track_of_ne (h : k ≠ key) :
    k ∈ (index.track key tags).keysForTag tag ↔ k ∈ index.keysForTag tag := by
  have huntag : k ∈ (index.touch key).untag key tag ↔ k ∈ index.tagToKeys tag :=
    mem_untag_of_ne h
  unfold track
  simp only
  split
  · exact Iff.rfl
  · simp only [keysForTag]
    split
    · simpa [h] using huntag
    · exact huntag

/-- What the index has for a key under a tag it also has for the tag under the key. -/
def Consistent (index : TagIndex K T) : Prop :=
  ∀ key tag, key ∈ index.tagToKeys tag → ∃ tags, index.keyToTags key = some tags ∧ tag ∈ tags

omit [DecidableEq K] [DecidableEq T] in
theorem consistent_empty : (empty : TagIndex K T).Consistent := fun _ _ h => nomatch h

theorem not_mem_untag (h : index.Consistent) : key ∉ index.untag key tag := by
  intro hmem
  unfold untag at hmem
  cases hkey : index.keyToTags key with
  | none =>
    rw [hkey] at hmem
    obtain ⟨tags, htags, -⟩ := h key tag hmem
    rw [hkey] at htags
    cases htags
  | some old =>
    simp only [hkey] at hmem
    split at hmem
    · simp at hmem
    · rename_i htag
      obtain ⟨tags, htags, hold⟩ := h key tag hmem
      rw [hkey] at htags
      cases htags
      exact htag hold

omit [DecidableEq T] in
theorem Consistent.touch (h : index.Consistent) : (index.touch key).Consistent := h

theorem Consistent.of_untag (h : index.Consistent) (key : K) {after : TagIndex K T}
    (htags : ∀ k, k ≠ key → after.keyToTags k = index.keyToTags k)
    (hkeys : ∀ k tag, k ≠ key → (k ∈ after.tagToKeys tag ↔ k ∈ index.untag key tag))
    (hself : ∀ tag, key ∈ after.tagToKeys tag →
      ∃ tags, after.keyToTags key = some tags ∧ tag ∈ tags) : after.Consistent := by
  intro k tag hmem
  by_cases hk : k = key
  · subst hk
    exact hself tag hmem
  · rw [htags k hk]
    exact h k tag ((mem_untag_of_ne hk).mp ((hkeys k tag hk).mp hmem))

theorem Consistent.track (h : index.Consistent) : (index.track key tags).Consistent := by
  unfold TagIndex.track
  simp only
  split
  · exact h
  · refine h.of_untag key ?_ ?_ ?_
    · exact fun k hk => Function.update_of_ne hk _ _
    · intro k tag hk
      simp only
      split
      · simp [hk, untag, TagIndex.touch]
      · rfl
    · intro tag hmem
      refine ⟨tags.dedup, Function.update_self _ _ _, ?_⟩
      simp only at hmem
      split at hmem
      · rename_i htag
        exact List.mem_dedup.mpr htag
      · exact absurd hmem (not_mem_untag h.touch)

theorem Consistent.remove (h : index.Consistent) : (index.remove key).Consistent := by
  refine h.of_untag key ?_ (fun _ _ _ => Iff.rfl) ?_
  · exact fun k hk => Function.update_of_ne hk _ _
  · exact fun tag hmem => absurd hmem (not_mem_untag h)

theorem mem_keysForTag_track_iff (h : index.Consistent) (hne : tags ≠ []) :
    key ∈ (index.track key tags).keysForTag tag ↔ tag ∈ tags := by
  constructor
  · intro hmem
    by_contra htag
    have hempty : tags.isEmpty = false := by simpa using hne
    simp only [track, hempty, keysForTag, htag, if_false, Bool.false_eq_true] at hmem
    exact not_mem_untag h.touch hmem
  · exact mem_keysForTag_track_self

theorem mem_keysForTag_remove_of_ne (h : k ≠ key) :
    k ∈ (index.remove key).keysForTag tag ↔ k ∈ index.keysForTag tag :=
  mem_untag_of_ne h

end TagIndex

end LayerCache
