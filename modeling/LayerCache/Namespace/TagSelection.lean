import LayerCache.Namespace.Frames
import Mathlib.Data.Finset.Card

/-! # Invalidation by several tags

The keys of each tag are collected, and only then deleted or expired: those that carry one of the
tags, or those that carry all of them. In every state that a run of operations leads to, an
invalidation reaches exactly these keys, or, where they are too many for the limit, none.
-/

namespace LayerCache

namespace TagIndex

variable {K T : Type*} [DecidableEq K] [DecidableEq T] {index : TagIndex K T} {key k : K} {tag : T}

def Distinct (index : TagIndex K T) : Prop := ∀ tag, (index.tagToKeys tag).Nodup

theorem Distinct.untag (h : index.Distinct) (key : K) (tag : T) : (index.untag key tag).Nodup := by
  unfold TagIndex.untag
  cases index.keyToTags key with
  | none => exact h tag
  | some tags =>
    dsimp only
    split
    · exact (h tag).filter _
    · exact h tag

theorem Distinct.track (h : index.Distinct) (key : K) (tags : List T) :
    (index.track key tags).Distinct := by
  intro tag
  have htouch : (index.touch key).Distinct := h
  have huntag : ((index.touch key).untag key tag).Nodup := htouch.untag key tag
  unfold TagIndex.track
  dsimp only
  split
  · exact h tag
  · dsimp only
    split
    · refine List.Nodup.append (huntag.filter _) (List.nodup_singleton key) ?_
      intro k hk hkey
      exact of_decide_eq_true (List.mem_filter.mp hk).2 (List.mem_singleton.mp hkey)
    · exact huntag

theorem Distinct.remove (h : index.Distinct) (key : K) : (index.remove key).Distinct :=
  fun tag => h.untag key tag

theorem mem_keysForTag_foldl_remove_iff (h : index.Consistent) {keys : List K} :
    k ∈ (keys.foldl TagIndex.remove index).keysForTag tag ↔
      k ∉ keys ∧ k ∈ index.keysForTag tag := by
  induction keys generalizing index with
  | nil => simp
  | cons key keys ih =>
    rw [List.foldl_cons, ih h.remove, List.mem_cons, not_or]
    by_cases hk : k = key
    · subst hk
      constructor
      · rintro ⟨-, hmem⟩
        exact absurd hmem (not_mem_untag h)
      · rintro ⟨⟨hne, -⟩, -⟩
        exact absurd rfl hne
    · rw [mem_keysForTag_remove_of_ne hk]
      tauto

end TagIndex

namespace Namespaced

variable {G V : Type} {stack after : CacheStack G V} {layer : Layer V} {raw : String}
  {tags : List String}

structure Tracked (index : TagIndex String String) : Prop where
  consistent : index.Consistent
  distinct : index.Distinct

theorem tracked_empty : Tracked .empty := ⟨TagIndex.consistent_empty, fun _ => List.nodup_nil⟩

theorem Tracked.touch {index : TagIndex String String} (h : Tracked index) (key : String) :
    Tracked (index.touch key) := ⟨h.consistent, h.distinct⟩

theorem Tracked.remove {index : TagIndex String String} (h : Tracked index) (key : String) :
    Tracked (index.remove key) := ⟨h.consistent.remove, h.distinct.remove key⟩

theorem Tracked.foldl_remove {index : TagIndex String String} (h : Tracked index)
    (keys : List String) : Tracked (keys.foldl TagIndex.remove index) := by
  induction keys generalizing index with
  | nil => exact h
  | cons key keys ih => exact ih (h.remove key)

theorem Tracked.store (h : Tracked stack.tagIndex) {key : String} {kind : CacheWriteKind}
    {value : Option V} {resolved : ResolvedOptions} :
    Tracked (stack.store key kind value resolved).tagIndex := by
  unfold CacheStack.store
  cases resolved.tags with
  | none => exact h.touch key
  | some tags => exact ⟨h.consistent.track, h.distinct.track key tags⟩

theorem Tracked.read (h : Tracked stack.tagIndex) {key : String} {ttl : Option Millis} :
    Tracked (stack.read key ttl).2.tagIndex := by
  unfold CacheStack.read
  dsimp only
  split
  · exact h.touch key
  · exact h.remove key

section Runs
variable [ToString G]

/-- Some time passes and the operation runs; one that is refused changes nothing. -/
def CacheStack.step (stack : CacheStack G V) (event : Millis × Operation V) : CacheStack G V :=
  let stack := stack.elapse event.1
  (stack.perform event.2).toOption.getD stack

def CacheStack.run (stack : CacheStack G V) (events : List (Millis × Operation V)) :
    CacheStack G V :=
  events.foldl CacheStack.step stack

theorem Tracked.perform (h : Tracked stack.tagIndex) {operation : Operation V}
    (hafter : stack.perform operation = .ok after) : Tracked after.tagIndex := by
  cases operation with
  | set key value options =>
    obtain ⟨-, resolved, -, rfl⟩ := set_cases hafter
    exact h.store
  | mset entries =>
    obtain ⟨resolved, -, rfl⟩ := mset_cases hafter
    have hfold : ∀ (resolved : List (String × V × ResolvedOptions)) (stack : CacheStack G V),
        Tracked stack.tagIndex → Tracked (resolved.foldl (fun stack r =>
          stack.store r.1 .value (some r.2.1) r.2.2) stack).tagIndex := by
      intro resolved
      induction resolved with
      | nil => exact fun _ h => h
      | cons r resolved ih => exact fun stack h => ih _ h.store
    exact hfold resolved stack h
  | get key fetched options =>
    obtain ⟨-, hcases⟩ := get_cases hafter rfl
    split at hcases
    · rw [hcases]
      exact h.read
    · split at hcases
      · rw [hcases]
        exact h.read
      · rw [hcases]
        exact h.read.store
  | invalidate effect selection =>
    obtain ⟨keys, -, hafter⟩ := Keys.ok_bind.mp hafter
    cases effect with
    | delete =>
      cases hafter
      exact h.foldl_remove keys
    | expire =>
      cases hafter
      exact h.foldl_remove _

theorem Tracked.run (h : Tracked stack.tagIndex) (events : List (Millis × Operation V)) :
    Tracked (stack.run events).tagIndex := by
  induction events generalizing stack with
  | nil => exact h
  | cons event events ih =>
    apply ih
    have hlater : Tracked (stack.elapse event.1).tagIndex := h
    rw [CacheStack.step]
    cases hafter : (stack.elapse event.1).perform event.2 with
    | error error => exact hlater
    | ok after => exact hlater.perform hafter

end Runs

def CacheStack.Carries (stack : CacheStack G V) (tags : List String) (all : Bool) (raw : String) :
    Prop :=
  if all then ∀ tag ∈ tags, raw ∈ stack.tagIndex.keysForTag tag
  else ∃ tag ∈ tags, raw ∈ stack.tagIndex.keysForTag tag

/-- The keys are few enough: those of each tag where all tags are asked for, else those of all
tags together. -/
def CacheStack.Fits (stack : CacheStack G V) (tags : List String) (all : Bool) : Prop :=
  ∀ maxKeys ∈ stack.invalidationMaxKeys,
    if all then ∀ tag ∈ tags, (stack.tagIndex.keysForTag tag).toFinset.card ≤ maxKeys
    else (tags.flatMap stack.tagIndex.keysForTag).toFinset.card ≤ maxKeys

theorem assertWithinLimit_of_le {reported : ℕ → ℕ} {keys : List String}
    (h : ∀ maxKeys ∈ stack.invalidationMaxKeys, keys.length ≤ maxKeys) :
    stack.assertWithinLimit reported keys = .ok keys := by
  unfold CacheStack.assertWithinLimit
  cases hmax : stack.invalidationMaxKeys with
  | none => rfl
  | some maxKeys => exact if_neg (not_lt.mpr (h maxKeys hmax))

theorem assertWithinLimit_of_lt {reported : ℕ → ℕ} {keys : List String} {maxKeys : ℕ}
    (hmax : maxKeys ∈ stack.invalidationMaxKeys) (h : maxKeys < keys.length) :
    ∃ error, stack.assertWithinLimit reported keys = .error error := by
  unfold CacheStack.assertWithinLimit
  rw [hmax]
  exact ⟨_, if_pos h⟩

theorem mapM_collectKeysForTag (h : ∀ tag ∈ tags, ∀ maxKeys ∈ stack.invalidationMaxKeys,
    (stack.tagIndex.keysForTag tag).length ≤ maxKeys) :
    tags.mapM stack.collectKeysForTag = .ok (tags.map stack.tagIndex.keysForTag) := by
  induction tags with
  | nil => rfl
  | cons tag tags ih =>
    have htag : stack.collectKeysForTag tag = .ok (stack.tagIndex.keysForTag tag) :=
      assertWithinLimit_of_le (h tag List.mem_cons_self)
    rw [List.mapM_cons, htag, List.map_cons]
    change (tags.mapM stack.collectKeysForTag >>= fun rest => pure (_ :: rest)) = _
    rw [ih fun tag htag => h tag (List.mem_cons_of_mem _ htag)]
    rfl

theorem mapM_collectKeysForTag_error {tag : String} {maxKeys : ℕ} (htag : tag ∈ tags)
    (hmax : maxKeys ∈ stack.invalidationMaxKeys)
    (h : maxKeys < (stack.tagIndex.keysForTag tag).length) :
    ∃ error, tags.mapM stack.collectKeysForTag = .error error := by
  cases hresult : tags.mapM stack.collectKeysForTag with
  | error error => exact ⟨error, rfl⟩
  | ok groups =>
    obtain ⟨error, herror⟩ : ∃ error, stack.collectKeysForTag tag = .error error :=
      assertWithinLimit_of_lt hmax h
    have hcollected : ∀ {tags : List String} {groups : List (List String)},
        List.Forall₂ (fun tag group => stack.collectKeysForTag tag = .ok group) tags groups →
        tag ∈ tags → False := by
      intro tags groups hgroups
      induction hgroups with
      | nil => exact List.not_mem_nil
      | cons hgroup _ ih =>
        intro hmem
        rcases List.mem_cons.mp hmem with rfl | hmem
        · rw [herror] at hgroup
          cases hgroup
        · exact ih hmem
    exact (hcollected (mapM_ok hresult) htag).elim

theorem mem_intersectKeys (hne : tags ≠ []) :
    raw ∈ CacheStack.intersectKeys (tags.map stack.tagIndex.keysForTag) ↔
      ∀ tag ∈ tags, raw ∈ stack.tagIndex.keysForTag tag := by
  cases tags with
  | nil => exact absurd rfl hne
  | cons tag tags =>
    rw [List.map_cons, CacheStack.intersectKeys, List.mem_filter, List.mem_dedup,
      List.forall_mem_cons]
    simp

def CacheStack.keysOfTags (stack : CacheStack G V) (tags : List String) (all : Bool) :
    List String :=
  if all then CacheStack.intersectKeys (tags.map stack.tagIndex.keysForTag)
  else (tags.map stack.tagIndex.keysForTag).flatten.dedup

theorem mem_keysOfTags (hne : tags ≠ []) (all : Bool) :
    raw ∈ stack.keysOfTags tags all ↔ stack.Carries tags all raw := by
  cases all with
  | true => exact mem_intersectKeys hne
  | false =>
    change raw ∈ (tags.map stack.tagIndex.keysForTag).flatten.dedup ↔
      ∃ tag ∈ tags, raw ∈ stack.tagIndex.keysForTag tag
    rw [List.mem_dedup, List.mem_flatten]
    simp

theorem nodup_keysOfTags (tags : List String) (all : Bool) : (stack.keysOfTags tags all).Nodup := by
  cases all with
  | true =>
    cases tags with
    | nil => exact List.nodup_nil
    | cons tag tags => exact (List.nodup_dedup _).filter _
  | false => exact List.nodup_dedup _

/-- The selection comes to the keys exactly if they are few enough. -/
theorem select_tags [ToString G] (htracked : Tracked stack.tagIndex) (hne : tags ≠ [])
    (hvalid : validateTags (some tags) = .ok ()) (all : Bool) :
    (stack.Fits tags all → stack.select (.tags tags all) = .ok (stack.keysOfTags tags all)) ∧
      (¬ stack.Fits tags all → ∃ error, stack.select (.tags tags all) = .error error) := by
  have hcard : ∀ tag, (stack.tagIndex.keysForTag tag).toFinset.card =
      (stack.tagIndex.keysForTag tag).length := fun tag =>
    List.toFinset_card_of_nodup (htracked.distinct tag)
  have hselect : stack.select (.tags tags all) = (do
      let keysByTag ← tags.mapM stack.collectKeysForTag
      let keys := if all then CacheStack.intersectKeys keysByTag else keysByTag.flatten.dedup
      stack.assertWithinLimit (fun _ => keys.length) keys) := by
    rw [CacheStack.select, if_neg (by simpa using hne), hvalid]
    rfl
  have hcollected (hmap : ∀ tag ∈ tags, ∀ maxKeys ∈ stack.invalidationMaxKeys,
      (stack.tagIndex.keysForTag tag).length ≤ maxKeys) :
      stack.select (.tags tags all) = stack.assertWithinLimit
        (fun _ => (stack.keysOfTags tags all).length) (stack.keysOfTags tags all) := by
    rw [hselect, mapM_collectKeysForTag hmap]
    rfl
  have hover {tag : String} {maxKeys : ℕ} (htag : tag ∈ tags)
      (hmax : maxKeys ∈ stack.invalidationMaxKeys)
      (h : maxKeys < (stack.tagIndex.keysForTag tag).length) :
      ∃ error, stack.select (.tags tags all) = .error error := by
    obtain ⟨error, herror⟩ := mapM_collectKeysForTag_error htag hmax h
    rw [hselect, herror]
    exact ⟨error, rfl⟩
  have hunion : (stack.keysOfTags tags false).length =
      (tags.flatMap stack.tagIndex.keysForTag).toFinset.card := by
    rw [List.card_toFinset, List.flatMap_def]
    rfl
  cases all with
  | true =>
    constructor
    · intro hfits
      have hmap : ∀ tag ∈ tags, ∀ maxKeys ∈ stack.invalidationMaxKeys,
          (stack.tagIndex.keysForTag tag).length ≤ maxKeys :=
        fun tag htag maxKeys hmax => hcard tag ▸ hfits maxKeys hmax tag htag
      rw [hcollected hmap]
      apply assertWithinLimit_of_le
      intro maxKeys hmax
      -- The intersection is no longer than the keys of the first tag.
      obtain ⟨tag, rest, rfl⟩ := List.exists_cons_of_ne_nil hne
      exact ((List.length_filter_le _ _).trans (List.dedup_sublist _).length_le).trans
        (hmap tag List.mem_cons_self maxKeys hmax)
    · intro hfits
      simp only [CacheStack.Fits, if_true, not_forall, not_le] at hfits
      obtain ⟨maxKeys, hmax, tag, htag, hlt⟩ := hfits
      exact hover htag hmax (hcard tag ▸ hlt)
  | false =>
    constructor
    · intro hfits
      have hle : ∀ maxKeys ∈ stack.invalidationMaxKeys,
          (tags.flatMap stack.tagIndex.keysForTag).toFinset.card ≤ maxKeys := hfits
      have hmap : ∀ tag ∈ tags, ∀ maxKeys ∈ stack.invalidationMaxKeys,
          (stack.tagIndex.keysForTag tag).length ≤ maxKeys := by
        intro tag htag maxKeys hmax
        rw [← hcard tag]
        refine (Finset.card_le_card fun raw hraw => ?_).trans (hle maxKeys hmax)
        rw [List.mem_toFinset] at hraw ⊢
        exact List.mem_flatMap.mpr ⟨tag, htag, hraw⟩
      rw [hcollected hmap]
      exact assertWithinLimit_of_le fun maxKeys hmax => hunion ▸ hle maxKeys hmax
    · intro hfits
      simp only [CacheStack.Fits, Bool.false_eq_true, if_false, not_forall, not_le] at hfits
      obtain ⟨maxKeys, hmax, hlt⟩ := hfits
      by_cases hmap : ∀ tag ∈ tags, (stack.tagIndex.keysForTag tag).length ≤ maxKeys
      · rw [hcollected fun tag htag maxKeys' hmax' =>
          Option.some.inj (hmax.symm.trans hmax') ▸ hmap tag htag]
        exact assertWithinLimit_of_lt hmax (hunion ▸ hlt)
      · push Not at hmap
        obtain ⟨tag, htag, hlt⟩ := hmap
        exact hover htag hmax hlt

theorem Layer.getEntry_congr {layer' : Layer V} {now : Millis}
    (h : layer'.cell raw = layer.cell raw) : layer'.getEntry now raw = layer.getEntry now raw := by
  rw [Layer.getEntry, Layer.getEntry, h]

theorem Layer.cell_set_self {value : Stored V} {ttl : Option Millis} {now : Millis} :
    (layer.set raw value ttl now).cell raw =
      some ⟨value, ((ttl.or layer.defaultTtl).filter fun ms => decide (0 < ms)).map (now + ·)⟩ := by
  have hgone : (layer.entries.filter (·.1 ≠ raw)).lookup raw = none := Layer.cell_delete_self
  rw [Layer.cell, Layer.set, List.lookup_append, hgone, Option.none_or, List.lookup_cons_self]

theorem Layer.getEntry_expire_self {now : Millis} :
    (layer.expire now raw).getEntry now raw =
      (layer.getEntry now raw).map fun stored => expireStoredEnvelope now stored now := by
  unfold Layer.expire
  cases hentry : layer.getEntry now raw with
  | none => exact hentry
  | some stored =>
    dsimp only [Option.map_some]
    split
    · rw [Layer.getEntry, Layer.cell_set_self, Option.filter_some, if_pos]
      · rfl
      · rw [decide_eq_true_eq]
        intro t ht
        obtain ⟨ms, hms, rfl⟩ := Option.mem_map.mp ht
        have hpos : 0 < ms := of_decide_eq_true (Option.mem_filter_iff.mp hms).2
        exact lt_add_of_pos_right now hpos
    · rename_i haccepted
      cases stored with
      | plain value => exact hentry
      | envelope e =>
        rw [expireStoredEnvelope, if_neg haccepted]
        exact hentry

theorem Layer.getEntry_foldl_expire {now : Millis} {keys : List String} (hnodup : keys.Nodup)
    (hraw : raw ∈ keys) :
    (keys.foldl (fun layer key => layer.expire now key) layer).getEntry now raw =
      (layer.getEntry now raw).map fun stored => expireStoredEnvelope now stored now := by
  induction keys generalizing layer with
  | nil => cases hraw
  | cons key keys ih =>
    obtain ⟨hkey, hnodup⟩ := List.nodup_cons.mp hnodup
    rw [List.foldl_cons]
    by_cases hne : raw = key
    · subst hne
      rw [Layer.getEntry_congr (Layer.cell_foldl (fun _ _ => Layer.cell_expire_of_ne) hkey),
        Layer.getEntry_expire_self]
    · rw [ih hnodup ((List.mem_cons.mp hraw).resolve_left hne),
        Layer.getEntry_congr (Layer.cell_expire_of_ne hne)]

/-- The effect has reached the selected keys, in every layer and in the index, and no others. A
key that is expired keeps its tags as long as a layer holds it. -/
structure Performed (effect : Effect) (selected : String → Prop) (stack after : CacheStack G V) :
    Prop where
  frame : Frame selected stack after
  layers : List.Forall₂ (fun layer layer' => ∀ raw, selected raw → match effect with
    | .delete => layer'.cell raw = none
    | .expire => layer'.getEntry stack.now raw =
        (layer.getEntry stack.now raw).map fun stored =>
          expireStoredEnvelope stack.now stored stack.now) stack.layers after.layers
  tags : ∀ raw, selected raw → ∀ tag, raw ∈ after.tagIndex.keysForTag tag ↔
    effect = .expire ∧ raw ∈ stack.tagIndex.keysForTag tag ∧
      ∃ layer ∈ stack.layers, (layer.getEntry stack.now raw).isSome = true

theorem performed_deleteKeys (hindex : stack.tagIndex.Consistent) {keys : List String} :
    Performed .delete (· ∈ keys) stack (stack.deleteKeys keys) where
  frame := Frame.deleteKeys
  layers := by
    rw [CacheStack.deleteKeys, List.forall₂_map_right_iff, List.forall₂_same]
    exact fun layer _ raw hraw => Layer.cell_foldl_delete hraw
  tags raw hraw tag := by
    rw [CacheStack.deleteKeys, TagIndex.mem_keysForTag_foldl_remove_iff hindex]
    constructor
    · rintro ⟨hnot, -⟩
      exact absurd hraw hnot
    · rintro ⟨h, -⟩
      cases h

theorem performed_expireKeys (hindex : stack.tagIndex.Consistent) {keys : List String}
    (hnodup : keys.Nodup) : Performed .expire (· ∈ keys) stack (stack.expireKeys keys) where
  frame := Frame.expireKeys
  layers := by
    rw [CacheStack.expireKeys, List.forall₂_map_right_iff, List.forall₂_same]
    exact fun layer _ raw hraw => Layer.getEntry_foldl_expire hnodup hraw
  tags raw hraw tag := by
    rw [CacheStack.expireKeys, TagIndex.mem_keysForTag_foldl_remove_iff hindex]
    simp [List.mem_filter, hraw, and_comm, Option.isSome_iff_ne_none]

theorem Performed.congr {effect : Effect} {selected selected' : String → Prop}
    (h : Performed effect selected stack after) (hiff : ∀ raw, selected raw ↔ selected' raw) :
    Performed effect selected' stack after := by
  obtain rfl : selected = selected' := funext fun raw => propext (hiff raw)
  exact h

/-- After any run of operations on a stack whose index was empty, an invalidation by several tags
deletes or expires exactly the keys that carry one of them, or all of them, in every layer and in
the index, or changes nothing where they are too many. -/
theorem invalidateByTags_exact [ToString G] {start : CacheStack G V}
    (hstart : start.tagIndex = .empty) (events : List (Millis × Operation V)) (effect : Effect)
    {tags : List String} (hne : tags ≠ []) (hvalid : validateTags (some tags) = .ok ())
    (all : Bool) :
    ((start.run events).Fits tags all →
      ∃ after, (start.run events).invalidate effect (.tags tags all) = .ok after ∧
        Performed effect ((start.run events).Carries tags all) (start.run events) after) ∧
      (¬ (start.run events).Fits tags all →
        ∃ error, (start.run events).invalidate effect (.tags tags all) = .error error) := by
  have htracked : Tracked (start.run events).tagIndex :=
    Tracked.run (hstart ▸ tracked_empty) events
  obtain ⟨hselected, hrefused⟩ := select_tags htracked hne hvalid all
  constructor
  · intro hfits
    rw [CacheStack.invalidate, hselected hfits]
    have hcarries : ∀ raw, raw ∈ (start.run events).keysOfTags tags all ↔
        (start.run events).Carries tags all raw := fun raw => mem_keysOfTags hne all
    cases effect with
    | delete => exact ⟨_, rfl, (performed_deleteKeys htracked.consistent).congr hcarries⟩
    | expire =>
      exact ⟨_, rfl,
        (performed_expireKeys htracked.consistent (nodup_keysOfTags tags all)).congr hcarries⟩
  · intro hfits
    obtain ⟨error, herror⟩ := hrefused hfits
    rw [CacheStack.invalidate, herror]
    exact ⟨error, rfl⟩

/-- One layer and nothing in it; an invalidation may reach two keys. -/
def nothingTagged : CacheStack ℕ ℕ where
  currentGeneration := none
  layers := [⟨true, none, []⟩]
  tagIndex := .empty
  invalidationMaxKeys := some 2
  now := 0

def tagged (tags : List String) : CacheWriteOptions ℕ := ⟨some tags, ⟨some 1000, none, none⟩, none⟩

/-- Two keys, of which only the first carries both tags. -/
def twoTagged : List (Millis × Operation ℕ) :=
  [(0, .set "k" 1 (tagged ["a", "b"])), (0, .set "l" 2 (tagged ["a"]))]

theorem invalidateByTags_exact_twoTagged : ∃ after,
    (nothingTagged.run twoTagged).invalidate .delete (.tags ["a", "b"] true) = .ok after ∧
      (∀ tag, "k" ∉ after.tagIndex.keysForTag tag) ∧ "l" ∈ after.tagIndex.keysForTag "a" := by
  have ha : (nothingTagged.run twoTagged).tagIndex.keysForTag "a" = ["k", "l"] := by decide
  have hb : (nothingTagged.run twoTagged).tagIndex.keysForTag "b" = ["k"] := by decide
  have hmax : (nothingTagged.run twoTagged).invalidationMaxKeys = some 2 := by decide
  have hstart : nothingTagged.tagIndex = .empty := rfl
  have hne : ["a", "b"] ≠ [] := by decide
  have hvalid : validateTags (some ["a", "b"]) = .ok () := by decide
  obtain ⟨hperforms, -⟩ := invalidateByTags_exact hstart twoTagged .delete hne hvalid true
  obtain ⟨after, hafter, hperformed⟩ := hperforms (by
    simp [CacheStack.Fits, hmax, ha, hb])
  have hk : (nothingTagged.run twoTagged).Carries ["a", "b"] true "k" := by
    simp [CacheStack.Carries, ha, hb]
  have hl : ¬ (nothingTagged.run twoTagged).Carries ["a", "b"] true "l" := by
    simp [CacheStack.Carries, hb]
  refine ⟨after, hafter, fun tag htag => ?_, ?_⟩
  · have h := (hperformed.tags "k" hk tag).mp htag
    cases h.1
  · rw [hperformed.frame.tags "l" "a" hl, ha]
    decide

end Namespaced

end LayerCache
