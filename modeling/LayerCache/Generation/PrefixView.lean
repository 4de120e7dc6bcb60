import LayerCache.Invalidation.BulkInvalidation
import Mathlib.Data.List.Basic

/-! # What is under a prefix

The keys under a prefix, in the layers and in the index, make a stack of their own. Each operation
on one raw key of the whole is the operation on the rest of the key there, or none; and what is
found by keys, pattern or prefix in a stack of a generation is what the stack under the prefix of
the generation finds.
-/

namespace LayerCache.Namespaced

open Snapshot (Cell generationPrefix)

variable {V : Type} {pre raw key : String} {now : Millis}

def strip (pre raw : String) : Option String :=
  if pre.toList <+: raw.toList then some (String.ofList (raw.toList.drop pre.toList.length))
  else none

theorem strip_eq_some_iff : strip pre raw = some key ↔ raw = pre ++ key := by
  unfold strip
  constructor
  · intro h
    split at h
    · rename_i hprefix
      obtain ⟨rest, hrest⟩ := hprefix
      obtain rfl := Option.some.inj h
      apply String.toList_inj.mp
      rw [String.toList_append, String.toList_ofList, ← hrest, List.drop_left]
    · cases h
  · rintro rfl
    rw [String.toList_append, if_pos (List.prefix_append _ _), List.drop_left, String.ofList_toList]

@[simp]
theorem strip_append (pre key : String) : strip pre (pre ++ key) = some key :=
  strip_eq_some_iff.mpr rfl

theorem append_injective (pre : String) : Function.Injective (pre ++ ·) := by
  intro key key' h
  have happend : pre ++ key = pre ++ key' := h
  exact Option.some.inj ((strip_append pre key).symm.trans (happend ▸ strip_append pre key'))

@[simp]
theorem filterMap_strip_map (pre : String) (keys : List String) :
    (keys.map (pre ++ ·)).filterMap (strip pre) = keys := by
  rw [List.filterMap_map]
  exact (List.filterMap_congr fun key _ => strip_append pre key).trans List.filterMap_some

theorem mem_filterMap_strip {keys : List String} :
    key ∈ keys.filterMap (strip pre) ↔ pre ++ key ∈ keys := by
  simp only [List.mem_filterMap, strip_eq_some_iff, exists_eq_right]

theorem filterMap_filter_of {α β : Type} {f : α → Option β} {p : α → Bool} {q : β → Bool}
    (h : ∀ a b, f a = some b → p a = q b) (xs : List α) :
    (xs.filter p).filterMap f = (xs.filterMap f).filter q := by
  rw [List.filterMap_filter, List.filter_filterMap]
  refine List.filterMap_congr fun a _ => ?_
  cases hf : f a with
  | none => exact ite_self _
  | some b => rw [h a b hf, Option.filter_some]

theorem filterMap_filter_ne {α β : Type} {f : α → Option β} {name : α → String}
    (h : ∀ a b, f a = some b → name a ≠ raw) (xs : List α) :
    (xs.filter fun a => name a ≠ raw).filterMap f = xs.filterMap f := by
  rw [filterMap_filter_of (fun a b hf => decide_eq_true (h a b hf)), List.filter_true]

namespace Layer
variable {layer : Layer V} {value : Stored V} {ttl : Option Millis}
  {e e' : String × Cell (Stored V)}

def stripEntry (pre : String) (e : String × Cell (Stored V)) : Option (String × Cell (Stored V)) :=
  (strip pre e.1).map (·, e.2)

def under (pre : String) (layer : Layer V) : Layer V :=
  { layer with entries := layer.entries.filterMap (stripEntry pre) }

theorem stripEntry_eq_some_iff : stripEntry pre e = some e' ↔ e.1 = pre ++ e'.1 ∧ e.2 = e'.2 := by
  rw [stripEntry, Option.map_eq_some_iff]
  constructor
  · rintro ⟨key, hkey, rfl⟩
    exact ⟨strip_eq_some_iff.mp hkey, rfl⟩
  · rintro ⟨hkey, hcell⟩
    exact ⟨e'.1, strip_eq_some_iff.mpr hkey, Prod.ext rfl hcell⟩

theorem cell_under : (layer.under pre).cell key = layer.cell (pre ++ key) := by
  have hlookup : ∀ entries : List (String × Cell (Stored V)),
      (entries.filterMap (stripEntry pre)).lookup key = entries.lookup (pre ++ key) := by
    intro entries
    induction entries with
    | nil => rfl
    | cons e entries ih =>
      rw [List.lookup_cons, List.filterMap_cons, stripEntry]
      cases hstrip : strip pre e.1 with
      | none =>
        have hne : pre ++ key ≠ e.1 := by
          intro h
          rw [← h, strip_append] at hstrip
          cases hstrip
        rw [beq_false_of_ne hne]
        exact ih
      | some key' =>
        rw [strip_eq_some_iff.mp hstrip, Option.map_some, List.lookup_cons, ih]
        by_cases h : key = key'
        · rw [h, beq_self_eq_true, beq_self_eq_true]
        · rw [beq_false_of_ne h, beq_false_of_ne fun happend => h (append_injective pre happend)]
  exact hlookup layer.entries

theorem getEntry_under : (layer.under pre).getEntry now key = layer.getEntry now (pre ++ key) := by
  rw [getEntry, getEntry, cell_under]

theorem keys_under : (layer.under pre).keys now = (layer.keys now).filterMap (strip pre) := by
  have hfilter : ∀ a b, stripEntry pre a = some b →
      (fun e : String × Cell (Stored V) => decide (e.2.Live now)) a = decide (b.2.Live now) := by
    intro a b h
    dsimp only
    rw [(stripEntry_eq_some_iff.mp h).2]
  rw [keys, keys, under, List.filterMap_map, ← filterMap_filter_of hfilter, List.map_filterMap]
  refine List.filterMap_congr fun e _ => ?_
  rw [stripEntry, Option.map_map]
  exact Option.map_id'

theorem filterMap_stripEntry_ne (pre raw : String)
    (entries : List (String × Cell (Stored V))) :
    (entries.filter (·.1 ≠ raw)).filterMap (stripEntry pre) =
      (strip pre raw).elim (entries.filterMap (stripEntry pre)) fun key =>
        (entries.filterMap (stripEntry pre)).filter (·.1 ≠ key) := by
  cases hstrip : strip pre raw with
  | none =>
    apply filterMap_filter_ne
    intro e e' h hraw
    rw [← hraw, (stripEntry_eq_some_iff.mp h).1, strip_append] at hstrip
    cases hstrip
  | some key =>
    apply filterMap_filter_of
    intro e e' h
    rw [(stripEntry_eq_some_iff.mp h).1, strip_eq_some_iff.mp hstrip]
    exact decide_eq_decide.mpr (append_injective pre).ne_iff

theorem under_delete (raw : String) :
    (layer.delete raw).under pre =
      (strip pre raw).elim (layer.under pre) (layer.under pre).delete := by
  have h := filterMap_stripEntry_ne pre raw layer.entries
  unfold delete under
  cases hstrip : strip pre raw with
  | none => rw [h, hstrip]; rfl
  | some key => rw [h, hstrip]; rfl

theorem under_set (raw : String) :
    (layer.set raw value ttl now).under pre =
      (strip pre raw).elim (layer.under pre) fun key =>
        (layer.under pre).set key value ttl now := by
  unfold set under
  rw [List.filterMap_append, filterMap_stripEntry_ne, List.filterMap_cons, stripEntry]
  cases strip pre raw with
  | none => rw [Option.map_none]; exact congrArg (Layer.mk _ _) (List.append_nil _)
  | some key => rfl

theorem under_write {kind : CacheWriteKind} {value : Option V} {windows : Windows} (raw : String) :
    (layer.write raw kind value windows now).under pre =
      (strip pre raw).elim (layer.under pre) fun key =>
        (layer.under pre).write key kind value windows now :=
  under_set raw

theorem under_expire (raw : String) :
    (layer.expire now raw).under pre =
      (strip pre raw).elim (layer.under pre) fun key => (layer.under pre).expire now key := by
  cases hstrip : strip pre raw with
  | none =>
    unfold expire
    split
    · rfl
    · split
      · rw [under_set, hstrip]
        rfl
      · rfl
  | some key =>
    obtain rfl := strip_eq_some_iff.mp hstrip
    dsimp only [Option.elim]
    unfold expire
    rw [getEntry_under]
    cases layer.getEntry now (pre ++ key) with
    | none => rfl
    | some stored =>
      dsimp only
      split
      · rw [under_set, hstrip]
        rfl
      · rfl

end Layer

/-- The index of the keys under a prefix, with the tags as they are. -/
def indexUnder (pre : String) (index : TagIndex String String) : TagIndex String String where
  tagToKeys tag := (index.tagToKeys tag).filterMap (strip pre)
  keyToTags key := index.keyToTags (pre ++ key)
  knownKeys := index.knownKeys.filterMap (strip pre)

theorem filterMap_strip_ne (pre raw : String) (keys : List String) :
    (keys.filter (· ≠ raw)).filterMap (strip pre) =
      (strip pre raw).elim (keys.filterMap (strip pre)) fun key =>
        (keys.filterMap (strip pre)).filter (· ≠ key) := by
  cases hstrip : strip pre raw with
  | none =>
    apply filterMap_filter_ne
    intro a b h hraw
    rw [← hraw, h] at hstrip
    cases hstrip
  | some key =>
    apply filterMap_filter_of
    intro a b h
    rw [strip_eq_some_iff.mp h, strip_eq_some_iff.mp hstrip]
    exact decide_eq_decide.mpr (append_injective pre).ne_iff

theorem ne_of_strip_none (h : strip pre raw = none) (key : String) : pre ++ key ≠ raw := by
  rintro rfl
  rw [strip_append] at h
  cases h

theorem update_append {α : Type} (f : String → α) (pre raw : String) (a : α) :
    (fun key => Function.update f raw a (pre ++ key)) =
      (strip pre raw).elim (fun key => f (pre ++ key)) fun key =>
        Function.update (fun key => f (pre ++ key)) key a := by
  cases hstrip : strip pre raw with
  | none => exact Function.update_comp_eq_of_forall_ne f a (ne_of_strip_none hstrip)
  | some key =>
    rw [strip_eq_some_iff.mp hstrip]
    exact Function.update_comp_eq_of_injective f (append_injective pre) key a

theorem indexUnder_touch (pre : String) (index : TagIndex String String) (raw : String) :
    indexUnder pre (index.touch raw) =
      (strip pre raw).elim (indexUnder pre index) (indexUnder pre index).touch := by
  unfold TagIndex.touch indexUnder
  cases hstrip : strip pre raw with
  | none =>
    dsimp only [Option.elim]
    congr 1
    split
    · rfl
    · rw [List.filterMap_append, List.filterMap_cons_none hstrip, List.filterMap_nil,
        List.append_nil]
  | some key =>
    obtain rfl := strip_eq_some_iff.mp hstrip
    dsimp only [Option.elim]
    congr 1
    rw [apply_ite (List.filterMap (strip pre)), List.filterMap_append,
      List.filterMap_cons_some hstrip, List.filterMap_nil]
    exact if_congr mem_filterMap_strip.symm rfl rfl

theorem filterMap_strip_untag (pre : String) (index : TagIndex String String) (raw tag : String) :
    (index.untag raw tag).filterMap (strip pre) =
      (strip pre raw).elim ((index.tagToKeys tag).filterMap (strip pre)) fun key =>
        (indexUnder pre index).untag key tag := by
  unfold TagIndex.untag
  cases hstrip : strip pre raw with
  | none =>
    cases index.keyToTags raw with
    | none => rfl
    | some tags =>
      dsimp only [Option.elim]
      split
      · rw [filterMap_strip_ne, hstrip]
        rfl
      · rfl
  | some key =>
    obtain rfl := strip_eq_some_iff.mp hstrip
    dsimp only [Option.elim, indexUnder]
    cases index.keyToTags (pre ++ key) with
    | none => rfl
    | some tags =>
      dsimp only
      split
      · rw [filterMap_strip_ne, hstrip]
        rfl
      · rfl

theorem indexUnder_remove (pre : String) (index : TagIndex String String) (raw : String) :
    indexUnder pre (index.remove raw) =
      (strip pre raw).elim (indexUnder pre index) (indexUnder pre index).remove := by
  have huntag := funext fun tag => filterMap_strip_untag pre index raw tag
  unfold TagIndex.remove
  rw [indexUnder]
  dsimp only
  rw [update_append, filterMap_strip_ne, huntag]
  cases strip pre raw with
  | none => rfl
  | some key => rfl

theorem indexUnder_track (pre : String) (index : TagIndex String String) (raw : String)
    (tags : List String) :
    indexUnder pre (index.track raw tags) =
      (strip pre raw).elim (indexUnder pre index) fun key =>
        (indexUnder pre index).track key tags := by
  have htouch := indexUnder_touch pre index raw
  have huntag := filterMap_strip_untag pre (index.touch raw) raw
  unfold TagIndex.track
  dsimp only
  split
  · exact htouch
  · cases hstrip : strip pre raw with
    | none =>
      rw [hstrip] at htouch huntag
      dsimp only [Option.elim] at htouch huntag ⊢
      rw [← htouch]
      unfold indexUnder
      dsimp only
      rw [update_append, hstrip]
      congr 1
      funext tag
      split
      · rw [List.filterMap_append, filterMap_strip_ne, hstrip, List.filterMap_cons_none hstrip,
          List.filterMap_nil, List.append_nil]
        exact huntag tag
      · exact huntag tag
    | some key =>
      rw [hstrip] at htouch huntag
      dsimp only [Option.elim] at htouch huntag ⊢
      rw [← htouch]
      rw [indexUnder]
      dsimp only
      rw [update_append, hstrip]
      congr 1
      funext tag
      split
      · rw [List.filterMap_append, filterMap_strip_ne, hstrip, List.filterMap_cons_some hstrip,
          List.filterMap_nil, huntag]
        rfl
      · exact huntag tag

variable {stack after : CacheStack Keys.Number V}

namespace CacheStack

/-- The part of a stack under a prefix, as a stack without generations. -/
def under (pre : String) (stack : CacheStack Keys.Number V) : CacheStack Keys.Number V :=
  { stack with
    currentGeneration := none
    layers := stack.layers.map (Layer.under pre)
    tagIndex := indexUnder pre stack.tagIndex }

theorem qualifyKey_under (key : String) : (stack.under pre).qualifyKey key = key :=
  String.empty_append

theorem under_store {kind : CacheWriteKind} {value : Option V} {resolved : ResolvedOptions}
    (raw : String) :
    (stack.store raw kind value resolved).under pre =
      (strip pre raw).elim (stack.under pre) fun key =>
        (stack.under pre).store key kind value resolved := by
  have hlayers : (stack.layers.map fun layer =>
      layer.write raw kind value resolved.windows stack.now).map (Layer.under pre) =
      stack.layers.map fun layer => (strip pre raw).elim (layer.under pre) fun key =>
        (layer.under pre).write key kind value resolved.windows stack.now := by
    rw [List.map_map]
    exact List.map_congr_left fun layer _ => Layer.under_write raw
  unfold store under
  dsimp only
  rw [hlayers]
  cases hstrip : strip pre raw with
  | none =>
    dsimp only [Option.elim]
    congr 1
    cases resolved.tags with
    | none => exact (indexUnder_touch pre _ raw).trans (hstrip ▸ rfl)
    | some tags => exact (indexUnder_track pre _ raw tags).trans (hstrip ▸ rfl)
  | some key =>
    dsimp only [Option.elim]
    rw [List.map_map]
    congr 1
    cases resolved.tags with
    | none => exact (indexUnder_touch pre _ raw).trans (hstrip ▸ rfl)
    | some tags => exact (indexUnder_track pre _ raw tags).trans (hstrip ▸ rfl)

theorem under_backfill {ttl : Option Millis} {layer : Layer V} (raw : String)
    (hit : Option (Stored V)) :
    (backfill now raw ttl layer hit).under pre =
      (strip pre raw).elim (layer.under pre) fun key =>
        backfill now key ttl (layer.under pre) hit := by
  cases hit with
  | none => cases strip pre raw <;> rfl
  | some stored => exact Layer.under_set raw

theorem readFromLayers_under {ttl : Option Millis} (layers : List (Layer V)) :
    readFromLayers now key ttl (layers.map (Layer.under pre)) =
      ((readFromLayers now (pre ++ key) ttl layers).1,
        (readFromLayers now (pre ++ key) ttl layers).2.map (Layer.under pre)) := by
  induction layers with
  | nil => rfl
  | cons layer rest ih =>
    rw [List.map_cons, readFromLayers, readFromLayers, ih, Layer.getEntry_under]
    dsimp only
    cases layer.getEntry now (pre ++ key) with
    | none =>
      dsimp only
      rw [List.map_cons, under_backfill, strip_append]
      rfl
    | some stored =>
      dsimp only
      split
      · rw [List.map_cons, under_backfill, Layer.under_delete, strip_append]
        rfl
      · rfl

theorem map_under_readFromLayers {ttl : Option Millis} (h : strip pre raw = none)
    (layers : List (Layer V)) :
    (readFromLayers now raw ttl layers).2.map (Layer.under pre) =
      layers.map (Layer.under pre) := by
  induction layers with
  | nil => rfl
  | cons layer rest ih =>
    rw [readFromLayers]
    dsimp only
    cases layer.getEntry now raw with
    | none =>
      dsimp only
      rw [List.map_cons, under_backfill, h, ih]
      rfl
    | some stored =>
      dsimp only
      split
      · rw [List.map_cons, under_backfill, Layer.under_delete, h, ih]
        rfl
      · rfl

theorem read_under {ttl : Option Millis} :
    (stack.under pre).read key ttl =
      ((stack.read (pre ++ key) ttl).1, (stack.read (pre ++ key) ttl).2.under pre) := by
  have hread : readFromLayers stack.now key ttl (stack.layers.map (Layer.under pre)) = _ :=
    readFromLayers_under stack.layers
  have htouch := indexUnder_touch pre stack.tagIndex (pre ++ key)
  have hremove := indexUnder_remove pre stack.tagIndex (pre ++ key)
  rw [strip_append] at htouch hremove
  unfold read under
  dsimp only
  rw [hread]
  dsimp only
  congr 2
  rw [apply_ite (indexUnder pre), htouch, hremove]
  rfl

theorem under_read {ttl : Option Millis} (h : strip pre raw = none) :
    (stack.read raw ttl).2.under pre = stack.under pre := by
  rw [read]
  unfold under
  dsimp only
  rw [map_under_readFromLayers h]
  congr 1
  split
  · exact (indexUnder_touch pre _ raw).trans (h ▸ rfl)
  · exact (indexUnder_remove pre _ raw).trans (h ▸ rfl)

theorem foldl_under {S T : Type} {view : S → T} {f : S → String → S} {g : T → String → T}
    (h : ∀ s raw, view (f s raw) = (strip pre raw).elim (view s) (g (view s))) (keys : List String)
    (s : S) : view (keys.foldl f s) = (keys.filterMap (strip pre)).foldl g (view s) := by
  induction keys generalizing s with
  | nil => rfl
  | cons raw keys ih =>
    rw [List.foldl_cons, ih, h, List.filterMap_cons]
    cases strip pre raw with
    | none => rfl
    | some key => rfl

theorem under_deleteKeys (keys : List String) :
    (stack.deleteKeys keys).under pre =
      (stack.under pre).deleteKeys (keys.filterMap (strip pre)) := by
  unfold deleteKeys under
  dsimp only
  rw [List.map_map, List.map_map, foldl_under (indexUnder_remove pre)]
  congr 1
  exact List.map_congr_left fun layer _ =>
    foldl_under (fun layer raw => Layer.under_delete raw) keys layer

theorem under_expireKeys (keys : List String) :
    (stack.expireKeys keys).under pre =
      (stack.under pre).expireKeys (keys.filterMap (strip pre)) := by
  have hfound : ∀ key, (stack.layers.any fun layer =>
      (layer.getEntry stack.now (pre ++ key)).isSome) =
      (stack.layers.map (Layer.under pre)).any fun layer =>
        (layer.getEntry stack.now key).isSome := by
    intro key
    rw [List.any_map]
    simp only [Function.comp_def, Layer.getEntry_under]
  unfold expireKeys under
  dsimp only
  rw [List.map_map, List.map_map, foldl_under (indexUnder_remove pre)]
  congr 1
  · exact List.map_congr_left fun layer _ =>
      foldl_under (fun layer raw => Layer.under_expire raw) keys layer
  · congr 1
    apply filterMap_filter_of
    intro raw key hkey
    rw [strip_eq_some_iff.mp hkey]
    simp only [List.mem_filter, mem_filterMap_strip, hfound]

theorem assertWithinLimit_under {reported : ℕ → ℕ} {keys : List String} :
    stack.assertWithinLimit reported (keys.map (pre ++ ·)) =
      ((stack.under pre).assertWithinLimit reported keys).map (List.map (pre ++ ·)) := by
  unfold assertWithinLimit under
  dsimp only
  rw [List.length_map]
  cases stack.invalidationMaxKeys with
  | none => rfl
  | some maxKeys =>
    dsimp only
    split <;> rfl

theorem discover_under {test test' : String → Bool}
    (h : ∀ raw, test raw = (strip pre raw).any test') :
    stack.discover test = ((stack.under pre).discover test').map (List.map (pre ++ ·)) := by
  have hfilter : ∀ keys : List String, keys.filter test =
      ((keys.filterMap (strip pre)).filter test').map (pre ++ ·) := by
    intro keys
    induction keys with
    | nil => rfl
    | cons raw keys ih =>
      rw [List.filter_cons, List.filterMap_cons, h, ih]
      cases hstrip : strip pre raw with
      | none => rfl
      | some key =>
        rw [Option.any_some, List.filter_cons, strip_eq_some_iff.mp hstrip]
        split <;> rfl
  have hlisted : (stack.layers.map (Layer.under pre)).flatMap (fun layer =>
      if layer.lists then layer.keys stack.now else []) =
      (stack.layers.flatMap fun layer =>
        if layer.lists then layer.keys stack.now else []).filterMap (strip pre) := by
    rw [List.flatMap_map, List.filterMap_flatMap]
    refine List.flatMap_congr fun layer _ => ?_
    rw [Layer.keys_under, apply_ite (List.filterMap (strip pre))]
    rfl
  rw [discover, hfilter, List.dedup_map_of_injective (append_injective pre),
    assertWithinLimit_under, discover, under, hlisted]
  dsimp only [indexUnder]
  rw [List.filterMap_append]

end CacheStack

/-- The selection is by key, by pattern or by prefix. Tags are the same in all generations. -/
def Selection.Keyed : Selection → Prop
  | .tag _ => False
  | .tags _ _ => False
  | _ => True

theorem test_of_iff {test : Bool} {test' : String → Bool}
    (h : test = true ↔ ∃ key, raw = pre ++ key ∧ test' key = true) :
    test = (strip pre raw).any test' := by
  rw [Bool.eq_iff_iff, h, Option.any_eq_true]
  simp only [strip_eq_some_iff]

/-- In a stack of a generation, what is found are the keys that a stack without generations
finds, with the prefix. -/
theorem select_under {selection : Selection} (hkeyed : selection.Keyed)
    (hpre : generationPrefix stack.currentGeneration = pre) :
    stack.select selection =
      ((stack.under pre).select selection).map (List.map (pre ++ ·)) := by
  subst hpre
  -- The lemmas on indexed stacks say which keys of a generation a pattern or a prefix selects.
  let indexed : IndexedStack ℕ := ⟨stack.currentGeneration, [], .empty, none, by simp, 0⟩
  cases selection with
  | keys keys =>
    rw [CacheStack.select, CacheStack.select]
    cases keys.forM validateCacheKey with
    | error error => rfl
    | ok _ =>
      have hmap : keys.map (stack.under (generationPrefix stack.currentGeneration)).qualifyKey =
          keys := (List.map_congr_left fun key _ => CacheStack.qualifyKey_under key).trans
        (List.map_id' keys)
      exact congrArg (fun keys : List String => Except.ok (keys.map _)) hmap.symm
  | tag => exact hkeyed.elim
  | tags => exact hkeyed.elim
  | pattern pattern =>
    rw [CacheStack.select, CacheStack.select]
    cases validatePattern pattern with
    | error error => rfl
    | ok _ =>
      refine CacheStack.discover_under fun raw => ?_
      rw [CacheStack.qualifyKey_under]
      exact test_of_iff indexed.matches_qualifyKey_iff
  | startingWith start =>
    rw [CacheStack.select, CacheStack.select]
    cases validateCacheKey start with
    | error error => rfl
    | ok _ =>
      refine CacheStack.discover_under fun raw => ?_
      rw [CacheStack.qualifyKey_under]
      exact test_of_iff indexed.startsWith_qualifyKey_iff

end LayerCache.Namespaced
