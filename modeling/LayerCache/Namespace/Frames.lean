import LayerCache.Keys.Reading
import LayerCache.Namespace.Operations

/-! # Frames

One lemma for each operation of the stack: it changes only the keys it is told to change.
-/

namespace LayerCache.Namespaced

open Snapshot (Cell)

namespace Layer
variable {V : Type} {layer : Layer V} {key raw : String}

theorem cell_delete_of_ne (h : raw ≠ key) : (layer.delete key).cell raw = layer.cell raw := by
  have hlookup : ∀ entries : List (String × Cell (Stored V)),
      (entries.filter (·.1 ≠ key)).lookup raw = entries.lookup raw := by
    intro entries
    induction entries with
    | nil => rfl
    | cons entry entries ih =>
      by_cases hentry : entry.1 = key
      · rw [List.filter_cons_of_neg (by simpa using hentry), ih, List.lookup_cons,
          beq_false_of_ne (hentry ▸ h)]
      · rw [List.filter_cons_of_pos (by simpa using hentry), List.lookup_cons, List.lookup_cons, ih]
  exact hlookup layer.entries

theorem cell_set_of_ne {value : Stored V} {ttl : Option Millis} {now : Millis} (h : raw ≠ key) :
    (layer.set key value ttl now).cell raw = layer.cell raw := by
  unfold set cell
  have hdelete : (layer.delete key).entries.lookup raw = layer.entries.lookup raw :=
    cell_delete_of_ne h
  rw [delete] at hdelete
  rw [List.lookup_append, List.lookup_cons, beq_false_of_ne h, hdelete]
  exact Option.or_none

theorem cell_write_of_ne {kind : CacheWriteKind} {value : Option V} {windows : Windows}
    {now : Millis} (h : raw ≠ key) :
    (layer.write key kind value windows now).cell raw = layer.cell raw :=
  cell_set_of_ne h

theorem cell_expire_of_ne {now : Millis} (h : raw ≠ key) :
    (layer.expire now key).cell raw = layer.cell raw := by
  unfold expire
  split
  · rfl
  · split
    · exact cell_set_of_ne h
    · rfl

theorem cell_foldl {f : Layer V → String → Layer V}
    (hf : ∀ layer key, raw ≠ key → (f layer key).cell raw = layer.cell raw) {keys : List String}
    (h : raw ∉ keys) : (keys.foldl f layer).cell raw = layer.cell raw := by
  induction keys generalizing layer with
  | nil => rfl
  | cons key keys ih =>
    rw [List.mem_cons, not_or] at h
    rw [List.foldl_cons, ih h.2, hf _ _ h.1]

theorem cell_delete_self : (layer.delete key).cell key = none := by
  rw [cell, delete, List.lookup_eq_none_iff]
  intro entry hentry
  have hne : entry.1 ≠ key := of_decide_eq_true (List.mem_filter.mp hentry).2
  exact bne_iff_ne.mpr (Ne.symm hne)

theorem cell_foldl_delete {keys : List String} (h : raw ∈ keys) :
    (keys.foldl delete layer).cell raw = none := by
  induction keys generalizing layer with
  | nil => cases h
  | cons key keys ih =>
    rw [List.foldl_cons]
    by_cases hkeys : raw ∈ keys
    · exact ih hkeys
    · obtain rfl : raw = key := (List.mem_cons.mp h).resolve_right hkeys
      rw [cell_foldl (fun _ _ => cell_delete_of_ne) hkeys, cell_delete_self]

end Layer

section Frames
variable {G V : Type} {stack after : CacheStack G V} {touched : String → Prop}
  {key raw : String}

def CacheStack.cells (stack : CacheStack G V) (raw : String) : List (Option (Cell (Stored V))) :=
  stack.layers.map fun layer => layer.cell raw

/-- At most the keys `touched` have changed, in the layers and in the tag index. -/
structure Frame (touched : String → Prop) (stack after : CacheStack G V) : Prop where
  generation : after.currentGeneration = stack.currentGeneration
  now : stack.now ≤ after.now
  cells : ∀ raw, ¬ touched raw → after.cells raw = stack.cells raw
  tags : ∀ raw tag, ¬ touched raw →
    (raw ∈ after.tagIndex.keysForTag tag ↔ raw ∈ stack.tagIndex.keysForTag tag)

theorem Frame.refl : Frame touched stack stack :=
  ⟨rfl, le_rfl, fun _ _ => rfl, fun _ _ _ => Iff.rfl⟩

theorem Frame.trans {last : CacheStack G V} (h : Frame touched stack after)
    (h' : Frame touched after last) : Frame touched stack last where
  generation := h'.generation.trans h.generation
  now := h.now.trans h'.now
  cells raw hraw := (h'.cells raw hraw).trans (h.cells raw hraw)
  tags raw tag hraw := (h'.tags raw tag hraw).trans (h.tags raw tag hraw)

theorem Frame.mono {wider : String → Prop} (h : Frame touched stack after)
    (hle : ∀ raw, touched raw → wider raw) : Frame wider stack after where
  generation := h.generation
  now := h.now
  cells raw hraw := h.cells raw fun ht => hraw (hle raw ht)
  tags raw tag hraw := h.tags raw tag fun ht => hraw (hle raw ht)

theorem Frame.elapse {ms : Millis} : Frame touched stack (stack.elapse ms) :=
  ⟨rfl, le_add_of_nonneg_right (le_max_left _ _), fun _ _ => rfl, fun _ _ _ => Iff.rfl⟩

theorem Frame.store {kind : CacheWriteKind} {value : Option V} {resolved : ResolvedOptions} :
    Frame (· = key) stack (stack.store key kind value resolved) where
  generation := rfl
  now := le_rfl
  cells raw hraw := by
    simp only [CacheStack.cells, CacheStack.store, List.map_map]
    exact List.map_congr_left fun layer _ => Layer.cell_write_of_ne hraw
  tags raw tag hraw := by
    unfold CacheStack.store
    cases resolved.tags with
    | none => rfl
    | some tags => exact TagIndex.mem_keysForTag_track_of_ne hraw

theorem map_readFromLayers {now : Millis} {ttl : Option Millis} (hraw : raw ≠ key)
    (layers : List (Layer V)) :
    (CacheStack.readFromLayers now key ttl layers).2.map (fun layer => layer.cell raw) =
      layers.map fun layer => layer.cell raw := by
  have hback : ∀ (layer : Layer V) (hit : Option (Stored V)),
      (CacheStack.backfill now key ttl layer hit).cell raw = layer.cell raw := by
    intro layer hit
    cases hit with
    | none => rfl
    | some stored => exact Layer.cell_set_of_ne hraw
  induction layers with
  | nil => rfl
  | cons layer rest ih =>
    unfold CacheStack.readFromLayers
    simp only
    split
    · rw [List.map_cons, List.map_cons, ih, hback]
    · split
      · rw [List.map_cons, List.map_cons, ih, hback, Layer.cell_delete_of_ne hraw]
      · rfl

theorem Frame.read {ttl : Option Millis} : Frame (· = key) stack (stack.read key ttl).2 where
  generation := rfl
  now := le_rfl
  cells _ hraw := map_readFromLayers hraw stack.layers
  tags raw tag hraw := by
    unfold CacheStack.read
    simp only
    split
    · rfl
    · exact TagIndex.mem_keysForTag_remove_of_ne hraw

theorem mem_keysForTag_foldl_remove {index : TagIndex String String} {tag : String}
    {keys : List String} (h : raw ∉ keys) :
    raw ∈ (keys.foldl TagIndex.remove index).keysForTag tag ↔ raw ∈ index.keysForTag tag := by
  induction keys generalizing index with
  | nil => exact Iff.rfl
  | cons key keys ih =>
    rw [List.mem_cons, not_or] at h
    rw [List.foldl_cons, ih h.2]
    exact TagIndex.mem_keysForTag_remove_of_ne h.1

theorem Frame.deleteKeys {keys : List String} : Frame (· ∈ keys) stack (stack.deleteKeys keys) where
  generation := rfl
  now := le_rfl
  cells raw hraw := by
    simp only [CacheStack.deleteKeys, CacheStack.cells, List.map_map]
    exact List.map_congr_left fun layer _ =>
      Layer.cell_foldl (fun _ _ => Layer.cell_delete_of_ne) hraw
  tags _ _ hraw := mem_keysForTag_foldl_remove hraw

theorem Frame.expireKeys {keys : List String} : Frame (· ∈ keys) stack (stack.expireKeys keys) where
  generation := rfl
  now := le_rfl
  cells raw hraw := by
    simp only [CacheStack.expireKeys, CacheStack.cells, List.map_map]
    exact List.map_congr_left fun layer _ =>
      Layer.cell_foldl (fun _ _ => Layer.cell_expire_of_ne) hraw
  tags _ _ hraw := mem_keysForTag_foldl_remove fun hmem => hraw (List.mem_filter.mp hmem).1

theorem keys_of_assertWithinLimit {reported : ℕ → ℕ} {keys found : List String}
    (h : stack.assertWithinLimit reported keys = .ok found) : found = keys := by
  unfold CacheStack.assertWithinLimit at h
  split at h
  · cases h
    rfl
  · split at h
    · cases h
    · cases h
      rfl

variable [ToString G]

theorem set_cases {value : V} {options : CacheWriteOptions V}
    (h : stack.set key value options = .ok after) :
    validateTags options.tags = .ok () ∧
    ∃ resolved, resolveContextOptions (stack.qualifyKey key) .value (some value) options =
        .ok resolved ∧
      after = stack.store (stack.qualifyKey key) .value (some value) resolved := by
  rw [CacheStack.set, Keys.ok_bind] at h
  obtain ⟨⟨⟩, -, h⟩ := h
  rw [Keys.ok_bind] at h
  obtain ⟨⟨⟩, htags, h⟩ := h
  rw [CacheStack.storeEntry, Keys.ok_bind] at h
  obtain ⟨resolved, hresolved, h⟩ := h
  cases h
  exact ⟨htags, resolved, hresolved, rfl⟩

theorem get_cases {fetched : Option (CacheWriteKind × Option V)} {options : CacheWriteOptions V}
    (h : stack.get key fetched options = .ok after) {found : Option (Stored V) × CacheStack G V}
    (hfound : stack.read (stack.qualifyKey key) options.windows.freshTtlMs = found) :
    validateTags options.tags = .ok () ∧
    match CacheStack.due stack.now found.1 fetched with
    | none => after = found.2
    | some (kind, value) =>
      match resolveContextOptions (stack.qualifyKey key) kind value options with
      | .error _ => after = found.2
      | .ok resolved => after = found.2.store (stack.qualifyKey key) kind value resolved := by
  have hnow : found.2.now = stack.now := by
    subst hfound
    rfl
  rw [CacheStack.get, Keys.ok_bind] at h
  obtain ⟨⟨⟩, -, h⟩ := h
  rw [Keys.ok_bind] at h
  obtain ⟨⟨⟩, htags, h⟩ := h
  refine ⟨htags, ?_⟩
  simp only [hfound, hnow] at h
  cases hdue : CacheStack.due stack.now found.1 fetched with
  | none =>
    simp only [hdue] at h
    cases h
    rfl
  | some fetched =>
    obtain ⟨kind, value⟩ := fetched
    simp only [hdue, CacheStack.storeEntry] at h ⊢
    cases hres : resolveContextOptions (stack.qualifyKey key) kind value options with
    | error error =>
      rw [hres] at h
      cases h
      rfl
    | ok resolved =>
      rw [hres] at h
      cases h
      rfl

theorem forM_ok {α : Type} {f : α → Except String Unit} {xs : List α}
    (h : xs.forM f = .ok ()) : ∀ x ∈ xs, f x = .ok () := by
  induction xs with
  | nil => exact List.forall_mem_nil _
  | cons x xs ih =>
    obtain ⟨⟨⟩, hx, h⟩ := Keys.ok_bind.mp h
    exact List.forall_mem_cons.mpr ⟨hx, ih h⟩

theorem mapM_ok {α β : Type} {f : α → Except String β} {xs : List α} {ys : List β}
    (h : xs.mapM f = .ok ys) : List.Forall₂ (fun x y => f x = .ok y) xs ys := by
  induction xs generalizing ys with
  | nil =>
    cases h
    exact .nil
  | cons x xs ih =>
    rw [List.mapM_cons, Keys.ok_bind] at h
    obtain ⟨y, hy, h⟩ := h
    rw [Keys.ok_bind] at h
    obtain ⟨rest, hrest, h⟩ := h
    cases h
    exact .cons hy (ih hrest)

theorem exists_of_forall₂ {α β : Type} {R : α → β → Prop} {xs : List α} {ys : List β}
    (h : List.Forall₂ R xs ys) {y : β} (hy : y ∈ ys) : ∃ x ∈ xs, R x y := by
  induction h with
  | nil => cases hy
  | cons hR _ ih =>
    rcases List.mem_cons.mp hy with rfl | hy
    · exact ⟨_, List.mem_cons_self, hR⟩
    · obtain ⟨x, hx, hR⟩ := ih hy
      exact ⟨x, List.mem_cons_of_mem _ hx, hR⟩

theorem mset_cases {entries : List (CacheMSetEntry V)} (h : stack.mset entries = .ok after) :
    ∃ resolved : List (String × V × ResolvedOptions),
      List.Forall₂ (fun entry r => validateTags entry.options.tags = .ok () ∧
        r.1 = stack.qualifyKey entry.key ∧ r.2.1 = entry.value ∧
        resolveContextOptions r.1 .value (some entry.value) entry.options = .ok r.2.2)
        entries resolved ∧
      after = resolved.foldl (fun stack r => stack.store r.1 .value (some r.2.1) r.2.2) stack := by
  rw [CacheStack.mset, Keys.ok_bind] at h
  obtain ⟨⟨⟩, -, h⟩ := h
  rw [Keys.ok_bind] at h
  obtain ⟨⟨⟩, htags, h⟩ := h
  rw [Keys.ok_bind] at h
  obtain ⟨resolved, hresolved, h⟩ := h
  cases h
  refine ⟨resolved, (List.forall₂_and_left _ _).mpr ⟨forM_ok htags, ?_⟩, rfl⟩
  refine (mapM_ok hresolved).imp ?_
  intro entry r hr
  obtain ⟨options, hoptions, hr⟩ := Keys.ok_bind.mp hr
  cases hr
  exact ⟨rfl, rfl, hoptions⟩

theorem Frame.set {value : V} {options : CacheWriteOptions V}
    (h : stack.set key value options = .ok after) :
    Frame (· = stack.qualifyKey key) stack after := by
  obtain ⟨-, resolved, -, rfl⟩ := set_cases h
  exact Frame.store

theorem Frame.get {fetched : Option (CacheWriteKind × Option V)} {options : CacheWriteOptions V}
    (h : stack.get key fetched options = .ok after) :
    Frame (· = stack.qualifyKey key) stack after := by
  obtain ⟨-, hafter⟩ := get_cases h rfl
  split at hafter
  · subst hafter
    exact Frame.read
  · split at hafter
    · subst hafter
      exact Frame.read
    · subst hafter
      exact Frame.read.trans Frame.store

theorem Frame.mset {entries : List (CacheMSetEntry V)} (h : stack.mset entries = .ok after) :
    Frame (fun raw => ∃ entry ∈ entries, raw = stack.qualifyKey entry.key) stack after := by
  obtain ⟨resolved, hresolved, rfl⟩ := mset_cases h
  have hfold : ∀ (resolved : List (String × V × ResolvedOptions)) (stack : CacheStack G V),
      Frame (· ∈ resolved.map Prod.fst) stack
        (resolved.foldl (fun stack r => stack.store r.1 .value (some r.2.1) r.2.2) stack) := by
    intro resolved
    induction resolved with
    | nil => exact fun _ => Frame.refl
    | cons r resolved ih =>
      intro stack
      rw [List.map_cons]
      exact (Frame.store.mono fun raw hraw => hraw ▸ List.mem_cons_self).trans
        ((ih _).mono fun raw => List.mem_cons_of_mem _)
  refine (hfold resolved stack).mono fun raw hraw => ?_
  obtain ⟨r, hr, rfl⟩ := List.mem_map.mp hraw
  obtain ⟨entry, hentry, -, hkey, -⟩ := exists_of_forall₂ hresolved hr
  exact ⟨entry, hentry, hkey⟩

/-- An invalidation changes only the keys it has found. -/
theorem Frame.invalidate {effect : Effect} {selection : Selection}
    (h : stack.invalidate effect selection = .ok after)
    (hkeys : ∀ keys, stack.select selection = .ok keys → ∀ raw ∈ keys, touched raw) :
    Frame touched stack after := by
  unfold CacheStack.invalidate at h
  obtain ⟨keys, hselect, h⟩ := Keys.ok_bind.mp h
  cases effect with
  | delete =>
    cases h
    exact Frame.deleteKeys.mono (hkeys keys hselect)
  | expire =>
    cases h
    exact Frame.expireKeys.mono (hkeys keys hselect)

theorem cells_invalidate_tag {tag : String}
    (h : stack.invalidate .delete (.tag tag) = .ok after)
    (hraw : raw ∈ stack.tagIndex.keysForTag tag) : ∀ cell ∈ after.cells raw, cell = none := by
  unfold CacheStack.invalidate at h
  obtain ⟨keys, hselect, h⟩ := Keys.ok_bind.mp h
  obtain ⟨-, -, hselect⟩ := Keys.ok_bind.mp hselect
  obtain rfl := keys_of_assertWithinLimit hselect
  cases h
  intro cell hcell
  obtain ⟨_, hlayer, rfl⟩ := List.mem_map.mp hcell
  obtain ⟨layer, -, rfl⟩ := List.mem_map.mp hlayer
  exact Layer.cell_foldl_delete hraw

end Frames

end LayerCache.Namespaced
