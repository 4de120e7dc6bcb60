import LayerCache.Namespace.Frames

/-! # Invalidation by a tag of a namespace

A run of operations through a namespace that remembers the last write of each raw key, with
the options its caller gave. The tag index has for the key the tags of that write as long as
a layer still has the entry, so that an invalidation finds the key by every tag that was
tracked. Tags that a callback returns are tracked as they are, without the prefix.
-/

namespace LayerCache.Namespaced

variable {G V : Type}

/-- What has been written through a namespace, with the options of the caller. -/
structure Write (V : Type) where
  raw : String
  kind : CacheWriteKind
  value : Option V
  options : CacheWriteOptions V

namespace Write

/-- The tags the caller has given, in the options or by the callback. -/
def effectiveTags (w : Write V) : List String :=
  match resolveContextOptions w.raw w.kind w.value w.options with
  | .ok resolved => resolved.tags.getD []
  | .error _ => []

def callbackTags (w : Write V) : Option (List String) :=
  match w.options.contextOptions with
  | none => none
  | some contextOptions =>
    match contextOptions w.raw w.kind w.value with
    | .ok (some overrides) => overrides.tags.join
    | _ => none

/-- Tags from a callback include the tag with the prefix of the namespace. -/
def Reached (w : Write V) (ns : CacheNamespace) (tag : String) : Prop :=
  ∀ tags ∈ w.callbackTags, ns.qualifyTag tag ∈ tags

end Write

def CacheNamespace.resolve (ns : CacheNamespace) (w : Write V) : Except String ResolvedOptions :=
  resolveContextOptions w.raw w.kind w.value (ns.qualifyWriteOptions w.options)

section Recorded
variable [ToString G]

def CacheNamespace.writes (ns : CacheNamespace) (stack : CacheStack G V) :
    Operation V → List (Write V)
  | .set key value options => [⟨stack.qualifyKey (ns.qualify key), .value, some value, options⟩]
  | .mset entries => entries.map fun entry =>
    ⟨stack.qualifyKey (ns.qualify entry.key), .value, some entry.value, entry.options⟩
  | .get key fetched options =>
    let raw := stack.qualifyKey (ns.qualify key)
    match CacheStack.due stack.now (stack.read raw options.windows.freshTtlMs).1 fetched with
    | none => []
    | some (kind, value) =>
      let w : Write V := ⟨raw, kind, value, options⟩
      if (ns.resolve w).isOk then [w] else []
  | .invalidate _ _ => []

structure Traced (G V : Type) where
  stack : CacheStack G V
  last : String → Option (Write V)

def remember (last : String → Option (Write V)) (w : Write V) : String → Option (Write V) :=
  Function.update last w.raw (some w)

def CacheNamespace.record (ns : CacheNamespace) (s : Traced G V) (event : Millis × Operation V) :
    Traced G V :=
  let later := s.stack.elapse event.1
  match ns.perform later event.2 with
  | .ok after =>
    ⟨after, (ns.writes later event.2).foldl remember s.last⟩
  | .error _ => ⟨later, s.last⟩

def CacheNamespace.recordAll (ns : CacheNamespace) (s : Traced G V)
    (events : List (Millis × Operation V)) : Traced G V :=
  events.foldl ns.record s

theorem recordAll_stack (ns : CacheNamespace) (s : Traced G V)
    (events : List (Millis × Operation V)) :
    (ns.recordAll s events).stack = ns.run s.stack events := by
  have hstep : ∀ (s : Traced G V) event, (ns.record s event).stack = ns.step s.stack event := by
    intro s event
    unfold CacheNamespace.record CacheNamespace.step
    simp only
    cases ns.perform (s.stack.elapse event.1) event.2 <;> rfl
  induction events generalizing s with
  | nil => rfl
  | cons event events ih =>
    rw [CacheNamespace.recordAll, List.foldl_cons, ← CacheNamespace.recordAll, ih, hstep]
    rfl

def CacheStack.Holds (stack : CacheStack G V) (raw : String) : Prop :=
  ∃ cell, some cell ∈ stack.cells raw ∧ cell.Live stack.now

instance (stack : CacheStack G V) (raw : String) : Decidable (stack.Holds raw) :=
  decidable_of_iff ((stack.cells raw).any fun cell =>
      cell.any fun cell => decide (cell.Live stack.now)) <| by
    simp only [CacheStack.Holds, List.any_eq_true, Option.any_eq_true, decide_eq_true_eq]
    constructor
    · rintro ⟨_, hmem, cell, rfl, hlive⟩
      exact ⟨cell, hmem, hlive⟩
    · rintro ⟨cell, hmem, hlive⟩
      exact ⟨_, hmem, cell, rfl, hlive⟩

/-- The invalidation by the tag leaves no layer with an entry that was written with it. -/
def CacheNamespace.Removes (ns : CacheNamespace) (s : Traced G V) (tag : String) : Prop :=
  ∀ raw w, s.last raw = some w → tag ∈ w.effectiveTags → s.stack.Holds raw →
    ∀ cell ∈ (ns.step s.stack (0, .invalidate .delete (.tag tag))).cells raw, cell = none

end Recorded

section Tracked
variable {ns : CacheNamespace} {w : Write V} {resolved : ResolvedOptions} {tag : String}

theorem resolve_cases (h : ns.resolve w = .ok resolved) :
    (w.callbackTags = none ∧ resolved.tags.getD [] = w.effectiveTags.map ns.qualifyTag) ∨
    (w.callbackTags = some w.effectiveTags ∧ resolved.tags.getD [] = w.effectiveTags) := by
  have hstatic : (ns.qualifyWriteOptions w.options).tags.getD [] =
      (w.options.tags.getD []).map ns.qualifyTag := by
    unfold CacheNamespace.qualifyWriteOptions
    cases w.options.tags <;> rfl
  rw [CacheNamespace.resolve, resolveContextOptions] at h
  rw [Write.effectiveTags, Write.callbackTags, resolveContextOptions]
  have hcontext : (ns.qualifyWriteOptions w.options).contextOptions = w.options.contextOptions :=
    rfl
  rw [hcontext] at h
  cases hoptions : w.options.contextOptions with
  | none =>
    rw [hoptions] at h
    cases h
    exact Or.inl ⟨rfl, hstatic⟩
  | some contextOptions =>
    simp only [hoptions] at h ⊢
    cases hcallback : contextOptions w.raw w.kind w.value with
    | error =>
      rw [hcallback] at h
      cases h
    | ok overrides =>
      rw [hcallback] at h
      cases overrides with
      | none =>
        cases h
        exact Or.inl ⟨rfl, hstatic⟩
      | some overrides =>
        simp only at h ⊢
        cases hvalid : validateTags (overrides.tags.getD none) with
        | error =>
          rw [hvalid] at h
          cases h
        | ok =>
          rw [hvalid] at h
          cases h
          rcases overrides.tags with _ | _ | tags
          · exact Or.inl ⟨rfl, hstatic⟩
          · exact Or.inl ⟨rfl, rfl⟩
          · exact Or.inr ⟨rfl, rfl⟩

theorem mem_tracked_iff (h : ns.resolve w = .ok resolved) (htag : tag ∈ w.effectiveTags) :
    ns.qualifyTag tag ∈ resolved.tags.getD [] ↔ w.Reached ns tag := by
  rw [Write.Reached]
  rcases resolve_cases h with ⟨hcallback, htracked⟩ | ⟨hcallback, htracked⟩
  · rw [hcallback, htracked]
    exact ⟨fun _ _ h => (Option.not_mem_none _ h).elim, fun _ => List.mem_map_of_mem htag⟩
  · rw [hcallback, htracked]
    simp

theorem tracked_ne_nil (h : ns.resolve w = .ok resolved) (htag : tag ∈ w.effectiveTags) :
    resolved.tags.getD [] ≠ [] := by
  have hne := List.ne_nil_of_mem htag
  rcases resolve_cases h with ⟨-, htracked⟩ | ⟨-, htracked⟩
  · rw [htracked]
    simpa using hne
  · rwa [htracked]

theorem validateTag_of_validateTags {tags : Option (List String)}
    (h : validateTags tags = .ok ()) : ∀ tag ∈ tags.getD [], validateTag tag = .ok () := by
  cases tags with
  | none => exact List.forall_mem_nil _
  | some tags =>
    unfold validateTags at h
    simp only at h
    split at h
    · cases h
    · exact forM_ok h

theorem tracked_valid (h : ns.resolve w = .ok resolved)
    (hstatic : validateTags (ns.qualifyWriteOptions w.options).tags = .ok ()) :
    ∀ tag ∈ resolved.tags.getD [], validateTag tag = .ok () := by
  rw [CacheNamespace.resolve, resolveContextOptions] at h
  split at h
  · cases h
    exact validateTag_of_validateTags hstatic
  · split at h
    · cases h
    · cases h
      exact validateTag_of_validateTags hstatic
    · rename_i overrides _
      simp only at h
      split at h
      · cases h
      · rename_i hvalid
        cases h
        cases htags : overrides.tags with
        | none => exact validateTag_of_validateTags hstatic
        | some tags =>
          rw [htags] at hvalid
          exact validateTag_of_validateTags hvalid

end Tracked

section Holds
variable {stack after : CacheStack G V} {touched : String → Prop} {raw key : String}

theorem Frame.holds (h : Frame touched stack after) (hraw : ¬ touched raw)
    (hafter : after.Holds raw) :
    stack.Holds raw := by
  obtain ⟨cell, hcell, hlive⟩ := hafter
  rw [h.cells raw hraw] at hcell
  exact ⟨cell, hcell, fun t ht => h.now.trans_lt (hlive t ht)⟩

theorem Layer.getEntry_eq_none_iff {layer : Layer V} {now : Millis} :
    layer.getEntry now key = none ↔ ∀ cell, layer.cell key = some cell → ¬ cell.Live now := by
  unfold Layer.getEntry
  cases layer.cell key <;> simp [Option.filter]

theorem not_holds_iff :
    ¬ stack.Holds raw ↔ ∀ layer ∈ stack.layers, layer.getEntry stack.now raw = none := by
  simp only [CacheStack.Holds, CacheStack.cells, List.mem_map, not_exists, not_and,
    Layer.getEntry_eq_none_iff]
  constructor
  · intro h layer hlayer cell hcell
    exact h cell ⟨layer, hlayer, hcell⟩
  · rintro h cell ⟨layer, hlayer, hcell⟩
    exact h layer hlayer cell hcell

theorem getEntry_of_miss {now : Millis} {ttl : Option Millis} {layers : List (Layer V)}
    (h : (CacheStack.readFromLayers now key ttl layers).1 = none) :
    ∀ layer ∈ (CacheStack.readFromLayers now key ttl layers).2, layer.getEntry now key = none := by
  induction layers with
  | nil => exact List.forall_mem_nil _
  | cons layer rest ih =>
    unfold CacheStack.readFromLayers at h ⊢
    simp only at h ⊢
    cases hentry : layer.getEntry now key with
    | none =>
      simp only [hentry] at h ⊢
      rw [h]
      exact List.forall_mem_cons.mpr ⟨hentry, ih h⟩
    | some stored =>
      simp only [hentry] at h ⊢
      split at h
      · rename_i hstate
        rw [if_pos hstate]
        simp only at h ⊢
        rw [h]
        refine List.forall_mem_cons.mpr ⟨?_, ih h⟩
        rw [CacheStack.backfill, Layer.getEntry, Layer.cell_delete_self]
        rfl
      · cases h

/-- A read that hits has found an entry. -/
theorem getEntry_of_hit {now : Millis} {ttl : Option Millis} {layers : List (Layer V)}
    {stored : Stored V} (h : (CacheStack.readFromLayers now key ttl layers).1 = some stored) :
    ∃ layer ∈ layers, layer.getEntry now key ≠ none := by
  induction layers with
  | nil => cases h
  | cons layer rest ih =>
    cases hentry : layer.getEntry now key with
    | some found => exact ⟨layer, List.mem_cons_self, by simp [hentry]⟩
    | none =>
      unfold CacheStack.readFromLayers at h
      simp only [hentry] at h
      obtain ⟨layer', hlayer', hfound⟩ := ih h
      exact ⟨layer', List.mem_cons_of_mem _ hlayer', hfound⟩

theorem Layer.cell_foldl_expire {now : Millis} {layer : Layer V} {keys : List String}
    (h : layer.getEntry now raw = none) :
    (keys.foldl (fun l key => l.expire now key) layer).cell raw = layer.cell raw := by
  induction keys generalizing layer with
  | nil => rfl
  | cons key keys ih =>
    have hcell : (layer.expire now key).cell raw = layer.cell raw := by
      by_cases hkey : raw = key
      · subst hkey
        rw [Layer.expire, h]
      · exact Layer.cell_expire_of_ne hkey
    have hentry : (layer.expire now key).getEntry now raw = none := by
      rw [Layer.getEntry, hcell]
      exact h
    rw [List.foldl_cons, ih hentry, hcell]

end Holds

section Invariant
variable {ns : CacheNamespace} {stack after : CacheStack G V} {w : Write V}
  {last : String → Option (Write V)}

/-- As long as a layer has the entry that was written, the index has its key under the tags
that were tracked and no others. -/
def CacheNamespace.Indexed (ns : CacheNamespace) (stack : CacheStack G V) (w : Write V) : Prop :=
  stack.Holds w.raw → ∃ resolved, ns.resolve w = .ok resolved ∧
    (∀ tag ∈ resolved.tags.getD [], validateTag tag = .ok ()) ∧
    (resolved.tags.getD [] ≠ [] →
      ∀ tag, w.raw ∈ stack.tagIndex.keysForTag tag ↔ tag ∈ resolved.tags.getD [])

structure Inv (ns : CacheNamespace) (stack : CacheStack G V) (last : String → Option (Write V)) :
    Prop where
  consistent : stack.tagIndex.Consistent
  raw : ∀ raw w, last raw = some w → w.raw = raw
  indexed : ∀ raw w, last raw = some w → ns.Indexed stack w

theorem CacheNamespace.Indexed.of_holds (h : ns.Indexed stack w)
    (hholds : after.Holds w.raw → stack.Holds w.raw)
    (htags : after.Holds w.raw → ∀ tag,
      w.raw ∈ after.tagIndex.keysForTag tag ↔ w.raw ∈ stack.tagIndex.keysForTag tag) :
    ns.Indexed after w := by
  intro hafter
  obtain ⟨resolved, hresolved, hvalid, hindex⟩ := h (hholds hafter)
  exact ⟨resolved, hresolved, hvalid, fun hne tag => (htags hafter tag).trans (hindex hne tag)⟩

theorem CacheNamespace.Indexed.frame (h : ns.Indexed stack w) {touched : String → Prop}
    (hframe : Frame touched stack after) (hraw : ¬ touched w.raw) : ns.Indexed after w :=
  h.of_holds (hframe.holds hraw) fun _ tag => hframe.tags _ tag hraw

theorem Inv.elapse (h : Inv ns stack last) {ms : Millis} : Inv ns (stack.elapse ms) last where
  consistent := h.consistent
  raw := h.raw
  indexed raw w hw := by
    have hframe : Frame (fun _ => False) stack (stack.elapse ms) := Frame.elapse
    exact (h.indexed raw w hw).frame hframe id

theorem Inv.store (h : Inv ns stack last) {resolved : ResolvedOptions}
    (hresolved : ns.resolve w = .ok resolved)
    (hvalid : ∀ tag ∈ resolved.tags.getD [], validateTag tag = .ok ()) :
    Inv ns (stack.store w.raw w.kind w.value resolved) (remember last w) := by
  constructor
  · unfold CacheStack.store
    cases resolved.tags with
    | none => exact h.consistent.touch
    | some tags => exact h.consistent.track
  · intro raw w' hw
    by_cases hraw : raw = w.raw
    · subst hraw
      rw [remember, Function.update_self] at hw
      cases hw
      rfl
    · rw [remember, Function.update_of_ne hraw] at hw
      exact h.raw raw w' hw
  · intro raw w' hw
    by_cases hraw : raw = w.raw
    · subst hraw
      rw [remember, Function.update_self] at hw
      cases hw
      intro _
      refine ⟨resolved, hresolved, hvalid, fun hne tag => ?_⟩
      unfold CacheStack.store
      cases htags : resolved.tags with
      | none => exact absurd (by rw [htags]; rfl) hne
      | some tags =>
        rw [htags] at hne
        exact TagIndex.mem_keysForTag_track_iff h.consistent hne
    · rw [remember, Function.update_of_ne hraw] at hw
      refine (h.indexed raw w' hw).frame Frame.store ?_
      rw [h.raw raw w' hw]
      exact hraw

theorem Inv.read (h : Inv ns stack last) {key : String} {ttl : Option Millis} :
    Inv ns (stack.read key ttl).2 last where
  consistent := by
    unfold CacheStack.read
    simp only
    split
    · exact h.consistent.touch
    · exact h.consistent.remove
  raw := h.raw
  indexed raw w hw := by
    by_cases hkey : w.raw = key
    · cases hhit : (CacheStack.readFromLayers stack.now key ttl stack.layers).1 with
      | none =>
        intro hafter
        refine absurd hafter (not_holds_iff.mpr ?_)
        rw [hkey]
        exact getEntry_of_miss hhit
      | some stored =>
        refine (h.indexed raw w hw).of_holds (fun _ => ?_) fun _ tag => ?_
        · by_contra hnot
          obtain ⟨layer, hlayer, hfound⟩ := getEntry_of_hit hhit
          rw [not_holds_iff, hkey] at hnot
          exact hfound (hnot layer hlayer)
        · simp only [CacheStack.read, hhit, Option.isSome_some, if_true, TagIndex.keysForTag,
            TagIndex.tagToKeys_touch]
    · exact (h.indexed raw w hw).frame Frame.read hkey

theorem consistent_foldl_remove {index : TagIndex String String} (h : index.Consistent)
    (keys : List String) : (keys.foldl TagIndex.remove index).Consistent := by
  induction keys generalizing index with
  | nil => exact h
  | cons key keys ih => exact ih h.remove

theorem Inv.deleteKeys (h : Inv ns stack last) (keys : List String) :
    Inv ns (stack.deleteKeys keys) last where
  consistent := consistent_foldl_remove h.consistent keys
  raw := h.raw
  indexed raw w hw := by
    by_cases hkeys : w.raw ∈ keys
    · rintro ⟨cell, hcell, -⟩
      simp only [CacheStack.cells, CacheStack.deleteKeys, List.map_map, List.mem_map] at hcell
      obtain ⟨layer, -, hcell⟩ := hcell
      rw [Function.comp_apply, Layer.cell_foldl_delete hkeys] at hcell
      cases hcell
    · exact (h.indexed raw w hw).frame Frame.deleteKeys hkeys

theorem Inv.expireKeys (h : Inv ns stack last) (keys : List String) :
    Inv ns (stack.expireKeys keys) last where
  consistent := consistent_foldl_remove h.consistent _
  raw := h.raw
  indexed raw w hw := by
    have hheld : (stack.expireKeys keys).Holds w.raw → stack.Holds w.raw := by
      rintro ⟨cell, hcell, hlive⟩
      by_contra hnot
      apply hnot
      simp only [CacheStack.cells, CacheStack.expireKeys, List.map_map, List.mem_map] at hcell
      obtain ⟨layer, hlayer, hcell⟩ := hcell
      rw [Function.comp_apply,
        Layer.cell_foldl_expire (not_holds_iff.mp hnot layer hlayer)] at hcell
      exact ⟨cell, List.mem_map.mpr ⟨layer, hlayer, hcell⟩, hlive⟩
    refine (h.indexed raw w hw).of_holds hheld fun hafter tag => mem_keysForTag_foldl_remove ?_
    have hfound : stack.layers.any fun layer => (layer.getEntry stack.now w.raw).isSome := by
      by_contra hnone
      refine not_holds_iff.mpr ?_ (hheld hafter)
      simpa using hnone
    rw [List.mem_filter]
    rintro ⟨hkeys, hmissing⟩
    rw [decide_eq_true_eq] at hmissing
    exact hmissing (List.mem_filter.mpr ⟨hkeys, hfound⟩)

theorem Inv.mset (h : Inv ns stack last) {ws : List (Write V)}
    {resolved : List (String × V × ResolvedOptions)}
    (hresolved : List.Forall₂ (fun w r => r.1 = w.raw ∧ w.kind = .value ∧ w.value = some r.2.1 ∧
      ns.resolve w = .ok r.2.2 ∧
        ∀ tag ∈ r.2.2.tags.getD [], validateTag tag = .ok ()) ws resolved) :
    Inv ns (resolved.foldl (fun stack r => stack.store r.1 .value (some r.2.1) r.2.2) stack)
      (ws.foldl remember last) := by
  induction hresolved generalizing stack last with
  | nil => exact h
  | cons hr _ ih =>
    obtain ⟨hraw, hkind, hvalue, hresolve, hvalid⟩ := hr
    rw [List.foldl_cons, List.foldl_cons]
    have hstore := h.store hresolve hvalid
    rw [hkind, hvalue, ← hraw] at hstore
    exact ih hstore

variable [ToString G]

theorem Inv.perform (h : Inv ns stack last) {operation : Operation V}
    (hafter : ns.perform stack operation = .ok after) :
    Inv ns after ((ns.writes stack operation).foldl remember last) := by
  cases operation with
  | set key value options =>
    obtain ⟨htags, resolved, hresolved, rfl⟩ := set_cases hafter
    let w : Write V := ⟨stack.qualifyKey (ns.qualify key), .value, some value, options⟩
    exact h.store (w := w) hresolved (tracked_valid (w := w) hresolved htags)
  | mset entries =>
    obtain ⟨resolved, hresolved, rfl⟩ := mset_cases hafter
    rw [List.forall₂_map_left_iff] at hresolved
    refine h.mset (List.forall₂_map_left_iff.mpr (hresolved.imp ?_))
    rintro entry ⟨_, value, options⟩ ⟨htags, rfl, rfl, hoptions⟩
    let w : Write V := ⟨stack.qualifyKey (ns.qualify entry.key), .value, some entry.value,
      entry.options⟩
    exact ⟨rfl, rfl, rfl, hoptions, tracked_valid (w := w) hoptions htags⟩
  | get key fetched options =>
    obtain ⟨htags, hcases⟩ := get_cases hafter rfl
    unfold CacheNamespace.writes
    simp only
    have hread : Inv ns (stack.read (stack.qualifyKey (ns.qualify key))
        options.windows.freshTtlMs).2 last := h.read
    have hsame : (ns.qualifyWriteOptions options).windows = options.windows := rfl
    rw [hsame] at hcases
    cases hdue : CacheStack.due stack.now
        (stack.read (stack.qualifyKey (ns.qualify key)) options.windows.freshTtlMs).1 fetched with
    | none =>
      rw [hdue] at hcases
      obtain rfl := hcases
      exact hread
    | some run =>
      obtain ⟨kind, value⟩ := run
      rw [hdue] at hcases
      simp only at hcases ⊢
      split at hcases
      · rename_i error herror
        obtain rfl := hcases
        have hresolve : ns.resolve ⟨stack.qualifyKey (ns.qualify key), kind, value, options⟩ =
            .error error := herror
        rw [hresolve]
        exact hread
      · rename_i resolved hresolved
        obtain rfl := hcases
        have hresolve : ns.resolve ⟨stack.qualifyKey (ns.qualify key), kind, value, options⟩ =
            .ok resolved := hresolved
        rw [hresolve]
        exact hread.store hresolve (tracked_valid hresolve htags)
  | invalidate effect selection =>
    obtain ⟨keys, -, hafter⟩ := Keys.ok_bind.mp hafter
    cases effect with
    | delete =>
      cases hafter
      exact h.deleteKeys keys
    | expire =>
      cases hafter
      exact h.expireKeys keys

theorem Inv.recordAll {s : Traced G V} (h : Inv ns s.stack s.last)
    (events : List (Millis × Operation V)) :
    Inv ns (ns.recordAll s events).stack (ns.recordAll s events).last := by
  induction events generalizing s with
  | nil => exact h
  | cons event events ih =>
    apply ih
    unfold CacheNamespace.record
    simp only
    have hperform : ∀ after, ns.perform (s.stack.elapse event.1) event.2 = .ok after → _ :=
      fun _ => h.elapse.perform
    generalize ns.perform (s.stack.elapse event.1) event.2 = res at hperform
    cases res with
    | error => exact h.elapse
    | ok after => exact hperform after rfl

end Invariant

section Complete
variable {ns : CacheNamespace} {stack after : CacheStack G V} {tag : String}

/-- No more keys carry the tag than an invalidation may find. -/
def CacheStack.WithinLimit (stack : CacheStack G V) (tag : String) : Prop :=
  ∀ maxKeys ∈ stack.invalidationMaxKeys, (stack.tagIndex.keysForTag tag).length ≤ maxKeys

theorem collectKeysForTag_iff {keys : List String} :
    stack.collectKeysForTag tag = .ok keys ↔
      stack.WithinLimit tag ∧ keys = stack.tagIndex.keysForTag tag := by
  unfold CacheStack.collectKeysForTag CacheStack.assertWithinLimit CacheStack.WithinLimit
  cases stack.invalidationMaxKeys with
  | none => simp [eq_comm]
  | some maxKeys =>
    simp only [Option.mem_some_iff, forall_eq']
    split
    · rename_i hlt
      constructor
      · intro h
        cases h
      · rintro ⟨hle, -⟩
        omega
    · rename_i hle
      rw [Except.ok.injEq, eq_comm]
      exact ⟨fun h => ⟨not_lt.mp hle, h⟩, And.right⟩

theorem exists_cell_of_holds {raw : String} (h : stack.Holds raw) :
    ¬ ∀ cell ∈ stack.cells raw, cell = none := by
  obtain ⟨cell, hcell, -⟩ := h
  exact fun hnone => nomatch hnone _ hcell

variable [ToString G]

theorem invalidate_tag_iff :
    stack.invalidate .delete (.tag tag) = .ok after ↔
      validateTag tag = .ok () ∧ stack.WithinLimit tag ∧
        after = stack.deleteKeys (stack.tagIndex.keysForTag tag) := by
  constructor
  · intro h
    obtain ⟨keys, hselect, h⟩ := Keys.ok_bind.mp h
    obtain ⟨⟨⟩, hvalid, hkeys⟩ := Keys.ok_bind.mp hselect
    obtain ⟨hlimit, rfl⟩ := collectKeysForTag_iff.mp hkeys
    cases h
    exact ⟨hvalid, hlimit, rfl⟩
  · rintro ⟨hvalid, hlimit, rfl⟩
    have hkeys := collectKeysForTag_iff.mpr ⟨hlimit, rfl⟩
    rw [CacheStack.invalidate, CacheStack.select, hvalid, hkeys]
    rfl

/-- After any run through a namespace, an invalidation by a tag removes every entry written
with it that a layer still has, exactly where tags from a callback already carried the
prefix and the keys are within the limit of an invalidation. -/
theorem removes_iff (ns : CacheNamespace) (stack : CacheStack G V)
    (hindex : stack.tagIndex.Consistent) (events : List (Millis × Operation V)) (tag : String) :
    ns.Removes (ns.recordAll ⟨stack, fun _ => none⟩ events) tag ↔
      ∀ raw w, (ns.recordAll ⟨stack, fun _ => none⟩ events).last raw = some w →
        tag ∈ w.effectiveTags → (ns.recordAll ⟨stack, fun _ => none⟩ events).stack.Holds raw →
        w.Reached ns tag ∧
          (ns.recordAll ⟨stack, fun _ => none⟩ events).stack.WithinLimit (ns.qualifyTag tag) := by
  have hinv : Inv ns (ns.recordAll ⟨stack, fun _ => none⟩ events).stack
      (ns.recordAll ⟨stack, fun _ => none⟩ events).last :=
    Inv.recordAll ⟨hindex, by simp, by simp⟩ events
  generalize ns.recordAll ⟨stack, fun _ => none⟩ events = s at hinv ⊢
  have hstep : ns.step s.stack (0, .invalidate .delete (.tag tag)) =
      (s.stack.invalidate .delete (.tag (ns.qualifyTag tag))).toOption.getD s.stack := by
    rw [CacheNamespace.step, elapse_zero]
    rfl
  rw [CacheNamespace.Removes, hstep]
  refine forall_congr' fun raw => forall_congr' fun w => forall_congr' fun hw =>
    forall_congr' fun htag => forall_congr' fun hholds => ?_
  obtain rfl := hinv.raw raw w hw
  obtain ⟨resolved, hresolved, hvalid, hkeys⟩ := hinv.indexed _ w hw hholds
  have hmem : w.raw ∈ s.stack.tagIndex.keysForTag (ns.qualifyTag tag) ↔ w.Reached ns tag :=
    (hkeys (tracked_ne_nil hresolved htag) _).trans (mem_tracked_iff hresolved htag)
  constructor
  · intro hremoved
    cases hinvalidate : s.stack.invalidate .delete (.tag (ns.qualifyTag tag)) with
    | error =>
      rw [hinvalidate] at hremoved
      exact absurd hremoved (exists_cell_of_holds hholds)
    | ok after =>
      rw [hinvalidate] at hremoved
      obtain ⟨-, hlimit, rfl⟩ := invalidate_tag_iff.mp hinvalidate
      refine ⟨?_, hlimit⟩
      -- a key that the index does not have under the tag keeps its cells
      by_contra hreached
      rw [← hmem] at hreached
      apply exists_cell_of_holds hholds
      rw [← Frame.deleteKeys.cells w.raw hreached]
      exact hremoved
  · rintro ⟨hreached, hlimit⟩
    have htracked : ns.qualifyTag tag ∈ resolved.tags.getD [] :=
      (mem_tracked_iff hresolved htag).mpr hreached
    have hinvalidate := invalidate_tag_iff.mpr ⟨hvalid _ htracked, hlimit, rfl⟩
    rw [hinvalidate]
    exact cells_invalidate_tag hinvalidate (hmem.mpr hreached)

end Complete

def posts : CacheNamespace := ⟨"posts", by decide⟩

def emptyStack : CacheStack ℕ ℕ where
  currentGeneration := none
  layers := [⟨true, none, []⟩]
  tagIndex := TagIndex.empty
  invalidationMaxKeys := some 10000
  now := 0

def noWindows : Windows := ⟨none, none, none⟩

def setTagged (contextOptions : Option (String → CacheWriteKind → Option ℕ →
    Except String (Option EntryOverrides))) (tags : Option (List String)) : Operation ℕ :=
  .set "first" 7 ⟨tags, noWindows, contextOptions⟩

/-- The last write of a key is one of the step's or an earlier one. -/
theorem last_record [ToString G] {ns : CacheNamespace} {s : Traced G V}
    {event : Millis × Operation V} {raw : String} {w : Write V}
    (h : (ns.record s event).last raw = some w) :
    s.last raw = some w ∨ w ∈ ns.writes (s.stack.elapse event.1) event.2 := by
  have hfold : ∀ (ws : List (Write V)) (last : String → Option (Write V)),
      ws.foldl remember last raw = some w →
        last raw = some w ∨ w ∈ ws := by
    intro ws
    induction ws with
    | nil => exact fun _ => Or.inl
    | cons w' ws ih =>
      intro last hlast
      rcases ih _ hlast with hlast | hmem
      · by_cases hraw : raw = w'.raw
        · subst hraw
          rw [remember, Function.update_self] at hlast
          cases hlast
          exact Or.inr List.mem_cons_self
        · rw [remember, Function.update_of_ne hraw] at hlast
          exact Or.inl hlast
      · exact Or.inr (List.mem_cons_of_mem _ hmem)
  unfold CacheNamespace.record at h
  simp only at h
  split at h
  · exact hfold _ _ h
  · exact Or.inl h

theorem removes_author : posts.Removes
    (posts.recordAll ⟨emptyStack, fun _ => none⟩ [(0, setTagged none (some ["author"]))])
    "author" := by
  refine (removes_iff posts emptyStack TagIndex.consistent_empty _ "author").mpr ?_
  intro raw w hlast _ _
  have hrecord : (posts.record ⟨emptyStack, fun _ => none⟩
      (0, setTagged none (some ["author"]))).last raw = some w := hlast
  obtain hnone | hmem := last_record hrecord
  · cases hnone
  · obtain rfl := List.mem_singleton.mp hmem
    constructor
    · intro tags htags
      cases htags
    · unfold CacheStack.WithinLimit
      decide +kernel

/-- A callback that tags with `author` leaves the entry out of reach of `author`. -/
theorem not_removes_callback : ¬ ∀ (ns : CacheNamespace) (stack : CacheStack ℕ ℕ),
    stack.tagIndex.Consistent → ∀ events tag,
      ns.Removes (ns.recordAll ⟨stack, fun _ => none⟩ events) tag := by
  intro h
  let returnsTag : String → CacheWriteKind → Option ℕ → Except String (Option EntryOverrides) :=
    fun _ _ _ => .ok (some ⟨some (some ["author"]), none⟩)
  have hremoved := h posts emptyStack TagIndex.consistent_empty
    [(0, setTagged (some returnsTag) none)] "author" "posts:first"
    ⟨"posts:first", .value, some 7, ⟨none, noWindows, some returnsTag⟩⟩ (by rfl)
    (by decide +kernel) (by decide +kernel)
  revert hremoved
  decide +kernel

end LayerCache.Namespaced
