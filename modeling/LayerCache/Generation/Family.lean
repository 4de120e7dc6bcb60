import LayerCache.Generation.PrefixView

/-! # One stack for each generation

A stack with generations is seen as a family of stacks without, one for each generation. What is
found by keys, patterns and prefixes changes the stack of the current generation only, and a bump
changes which one that is: an earlier generation is found again as it was left.
-/

namespace LayerCache.Namespaced

open Snapshot (generationPrefix)

variable {V : Type} {pre raw key : String} {stack after : CacheStack Keys.Number V}

/-- The callback of the options is told the key with the prefix. -/
def CacheWriteOptions.under (pre : String) (options : CacheWriteOptions V) : CacheWriteOptions V :=
  { options with
    contextOptions := options.contextOptions.map fun contextOptions key =>
      contextOptions (pre ++ key) }

def CacheMSetEntry.under (pre : String) (entry : CacheMSetEntry V) : CacheMSetEntry V :=
  { entry with options := entry.options.under pre }

def Operation.under (pre : String) : Operation V → Operation V
  | .set key value options => .set key value (options.under pre)
  | .mset entries => .mset (entries.map (CacheMSetEntry.under pre))
  | .get key fetched options => .get key fetched (options.under pre)
  | .invalidate effect selection => .invalidate effect selection

def Operation.Keyed : Operation V → Prop
  | .invalidate _ selection => selection.Keyed
  | _ => True

@[simp]
theorem toOption_bind {α β : Type} (x : Except String α) (f : α → Except String β) :
    (x >>= f).toOption = x.toOption.bind fun a => (f a).toOption := by
  cases x <;> rfl

theorem toOption_mapM {α α' β γ : Type} {f : α → Except String β} {g : α' → Except String γ}
    {e : α → α'} {r : γ → β} (h : ∀ a, (f a).toOption = (g (e a)).toOption.map r) (xs : List α) :
    (xs.mapM f).toOption = ((xs.map e).mapM g).toOption.map (List.map r) := by
  induction xs with
  | nil => rfl
  | cons x xs ih =>
    rw [List.mapM_cons, List.map_cons, List.mapM_cons]
    simp only [toOption_bind, h, ih]
    cases (g (e x)).toOption with
    | none => rfl
    | some c => cases ((xs.map e).mapM g).toOption <;> rfl

theorem forM_map {α β : Type} {f : α → β} {g : β → Except String Unit} (xs : List α) :
    (xs.map f).forM g = xs.forM fun x => g (f x) := by
  induction xs with
  | nil => rfl
  | cons x xs ih => exact congrArg (g (f x) >>= fun _ => ·) ih

theorem resolveContextOptions_under {kind : CacheWriteKind} {value : Option V}
    {options : CacheWriteOptions V} :
    (resolveContextOptions (pre ++ key) kind value options).toOption =
      (resolveContextOptions key kind value (options.under pre)).toOption := by
  unfold resolveContextOptions CacheWriteOptions.under
  cases options.contextOptions with
  | none => rfl
  | some contextOptions =>
    dsimp only [Option.map_some]
    cases contextOptions (pre ++ key) kind value with
    | error error => rfl
    | ok overrides =>
      cases overrides with
      | none => rfl
      | some overrides =>
        dsimp only
        cases validateTags (overrides.tags.getD none) <;> rfl

theorem storeEntry_under {kind : CacheWriteKind} {value : Option V}
    {options : CacheWriteOptions V} :
    (stack.storeEntry (pre ++ key) kind value options).toOption.map (CacheStack.under pre) =
      ((stack.under pre).storeEntry key kind value (options.under pre)).toOption := by
  rw [CacheStack.storeEntry, CacheStack.storeEntry, toOption_bind, toOption_bind,
    resolveContextOptions_under, Option.map_bind]
  congr 1
  funext resolved
  exact congrArg some ((CacheStack.under_store _).trans (by rw [strip_append]; rfl))

theorem set_under {value : V} {options : CacheWriteOptions V}
    (hpre : generationPrefix stack.currentGeneration = pre) :
    (stack.set key value options).toOption.map (CacheStack.under pre) =
      ((stack.under pre).set key value (options.under pre)).toOption := by
  subst hpre
  rw [CacheStack.set, CacheStack.set, CacheStack.qualifyKey_under]
  cases validateCacheKey key with
  | error error => rfl
  | ok _ =>
    change ((validateTags options.tags >>= fun _ => _).toOption).map _ =
      (validateTags options.tags >>= fun _ => _).toOption
    cases validateTags options.tags with
    | error error => rfl
    | ok _ => exact storeEntry_under

def CacheStack.resolveEntry (stack : CacheStack Keys.Number V) (entry : CacheMSetEntry V) :
    Except String (String × V × ResolvedOptions) := do
  let options ← resolveContextOptions (stack.qualifyKey entry.key) .value (some entry.value)
    entry.options
  return (stack.qualifyKey entry.key, entry.value, options)

theorem resolveEntry_under (hpre : generationPrefix stack.currentGeneration = pre)
    (entry : CacheMSetEntry V) :
    (stack.resolveEntry entry).toOption =
      ((stack.under pre).resolveEntry (entry.under pre)).toOption.map
        fun r => (pre ++ r.1, r.2) := by
  subst hpre
  rw [CacheStack.resolveEntry, CacheStack.resolveEntry, toOption_bind, toOption_bind,
    CacheStack.qualifyKey_under, CacheStack.qualifyKey, resolveContextOptions_under,
    Option.map_bind]
  rfl

theorem toOption_mset (stack : CacheStack Keys.Number V) (entries : List (CacheMSetEntry V)) :
    (stack.mset entries).toOption =
      (entries.forM fun entry => validateCacheKey entry.key).toOption.bind fun _ =>
        (entries.forM fun entry => validateTags entry.options.tags).toOption.bind fun _ =>
          (entries.mapM stack.resolveEntry).toOption.map fun resolved =>
            resolved.foldl (fun stack r => stack.store r.1 .value (some r.2.1) r.2.2) stack := by
  rw [CacheStack.mset]
  simp only [toOption_bind, Option.map_eq_bind]
  rfl

theorem mset_under {entries : List (CacheMSetEntry V)}
    (hpre : generationPrefix stack.currentGeneration = pre) :
    (stack.mset entries).toOption.map (CacheStack.under pre) =
      ((stack.under pre).mset (entries.map (CacheMSetEntry.under pre))).toOption := by
  have hkeys : ((entries.map (CacheMSetEntry.under pre)).forM fun entry =>
      validateCacheKey entry.key) = entries.forM fun entry => validateCacheKey entry.key :=
    forM_map entries
  have htags : ((entries.map (CacheMSetEntry.under pre)).forM fun entry =>
      validateTags entry.options.tags) =
      entries.forM fun entry => validateTags entry.options.tags := forM_map entries
  have hstore : ∀ (stack : CacheStack Keys.Number V) (r : String × V × ResolvedOptions),
      (stack.under pre).store r.1 .value (some r.2.1) r.2.2 =
        (stack.store (pre ++ r.1) .value (some r.2.1) r.2.2).under pre := by
    intro stack r
    rw [CacheStack.under_store, strip_append]
    rfl
  rw [toOption_mset, toOption_mset, hkeys, htags, toOption_mapM (resolveEntry_under hpre),
    Option.map_bind]
  congr 1
  funext _
  dsimp only [Function.comp]
  rw [Option.map_bind]
  congr 1
  funext _
  dsimp only [Function.comp]
  rw [Option.map_map, Option.map_map]
  congr 1
  funext resolved
  dsimp only [Function.comp]
  rw [List.foldl_map, List.foldl_hom (CacheStack.under pre) hstore]

theorem toOption_get {fetched : Option (CacheWriteKind × Option V)}
    {options : CacheWriteOptions V} {found : Option (Stored V) × CacheStack Keys.Number V}
    (hfound : stack.read (stack.qualifyKey key) options.windows.freshTtlMs = found) :
    (stack.get key fetched options).toOption =
      (validateCacheKey key).toOption.bind fun _ =>
        (validateTags options.tags).toOption.bind fun _ =>
        some ((CacheStack.due stack.now found.1 fetched).elim found.2 fun f =>
          (found.2.storeEntry (stack.qualifyKey key) f.1 f.2 options).toOption.getD found.2) := by
  have hnow : found.2.now = stack.now := by
    subst hfound
    rfl
  rw [CacheStack.get, toOption_bind]
  congr 1
  funext _
  rw [toOption_bind]
  congr 1
  funext _
  simp only [hfound, hnow]
  cases CacheStack.due stack.now found.1 fetched with
  | none => rfl
  | some f => rfl

theorem get_under {fetched : Option (CacheWriteKind × Option V)} {options : CacheWriteOptions V}
    (hpre : generationPrefix stack.currentGeneration = pre) :
    (stack.get key fetched options).toOption.map (CacheStack.under pre) =
      ((stack.under pre).get key fetched (options.under pre)).toOption := by
  have hqualify : stack.qualifyKey key = pre ++ key := hpre ▸ rfl
  have hread : (stack.under pre).read ((stack.under pre).qualifyKey key)
      options.windows.freshTtlMs = _ :=
    (congrArg (fun key => (stack.under pre).read key _) (CacheStack.qualifyKey_under key)).trans
      CacheStack.read_under
  have hunder : ((stack.under pre).get key fetched (options.under pre)).toOption = _ :=
    toOption_get hread
  rw [toOption_get rfl, hunder, Option.map_bind, hqualify]
  congr 1
  funext _
  dsimp only [Function.comp]
  rw [Option.map_bind]
  congr 1
  funext _
  dsimp only [Function.comp]
  rw [CacheStack.qualifyKey_under, Option.map_some]
  refine congrArg some ?_
  change _ = Option.elim (CacheStack.due stack.now _ fetched) _ _
  cases CacheStack.due stack.now (stack.read (pre ++ key) options.windows.freshTtlMs).1 fetched with
  | none => rfl
  | some f =>
    dsimp only [Option.elim]
    rw [← storeEntry_under, Option.getD_map]

theorem invalidate_under {effect : Effect} {selection : Selection} (hkeyed : selection.Keyed)
    (hpre : generationPrefix stack.currentGeneration = pre) :
    (stack.invalidate effect selection).toOption.map (CacheStack.under pre) =
      ((stack.under pre).invalidate effect selection).toOption := by
  rw [CacheStack.invalidate, CacheStack.invalidate, select_under hkeyed hpre]
  cases (stack.under pre).select selection with
  | error error => rfl
  | ok keys =>
    cases effect with
    | delete =>
      exact congrArg some ((CacheStack.under_deleteKeys _).trans (by rw [filterMap_strip_map]))
    | expire =>
      exact congrArg some ((CacheStack.under_expireKeys _).trans (by rw [filterMap_strip_map]))

theorem map_eq_ok_iff {α β : Type} {x : Except String α} {f : α → β} {b : β} :
    x.map f = .ok b ↔ ∃ a, x = .ok a ∧ f a = b := by
  cases x with
  | error error =>
    constructor
    · intro h
      cases h
    · rintro ⟨_, h, -⟩
      cases h
  | ok a =>
    constructor
    · intro h
      exact ⟨a, rfl, Except.ok.inj h⟩
    · rintro ⟨_, h, rfl⟩
      cases h
      rfl

theorem perform_under {operation : Operation V} (hkeyed : operation.Keyed)
    (hpre : generationPrefix stack.currentGeneration = pre) :
    (stack.perform operation).toOption.map (CacheStack.under pre) =
      ((stack.under pre).perform (operation.under pre)).toOption := by
  cases operation with
  | set key value options => exact set_under hpre
  | mset entries => exact mset_under hpre
  | get key fetched options => exact get_under hpre
  | invalidate effect selection => exact invalidate_under hkeyed hpre

theorem perform_other {operation : Operation V} (hkeyed : operation.Keyed) {other : String}
    (hother : ∀ key, strip other (stack.qualifyKey key) = none)
    (hafter : stack.perform operation = .ok after) : after.under other = stack.under other := by
  have hstore : ∀ {stack : CacheStack Keys.Number V} {raw : String} {kind : CacheWriteKind}
      {value : Option V} {resolved : ResolvedOptions}, strip other raw = none →
      (stack.store raw kind value resolved).under other = stack.under other := by
    intro stack raw kind value resolved h
    rw [CacheStack.under_store, h]
    rfl
  cases operation with
  | set key value options =>
    obtain ⟨-, resolved, -, rfl⟩ := set_cases hafter
    exact hstore (hother key)
  | mset entries =>
    obtain ⟨resolved, hresolved, rfl⟩ := mset_cases hafter
    have hkeys : ∀ r ∈ resolved, strip other r.1 = none := by
      intro r hr
      obtain ⟨entry, -, -, hkey, -⟩ := exists_of_forall₂ hresolved hr
      rw [hkey]
      exact hother entry.key
    have hfold : ∀ (resolved : List (String × V × ResolvedOptions))
        (stack : CacheStack Keys.Number V), (∀ r ∈ resolved, strip other r.1 = none) →
        (resolved.foldl (fun stack r => stack.store r.1 .value (some r.2.1) r.2.2) stack).under
          other = stack.under other := by
      intro resolved
      induction resolved with
      | nil => exact fun _ _ => rfl
      | cons r resolved ih =>
        intro stack hkeys
        obtain ⟨hr, hkeys⟩ := List.forall_mem_cons.mp hkeys
        exact (ih _ hkeys).trans (hstore hr)
    exact hfold resolved stack hkeys
  | get key fetched options =>
    have hread : (stack.read (stack.qualifyKey key) options.windows.freshTtlMs).2.under other =
        stack.under other := CacheStack.under_read (hother key)
    obtain ⟨-, hcases⟩ := get_cases hafter rfl
    split at hcases
    · exact hcases ▸ hread
    · split at hcases
      · exact hcases ▸ hread
      · exact hcases ▸ (hstore (hother key)).trans hread
  | invalidate effect selection =>
    obtain ⟨keys, hselect, hafter⟩ := Keys.ok_bind.mp hafter
    have hnone : keys.filterMap (strip other) = [] := by
      rw [select_under hkeyed rfl] at hselect
      obtain ⟨keys', -, rfl⟩ := map_eq_ok_iff.mp hselect
      rw [List.filterMap_eq_nil_iff]
      intro raw hraw
      obtain ⟨key, -, rfl⟩ := List.mem_map.mp hraw
      exact hother key
    cases effect with
    | delete =>
      cases hafter
      rw [CacheStack.under_deleteKeys, hnone]
      exact congrArg (fun layers => CacheStack.mk _ layers _ _ _) (List.map_id _)
    | expire =>
      cases hafter
      rw [CacheStack.under_expireKeys, hnone]
      exact congrArg (fun layers => CacheStack.mk _ layers _ _ _) (List.map_id _)

theorem strip_generationPrefix {g h : Keys.Number}
    (hne : generationPrefix (some h) ≠ generationPrefix (some g)) (key : String) :
    strip (generationPrefix (some h)) (generationPrefix (some g) ++ key) = none := by
  have hcolon : ∀ n : Keys.Number, ':' ∉ 'v' :: n.text := by
    intro n hmem
    rcases List.mem_cons.mp hmem with hv | hmem
    · cases hv
    · exact not_mem_text rfl (by decide) (by decide) n hmem
  have hbefore : ∀ (n : Keys.Number) (key : String),
      (generationPrefix (some n) ++ key).toList.takeWhile (· ≠ ':') = 'v' :: n.text := by
    intro n key
    have htext : (generationPrefix (some n) ++ key).toList =
        ('v' :: n.text) ++ ':' :: key.toList := by
      simp [generationPrefix, toString]
    rw [htext, List.takeWhile_append_of_pos, List.takeWhile_cons_of_neg (by simp), List.append_nil]
    intro c hc
    exact decide_eq_true fun h => hcolon n (h ▸ hc)
  rw [Option.eq_none_iff_forall_ne_some]
  intro key' hkey'
  apply hne
  have htext := congrArg (fun raw : String => raw.toList.takeWhile (· ≠ ':'))
    (strip_eq_some_iff.mp hkey')
  rw [hbefore, hbefore] at htext
  have heq : g.text = h.text := (List.cons.inj htext).2
  simp only [generationPrefix, toString, heq]

/-- `===` of two numbers. -/
def strictlyEqual (m n : Keys.Number) : Bool :=
  decide (m.text = n.text) && decide (m.text ≠ "NaN".toList)

/-- The generation that a bump leaves to be cleaned up. -/
def resolveGenerationCleanupTarget (generationCleanup : Bool)
    (previousGeneration : Option Keys.Number) (nextGeneration : Keys.Number) :
    Option Keys.Number :=
  if generationCleanup then
    previousGeneration.filter fun previous => !strictlyEqual previous nextGeneration
  else none

/-- A stack with the generations that its background task is still to clean up, in their order. -/
structure Rotating (V : Type) where
  stack : CacheStack Keys.Number V
  cleanups : List Keys.Number

/-- The stacks of all generations, which one is current, and which are to be cleaned up. -/
structure Family (V : Type) where
  current : Keys.Number
  stackOf : Keys.Number → CacheStack Keys.Number V
  cleanups : List Keys.Number

/-- Besides operations and bumps, the background task deletes some keys of the generation that it
cleans up, or is through with it. -/
inductive Event (V : Type)
  | perform (ms : Millis) (operation : Operation V)
  | bumpGeneration (nextGeneration : Option Keys.Number)
  | flushBatch (keys : List String)
  | cleanedUp

section Runs
-- The sum of a number and one, and whether generations are cleaned up.
variable (plusOne : Keys.Number → Keys.Number) (generationCleanup : Bool)

/-- `nextGeneration ?? current + 1` -/
def Rotating.bumpGeneration (rotating : Rotating V) (nextGeneration : Option Keys.Number) :
    Rotating V :=
  let current := rotating.stack.currentGeneration.getD (.finite Keys.zero)
  let updatedGeneration := nextGeneration.getD (plusOne current)
  { stack := { rotating.stack with currentGeneration := some updatedGeneration }
    cleanups := rotating.cleanups ++ (resolveGenerationCleanupTarget generationCleanup
      rotating.stack.currentGeneration updatedGeneration).toList }

def Rotating.advance (rotating : Rotating V) : Event V → Rotating V
  | .perform ms operation =>
    let stack := rotating.stack.elapse ms
    { rotating with stack := (stack.perform operation).toOption.getD stack }
  | .bumpGeneration nextGeneration =>
    rotating.bumpGeneration plusOne generationCleanup nextGeneration
  | .flushBatch keys =>
    match rotating.cleanups with
    | [] => rotating
    | g :: _ =>
      { rotating with
        stack := rotating.stack.deleteKeys (keys.map (generationPrefix (some g) ++ ·)) }
  | .cleanedUp => { rotating with cleanups := rotating.cleanups.tail }

/-- An operation is for the stack of the current generation, a cleanup for the one of its own, and
time passes for all. -/
def Family.advance (family : Family V) : Event V → Family V
  | .perform ms operation =>
    { family with
      stackOf := fun g =>
        let stack := (family.stackOf g).elapse ms
        if generationPrefix (some g) = generationPrefix (some family.current) then
          (stack.perform (operation.under (generationPrefix (some g)))).toOption.getD stack
        else stack }
  | .bumpGeneration nextGeneration =>
    let updatedGeneration := nextGeneration.getD (plusOne family.current)
    { family with
      current := updatedGeneration
      cleanups := family.cleanups ++ (resolveGenerationCleanupTarget generationCleanup
        (some family.current) updatedGeneration).toList }
  | .flushBatch keys =>
    match family.cleanups with
    | [] => family
    | g :: _ =>
      { family with
        stackOf := fun h =>
          if generationPrefix (some h) = generationPrefix (some g) then
            (family.stackOf h).deleteKeys keys
          else family.stackOf h }
  | .cleanedUp => { family with cleanups := family.cleanups.tail }

def Rotating.advanceAll (rotating : Rotating V) (events : List (Event V)) : Rotating V :=
  events.foldl (Rotating.advance plusOne generationCleanup) rotating

def Family.advanceAll (family : Family V) (events : List (Event V)) : Family V :=
  events.foldl (Family.advance plusOne generationCleanup) family

def Rotating.family (rotating : Rotating V) : Family V where
  current := rotating.stack.currentGeneration.getD (.finite Keys.zero)
  stackOf g := rotating.stack.under (generationPrefix (some g))
  cleanups := rotating.cleanups

def CacheStack.Unpruned (maxSize : ℕ → Option ℕ) (maxKnownKeys : ℕ)
    (stack : CacheStack Keys.Number V) : Prop :=
  stack.Within maxSize ∧ stack.tagIndex.knownKeys.length ≤ maxKnownKeys

instance (maxSize : ℕ → Option ℕ) (maxKnownKeys : ℕ) (stack : CacheStack Keys.Number V) :
    Decidable (stack.Unpruned maxSize maxKnownKeys) :=
  inferInstanceAs (Decidable (_ ∧ _))

variable {plusOne generationCleanup} {events : List (Event V)} {rotating : Rotating V}
  {maxSize : ℕ → Option ℕ} {maxKnownKeys : ℕ}

theorem CacheStack.Unpruned.under (h : stack.Unpruned maxSize maxKnownKeys) (pre : String) :
    (stack.under pre).Unpruned maxSize maxKnownKeys := by
  refine ⟨fun p hp bound hbound => ?_, (List.length_filterMap_le _ _).trans h.2⟩
  rw [CacheStack.under, List.zipIdx_map, List.mem_map] at hp
  obtain ⟨p, hp, rfl⟩ := hp
  exact (List.length_filterMap_le _ _).trans (h.1 p hp bound hbound)

theorem generation_perform {operation : Operation V}
    (hafter : stack.perform operation = .ok after) :
    after.currentGeneration = stack.currentGeneration := by
  cases operation with
  | set key value options => exact (Frame.set hafter).generation
  | mset entries => exact (Frame.mset hafter).generation
  | get key fetched options => exact (Frame.get hafter).generation
  | invalidate effect selection =>
    exact (Frame.invalidate hafter fun _ _ _ _ => trivial).generation

theorem isSome_advance {event : Event V} (h : rotating.stack.currentGeneration.isSome) :
    (rotating.advance plusOne generationCleanup event).stack.currentGeneration.isSome := by
  cases event with
  | perform ms operation =>
    dsimp only [Rotating.advance]
    cases hafter : (rotating.stack.elapse ms).perform operation with
    | error error => exact h
    | ok after => exact generation_perform hafter ▸ h
  | bumpGeneration nextGeneration => rfl
  | flushBatch keys =>
    rw [Rotating.advance]
    cases rotating.cleanups <;> exact h
  | cleanedUp => exact h

theorem under_perform {g : Keys.Number} (ms : Millis) {operation : Operation V}
    (hg : stack.currentGeneration = some g) (hkeyed : operation.Keyed) (k : Keys.Number) :
    (((stack.elapse ms).perform operation).toOption.getD (stack.elapse ms)).under
        (generationPrefix (some k)) =
      let under := (stack.under (generationPrefix (some k))).elapse ms
      if generationPrefix (some k) = generationPrefix (some g) then
        (under.perform (operation.under (generationPrefix (some k)))).toOption.getD under
      else under := by
  have hpre : generationPrefix (stack.elapse ms).currentGeneration = generationPrefix (some g) :=
    congrArg generationPrefix hg
  dsimp only
  split
  · rename_i hk
    have hstep := perform_under hkeyed (hpre.trans hk.symm)
    change _ = (((stack.elapse ms).under _).perform _).toOption.getD ((stack.elapse ms).under _)
    rw [← hstep, Option.getD_map]
  · rename_i hk
    cases hafter : (stack.elapse ms).perform operation with
    | error error => rfl
    | ok after =>
      refine perform_other hkeyed (fun key => ?_) hafter
      rw [CacheStack.qualifyKey, hpre]
      exact strip_generationPrefix hk key

theorem under_flushBatch (g h : Keys.Number) (keys : List String) :
    (stack.deleteKeys (keys.map (generationPrefix (some g) ++ ·))).under
        (generationPrefix (some h)) =
      if generationPrefix (some h) = generationPrefix (some g) then
        (stack.under (generationPrefix (some h))).deleteKeys keys
      else stack.under (generationPrefix (some h)) := by
  rw [CacheStack.under_deleteKeys]
  split
  · rename_i hg
    rw [← hg, filterMap_strip_map]
  · rename_i hg
    have hnone : (keys.map (generationPrefix (some g) ++ ·)).filterMap
        (strip (generationPrefix (some h))) = [] := by
      rw [List.filterMap_eq_nil_iff]
      intro raw hraw
      obtain ⟨key, -, rfl⟩ := List.mem_map.mp hraw
      exact strip_generationPrefix hg key
    rw [hnone]
    exact congrArg (fun layers => CacheStack.mk _ layers _ _ _) (List.map_id _)

/-- One step of the stack is one step of its family. -/
theorem family_advance {event : Event V} (h : rotating.stack.currentGeneration.isSome)
    (hkeyed : ∀ ms operation, event = .perform ms operation → operation.Keyed) :
    (rotating.advance plusOne generationCleanup event).family =
      rotating.family.advance plusOne generationCleanup event := by
  obtain ⟨g, hg⟩ := Option.isSome_iff_exists.mp h
  have hcurrent : rotating.family.current = g := by rw [Rotating.family, hg, Option.getD_some]
  cases event with
  | bumpGeneration nextGeneration =>
    simp only [Rotating.advance, Rotating.bumpGeneration, Rotating.family, Family.advance, hg,
      Option.getD_some]
    rfl
  | cleanedUp => rfl
  | flushBatch keys =>
    cases hcleanups : rotating.cleanups with
    | nil => simp only [Rotating.advance, Rotating.family, Family.advance, hcleanups]
    | cons target cleanups =>
      simp only [Rotating.advance, Rotating.family, Family.advance, hcleanups]
      exact congrArg (fun stackOf => Family.mk _ stackOf _)
        (funext fun k => under_flushBatch target k keys)
  | perform ms operation =>
    have hgeneration : (rotating.advance plusOne generationCleanup
        (.perform ms operation)).family.current = g := by
      dsimp only [Rotating.advance, Rotating.family]
      cases hafter : (rotating.stack.elapse ms).perform operation with
      | error error => exact hcurrent
      | ok after =>
        change after.currentGeneration.getD (.finite Keys.zero) = g
        rw [generation_perform hafter]
        exact hcurrent
    have hstacks := fun k => under_perform ms hg (hkeyed ms operation rfl) k
    rw [Family.advance, hcurrent]
    exact congrArg₂ (fun current stackOf => Family.mk current stackOf _) hgeneration
      (funext hstacks)

/-- In every run with any bumps of the generation and any cleanups, the stack does what the family
of the stacks without generations does. -/
theorem family_advanceAll (hstart : rotating.stack.currentGeneration.isSome)
    (hkeyed : ∀ ms operation, .perform ms operation ∈ events → operation.Keyed) :
    (rotating.advanceAll plusOne generationCleanup events).family =
      rotating.family.advanceAll plusOne generationCleanup events := by
  induction events generalizing rotating with
  | nil => rfl
  | cons event events ih =>
    rw [Rotating.advanceAll, List.foldl_cons, Family.advanceAll, List.foldl_cons,
      ← family_advance hstart fun ms operation hevent =>
        hkeyed ms operation (hevent ▸ List.mem_cons_self)]
    exact ih (isSome_advance hstart) fun ms operation hmem =>
      hkeyed ms operation (List.mem_cons_of_mem _ hmem)

theorem cleanups_advanceAll {family : Family V} (h : family.cleanups = []) :
    (family.advanceAll plusOne false events).cleanups = [] := by
  induction events generalizing family with
  | nil => exact h
  | cons event events ih =>
    refine ih ?_
    cases event with
    | perform | bumpGeneration => simp [Family.advance, resolveGenerationCleanupTarget, h]
    | flushBatch | cleanedUp => simp [Family.advance, h]

/-- So the stack accepts what the stack of the current generation accepts and finds what that one
finds: what an operation did in another generation, it has not done in this one. While the stack
evicts nothing and its index forgets nothing, neither does one of the family. -/
theorem generations_refine_family (hstart : rotating.stack.currentGeneration.isSome)
    (hkeyed : ∀ ms operation, .perform ms operation ∈ events → operation.Keyed)
    (hunpruned : ∀ n, (rotating.advanceAll plusOne generationCleanup (events.take n)).stack.Unpruned
      maxSize maxKnownKeys) {family : Family V}
    (hfamily : rotating.family.advanceAll plusOne generationCleanup events = family) :
    (rotating.advanceAll plusOne generationCleanup events).family = family ∧
      (∀ g, (family.stackOf g).Unpruned maxSize maxKnownKeys) ∧
      (generationCleanup = false → rotating.cleanups = [] → family.cleanups = []) ∧
      (∀ operation, operation.Keyed →
        ((rotating.advanceAll plusOne generationCleanup events).stack.perform
          operation).toOption.isSome =
            ((family.stackOf family.current).perform
              (operation.under (generationPrefix (some family.current)))).toOption.isSome) ∧
      ∀ key ttl,
        ((rotating.advanceAll plusOne generationCleanup events).stack.read
          ((rotating.advanceAll plusOne generationCleanup events).stack.qualifyKey key) ttl).1 =
            ((family.stackOf family.current).read key ttl).1 := by
  have hcleanups : generationCleanup = false → rotating.cleanups = [] → family.cleanups = [] := by
    rintro rfl hnone
    exact hfamily ▸ cleanups_advanceAll hnone
  subst hfamily
  rw [← family_advanceAll hstart hkeyed] at hcleanups ⊢
  have hafter : (rotating.advanceAll plusOne generationCleanup
      events).stack.currentGeneration.isSome := by
    clear hkeyed hunpruned hcleanups
    induction events generalizing rotating with
    | nil => exact hstart
    | cons event events ih => exact ih (isSome_advance hstart)
  have hroom := hunpruned events.length
  rw [List.take_length] at hroom
  generalize rotating.advanceAll plusOne generationCleanup events = after at hafter hroom hcleanups
  obtain ⟨g, hg⟩ := Option.isSome_iff_exists.mp hafter
  have hcurrent : after.family.current = g := by rw [Rotating.family, hg, Option.getD_some]
  have hpre : generationPrefix after.stack.currentGeneration = generationPrefix (some g) :=
    congrArg generationPrefix hg
  rw [hcurrent]
  refine ⟨rfl, fun k => hroom.under _, hcleanups, fun operation hoperation => ?_,
    fun key ttl => ?_⟩
  · have hstep := perform_under hoperation hpre
    change _ = ((after.stack.under _).perform _).toOption.isSome
    rw [← hstep, Option.isSome_map]
  · change _ = ((after.stack.under _).read _ _).1
    rw [CacheStack.read_under, CacheStack.qualifyKey, hpre]

def firstGeneration : CacheStack Keys.Number ℕ where
  currentGeneration := some (.finite ⟨['1'], rfl, rfl⟩)
  layers := [⟨true, none, []⟩]
  tagIndex := .empty
  invalidationMaxKeys := some 2
  now := 0

/-- The first generation is cleaned up in the third, and then the second one is taken up again. -/
def takenUpAgain : List (Event ℕ) :=
  [.perform 0 (.set "k" 1 ⟨none, ⟨none, none, none⟩, none⟩),
    .bumpGeneration (some (.finite ⟨['2'], rfl, rfl⟩)),
    .perform 5 (.set "k" 2 ⟨none, ⟨none, none, none⟩, none⟩),
    .bumpGeneration (some (.finite ⟨['3'], rfl, rfl⟩)), .flushBatch ["k"], .cleanedUp,
    .perform 0 (.invalidate .delete (.startingWith "k")),
    .bumpGeneration (some (.finite ⟨['2'], rfl, rfl⟩))]

theorem generations_refine_family_takenUpAgain :
    let rotating := (Rotating.mk firstGeneration []).advanceAll id true takenUpAgain
    (rotating.stack.read (rotating.stack.qualifyKey "k") none).1.map
      (fun stored => (resolveStoredValue 5 stored 5).value) = some (.value 2) := by
  have hstart : (Rotating.mk firstGeneration []).stack.currentGeneration.isSome := rfl
  have hkeyed : ∀ ms operation, .perform ms operation ∈ takenUpAgain → operation.Keyed := by
    intro ms operation hmem
    simp only [takenUpAgain, List.mem_cons, List.not_mem_nil, or_false, reduceCtorEq, false_or,
      Event.perform.injEq] at hmem
    rcases hmem with ⟨-, rfl⟩ | ⟨-, rfl⟩ | ⟨-, rfl⟩ <;> trivial
  have hunpruned : ∀ n, ((Rotating.mk firstGeneration []).advanceAll id true
      (takenUpAgain.take n)).stack.Unpruned (fun _ => some 2) 2 := by
    have hshort : ∀ n ≤ takenUpAgain.length, ((Rotating.mk firstGeneration []).advanceAll id true
        (takenUpAgain.take n)).stack.Unpruned (fun _ => some 2) 2 := by decide
    intro n
    rcases le_or_gt n takenUpAgain.length with hn | hn
    · exact hshort n hn
    · rw [List.take_of_length_le hn.le, ← List.take_length (l := takenUpAgain)]
      exact hshort _ le_rfl
  obtain ⟨-, -, -, -, hread⟩ := generations_refine_family hstart hkeyed hunpruned rfl
  dsimp only
  rw [hread]
  decide

end Runs

end LayerCache.Namespaced
