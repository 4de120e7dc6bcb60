import LayerCache.Namespace.Frames
import Mathlib.Data.List.Infix

/-! # Isolation of namespaces

The keys that an invalidation through a namespace finds are keys of the namespace where the
prefix has no wildcards, which the pattern would read as such, and no other key carries a
tag of the namespace. A prefix with a wildcard reaches keys that only look like its own.
-/

namespace LayerCache.Namespaced

open Snapshot (Cell generationPrefix)

instance : ToString Keys.Number := ⟨fun n => String.ofList n.text⟩

theorem units_append (s t : String) : units (s ++ t) = units s ++ units t := by
  simp [units]

theorem mem_units {c : Char} (hc : c.toNat < 0xD800) {s : String} :
    c.toNat ∈ units s ↔ c ∈ s.toList := by
  rw [units, List.mem_flatMap]
  constructor
  · rintro ⟨d, hd, h⟩
    unfold Keys.codeUnits at h
    split at h
    · rw [List.mem_singleton] at h
      rwa [Char.toNat_inj.mp h]
    · simp only [List.mem_cons, List.not_mem_nil, or_false] at h
      omega
  · intro h
    refine ⟨c, h, ?_⟩
    rw [Keys.codeUnits, if_pos (by omega)]
    exact List.mem_singleton_self _

theorem startsWith_iff {text pre : String} :
    startsWith text pre = true ↔ units pre <+: units text := List.isPrefixOf_iff_prefix

theorem startsWith_append (pre rest : String) : startsWith (pre ++ rest) pre = true := by
  rw [startsWith_iff, units_append]
  exact List.prefix_append _ _

theorem startsWith_of_append {text pre rest : String} (h : startsWith text (pre ++ rest) = true) :
    startsWith text pre = true := by
  rw [startsWith_iff] at h ⊢
  rw [units_append] at h
  exact (List.prefix_append _ _).trans h

section Selected
variable {V : Type} {ns : CacheNamespace} {stack after : CacheStack Keys.Number V}

/-- The raw keys of the namespace in the current generation. -/
def CacheNamespace.Owns (ns : CacheNamespace) (stack : CacheStack Keys.Number V) (raw : String) :
    Prop :=
  startsWith raw (stack.qualifyKey (ns.qualify "")) = true

instance (raw : String) : Decidable (ns.Owns stack raw) :=
  inferInstanceAs (Decidable (startsWith raw _ = true))

/-- Only keys of the namespace carry tags of the namespace. -/
def CacheNamespace.TagsWithin (ns : CacheNamespace) (stack : CacheStack Keys.Number V) : Prop :=
  ∀ tag raw, startsWith tag (ns.qualifyTag "") = true → raw ∈ stack.tagIndex.keysForTag tag →
    ns.Owns stack raw

/-- The prefix is its own only match when it is read as a pattern. -/
def CacheNamespace.Literal (ns : CacheNamespace) : Prop :=
  '*' ∉ ns.pre.toList ∧ '?' ∉ ns.pre.toList

theorem qualifyKey_qualify (key : String) :
    stack.qualifyKey (ns.qualify key) = stack.qualifyKey (ns.qualify "") ++ key := by
  simp [CacheStack.qualifyKey, CacheNamespace.qualify, String.append_assoc]

theorem owns_qualify (key : String) : ns.Owns stack (stack.qualifyKey (ns.qualify key)) := by
  rw [CacheNamespace.Owns, qualifyKey_qualify]
  exact startsWith_append _ _

theorem startsWith_qualifyTag (tag : String) :
    startsWith (ns.qualifyTag tag) (ns.qualifyTag "") = true := by
  have happend : ns.qualifyTag tag = ns.qualifyTag "" ++ tag := by
    simp [CacheNamespace.qualifyTag, String.append_assoc]
  rw [happend]
  exact startsWith_append _ _

theorem not_mem_text {c : Char} (hc : Json.isNumberChar c = false) (hname : c ∉ "NaN".toList)
    (hinfinity : c ∉ "-Infinity".toList) (n : Keys.Number) : c ∉ n.text := by
  have hplus : c ∉ "Infinity".toList := fun h => hinfinity (List.mem_cons_of_mem _ h)
  cases n with
  | finite n =>
    intro h
    have := List.all_eq_true.mp n.numeric c h
    exact absurd this (by rw [hc]; exact Bool.false_ne_true)
  | negativeZero =>
    intro h
    obtain rfl := List.mem_singleton.mp h
    exact absurd hc (by decide)
  | nan => exact hname
  | infinity negative => cases negative <;> assumption

theorem CacheNamespace.Literal.units (h : ns.Literal) {c : Char} (hc : c = '*' ∨ c = '?') :
    c.toNat ∉ units (stack.qualifyKey (ns.qualify "")) := by
  have hpre : c ∉ ns.pre.toList := by
    rcases hc with rfl | rfl
    · exact h.1
    · exact h.2
  have hgeneration : c ∉ (generationPrefix stack.currentGeneration).toList := by
    cases stack.currentGeneration with
    | none => simp [generationPrefix]
    | some n =>
      have htext : c ∉ n.text := by
        rcases hc with rfl | rfl <;> exact not_mem_text rfl (by decide) (by decide) n
      rcases hc with rfl | rfl <;> simpa [generationPrefix, toString] using htext
  have hsmall : c.toNat < 0xD800 := by rcases hc with rfl | rfl <;> decide
  rw [mem_units hsmall]
  rcases hc with rfl | rfl <;>
    simpa [CacheStack.qualifyKey, CacheNamespace.qualify] using ⟨hgeneration, hpre⟩

theorem owns_of_matches (hliteral : ns.Literal) {pattern raw : String}
    (h : patternMatches (stack.qualifyKey (ns.qualify pattern)) raw = true) :
    ns.Owns stack raw := by
  rw [patternMatches, Glob.matchLinear_iff, qualifyKey_qualify, units_append] at h
  rw [CacheNamespace.Owns, startsWith_iff]
  exact h.front (hliteral.units (Or.inl rfl)) (hliteral.units (Or.inr rfl))

theorem test_of_discover {test : String → Bool} {keys : List String}
    (h : stack.discover test = .ok keys) {raw : String} (hraw : raw ∈ keys) : test raw = true := by
  obtain rfl := keys_of_assertWithinLimit h
  exact (List.mem_filter.mp (List.mem_dedup.mp hraw)).2

theorem mem_of_intersectKeys {groups : List (List String)} {raw : String}
    (h : raw ∈ CacheStack.intersectKeys groups) : raw ∈ groups.flatten := by
  cases groups with
  | nil => cases h
  | cons first rest =>
    rw [List.flatten_cons, List.mem_append]
    exact Or.inl (List.mem_dedup.mp (List.mem_filter.mp h).1)

/-- An invalidation through the namespace finds only keys of the namespace. -/
theorem owns_of_select (hliteral : ns.Literal) (htags : ns.TagsWithin stack)
    {selection : Selection} {keys : List String}
    (h : stack.select (ns.qualifySelection selection) = .ok keys) :
    ∀ raw ∈ keys, ns.Owns stack raw := by
  have htag : ∀ tag found, stack.collectKeysForTag (ns.qualifyTag tag) = .ok found →
      ∀ raw ∈ found, ns.Owns stack raw := by
    intro tag found hfound raw hraw
    obtain rfl := keys_of_assertWithinLimit hfound
    exact htags _ raw (startsWith_qualifyTag tag) hraw
  cases selection with
  | keys keys' =>
    obtain ⟨-, -, h⟩ := Keys.ok_bind.mp h
    cases h
    intro raw hraw
    obtain ⟨_, hqualified, rfl⟩ := List.mem_map.mp hraw
    obtain ⟨key, -, rfl⟩ := List.mem_map.mp hqualified
    exact owns_qualify key
  | tag tag =>
    obtain ⟨-, -, h⟩ := Keys.ok_bind.mp h
    exact htag tag keys h
  | tags tags all =>
    have hgroups : ∀ groups,
        (tags.map ns.qualifyTag).mapM stack.collectKeysForTag = .ok groups →
        ∀ raw ∈ groups.flatten, ns.Owns stack raw := by
      intro groups hgroups raw hraw
      obtain ⟨group, hgroup, hraw⟩ := List.mem_flatten.mp hraw
      obtain ⟨_, hqualified, hfound⟩ := exists_of_forall₂ (mapM_ok hgroups) hgroup
      obtain ⟨tag, -, rfl⟩ := List.mem_map.mp hqualified
      exact htag tag group hfound raw hraw
    unfold CacheNamespace.qualifySelection CacheStack.select at h
    simp only at h
    split at h
    · cases h
      exact List.forall_mem_nil _
    · rw [Keys.ok_bind] at h
      obtain ⟨-, -, h⟩ := h
      rw [Keys.ok_bind] at h
      obtain ⟨groups, hmapM, h⟩ := h
      obtain rfl := keys_of_assertWithinLimit h
      intro raw hraw
      apply hgroups groups hmapM raw
      split at hraw
      · exact mem_of_intersectKeys hraw
      · exact List.mem_dedup.mp hraw
  | pattern pattern =>
    obtain ⟨-, -, h⟩ := Keys.ok_bind.mp h
    exact fun raw hraw => owns_of_matches hliteral (test_of_discover h hraw)
  | startingWith pre =>
    obtain ⟨-, -, h⟩ := Keys.ok_bind.mp h
    intro raw hraw
    have hstarts := test_of_discover h hraw
    rw [qualifyKey_qualify] at hstarts
    exact startsWith_of_append hstarts

theorem Frame.perform (hliteral : ns.Literal) (htags : ns.TagsWithin stack)
    {operation : Operation V} (h : ns.perform stack operation = .ok after) :
    Frame (ns.Owns stack) stack after := by
  cases operation with
  | set key value options =>
    refine (Frame.set h).mono ?_
    rintro raw rfl
    exact owns_qualify key
  | mset entries =>
    refine (Frame.mset h).mono ?_
    rintro raw ⟨_, hentry, rfl⟩
    obtain ⟨entry, -, rfl⟩ := List.mem_map.mp hentry
    exact owns_qualify entry.key
  | get key fetched options =>
    refine (Frame.get h).mono ?_
    rintro raw rfl
    exact owns_qualify key
  | invalidate effect selection =>
    exact Frame.invalidate h fun keys hselect => owns_of_select hliteral htags hselect

theorem Frame.step (hliteral : ns.Literal) (htags : ns.TagsWithin stack)
    (event : Millis × Operation V) : Frame (ns.Owns stack) stack (ns.step stack event) := by
  unfold CacheNamespace.step
  have hlater : Frame (ns.Owns stack) stack (stack.elapse event.1) := Frame.elapse
  have hlatertags : ns.TagsWithin (stack.elapse event.1) := htags
  have hperform : ∀ after, ns.perform (stack.elapse event.1) event.2 = .ok after →
      Frame (ns.Owns (stack.elapse event.1)) (stack.elapse event.1) after :=
    fun _ => Frame.perform hliteral hlatertags
  simp only
  generalize hres : ns.perform (stack.elapse event.1) event.2 = res at hperform
  cases res with
  | error => exact hlater
  | ok after => exact hlater.trans (hperform after rfl)

theorem Frame.owns (h : Frame (ns.Owns stack) stack after) {raw : String} :
    ns.Owns after raw ↔ ns.Owns stack raw := by
  simp only [CacheNamespace.Owns, CacheStack.qualifyKey, h.generation]

theorem Frame.tagsWithin (h : Frame (ns.Owns stack) stack after) (htags : ns.TagsWithin stack) :
    ns.TagsWithin after := by
  intro tag raw htag hmem
  rw [h.owns]
  by_contra hraw
  exact hraw (htags tag raw htag ((h.tags raw tag hraw).mp hmem))

/-- A run through a literal prefix changes only keys of the namespace. -/
theorem Frame.run (hliteral : ns.Literal) (htags : ns.TagsWithin stack)
    (events : List (Millis × Operation V)) :
    Frame (ns.Owns stack) stack (ns.run stack events) := by
  induction events generalizing stack with
  | nil => exact Frame.refl
  | cons event events ih =>
    have hstep := Frame.step hliteral htags event
    exact hstep.trans ((ih (hstep.tagsWithin htags)).mono fun raw => hstep.owns.mp)

/-- Every key outside the namespace is held by the layers as before: the value, the windows and
the expiry of each layer's entry. -/
def CacheNamespace.Isolated (ns : CacheNamespace) (stack after : CacheStack Keys.Number V) : Prop :=
  ∀ raw, ¬ ns.Owns stack raw → after.cells raw = stack.cells raw

def lookalike (front back : List Char) : String := String.ofList (front ++ '#' :: back ++ [':'])

theorem not_owns_lookalike {front back : List Char} {c : Char} (hc : c = '*' ∨ c = '?')
    (hpre : ns.pre.toList = front ++ c :: back) (hgeneration : stack.currentGeneration = none) :
    ¬ ns.Owns stack (lookalike front back) := by
  intro h
  have hsmall : c.toNat ≠ '#'.toNat ∧ Keys.codeUnits c = [c.toNat] := by
    rcases hc with rfl | rfl <;> exact ⟨by decide, rfl⟩
  have hroot : units (stack.qualifyKey (ns.qualify "")) =
      front.flatMap Keys.codeUnits ++ c.toNat :: (back.flatMap Keys.codeUnits ++ [':'.toNat]) := by
    simp [CacheStack.qualifyKey, CacheNamespace.qualify, generationPrefix, hgeneration, units, hpre,
      hsmall.2]
    rfl
  have hraw : units (lookalike front back) =
      front.flatMap Keys.codeUnits ++ '#'.toNat ::
        (back.flatMap Keys.codeUnits ++ [':'.toNat]) := by
    simp [lookalike, units]
    rfl
  rw [CacheNamespace.Owns, startsWith_iff, hroot, hraw] at h
  have heq := h.eq_of_length (by simp)
  rw [List.append_right_inj, List.cons.injEq] at heq
  exact hsmall.1 heq.1

theorem validatePattern_star (ns : CacheNamespace) :
    validatePattern (ns.qualify "*") = .ok () := by
  have hvalid := ns.valid
  rw [validateNamespaceKey, Keys.ok_bind] at hvalid
  obtain ⟨⟨⟩, hvalid, -⟩ := hvalid
  have hlength : jsLength (ns.qualify "*") = jsLength ns.pre + 2 := by
    simp [jsLength, CacheNamespace.qualify, Keys.codeUnits]
  unfold validateText at hvalid
  split at hvalid
  · cases hvalid
  · split at hvalid
    · cases hvalid
    · split at hvalid
      · cases hvalid
      · rename_i hcontrol
        have hstar : (ns.qualify "*").toList.any isControl = ns.pre.toList.any isControl := by
          simp [CacheNamespace.qualify, isControl]
        rw [validatePattern, validateText, hlength, hstar, MAX_PATTERN_LENGTH,
          if_neg (by omega), if_neg (by omega), if_neg hcontrol]

/-- The only entry is one under the raw key, in a layer that lists its keys. -/
def holding (V : Type) (raw : String) : CacheStack Keys.Number V where
  currentGeneration := none
  layers := [⟨true, none, [(raw, ⟨.envelope ⟨.empty, none, none, none, none, none, none, none⟩,
    none⟩)]⟩]
  tagIndex := TagIndex.empty
  invalidationMaxKeys := none
  now := 0

theorem cells_run_star {raw : String}
    (h : patternMatches (ns.qualify "*") raw = true) :
    (ns.run (holding V raw) [(0, .invalidate .delete (.pattern "*"))]).cells raw = [none] := by
  have hselect : (holding V raw).select (.pattern (ns.qualify "*")) = .ok [raw] := by
    have hkeys : (holding V raw).collectKeysMatchingPattern (ns.qualify "*") = .ok [raw] := by
      simp [holding, CacheStack.collectKeysMatchingPattern, CacheStack.discover, TagIndex.empty,
        CacheStack.assertWithinLimit, Layer.keys, Cell.Live, h]
    rw [CacheStack.select, validatePattern_star]
    exact hkeys
  have hperform : ns.perform (holding V raw) (.invalidate .delete (.pattern "*")) =
      .ok ((holding V raw).deleteKeys [raw]) := by
    rw [CacheNamespace.perform, CacheNamespace.qualifyOperation, CacheStack.perform,
      CacheNamespace.qualifySelection, CacheStack.invalidate, hselect]
    rfl
  have hrun : ns.run (holding V raw) [(0, .invalidate .delete (.pattern "*"))] =
      (holding V raw).deleteKeys [raw] := by
    rw [CacheNamespace.run, List.foldl_cons, List.foldl_nil, CacheNamespace.step]
    simp only [elapse_zero, hperform]
    rfl
  rw [hrun]
  exact congrArg (fun c => [c]) (Layer.cell_foldl_delete (List.mem_singleton_self raw))

theorem matches_lookalike {front back : List Char} {c : Char} (hc : c = '*' ∨ c = '?')
    (hpre : ns.pre.toList = front ++ c :: back) :
    patternMatches (ns.qualify "*") (lookalike front back) = true := by
  have hunits : units (ns.qualify "*") = front.flatMap Keys.codeUnits ++ ([c.toNat] ++
      ((back.flatMap Keys.codeUnits ++ [':'.toNat]) ++ ['*'.toNat])) := by
    rcases hc with rfl | rfl <;> simp [CacheNamespace.qualify, units, hpre] <;> rfl
  have hraw : units (lookalike front back) = front.flatMap Keys.codeUnits ++ (['#'.toNat] ++
      ((back.flatMap Keys.codeUnits ++ [':'.toNat]) ++ [])) := by
    simp [lookalike, units]
    rfl
  have hone : Glob.Matches wildcards [c.toNat] ['#'.toNat] := by
    rcases hc with rfl | rfl
    · exact .take (.skip .nil)
    · exact .one (by decide) (Or.inl rfl) .nil
  rw [patternMatches, Glob.matchLinear_iff, hunits, hraw]
  exact (Glob.Matches.refl _).append (hone.append ((Glob.Matches.refl _).append (.skip .nil)))

/-- Operations on a namespace leave every other key alone exactly where the prefix has no
wildcards, as long as no layer evicts and no other key carries a tag of the namespace. -/
theorem isolated_iff (V : Type) (ns : CacheNamespace) :
    (∀ (stack : CacheStack Keys.Number V) (maxSize : ℕ → Option ℕ) (events), ns.TagsWithin stack →
      ns.KeepsWithin maxSize stack events → ns.Isolated stack (ns.run stack events)) ↔
      ns.Literal := by
  constructor
  · intro h
    by_contra hliteral
    obtain ⟨c, hc, hmem⟩ : ∃ c, (c = '*' ∨ c = '?') ∧ c ∈ ns.pre.toList := by
      rw [CacheNamespace.Literal, not_and_or, not_not, not_not] at hliteral
      rcases hliteral with hmem | hmem
      · exact ⟨'*', Or.inl rfl, hmem⟩
      · exact ⟨'?', Or.inr rfl, hmem⟩
    obtain ⟨front, back, hpre⟩ := List.append_of_mem hmem
    have htags : ns.TagsWithin (holding V (lookalike front back)) := fun _ _ _ hraw => nomatch hraw
    have hunbounded : ns.KeepsWithin (fun _ => none) (holding V (lookalike front back))
        [(0, .invalidate .delete (.pattern "*"))] := by
      intro n p _ bound hbound
      cases hbound
    have hsame := h _ _ _ htags hunbounded _ (not_owns_lookalike hc hpre rfl)
    rw [cells_run_star (matches_lookalike hc hpre)] at hsame
    simp [CacheStack.cells, holding, Layer.cell] at hsame
  · intro hliteral stack _ events htags _
    exact (Frame.run hliteral htags events).cells

/-- The prefix `team?` reaches the keys of the namespace `team1`. -/
theorem not_isolated_wildcard :
    ¬ ∀ (ns : CacheNamespace) (stack : CacheStack Keys.Number ℕ) (events),
      ns.Isolated stack (ns.run stack events) := by
  intro h
  have hsame := h ⟨"team?", by decide⟩ (holding ℕ "team1:config")
    [(0, .invalidate .delete (.pattern "*"))] "team1:config" (by decide)
  rw [cells_run_star (by decide)] at hsame
  simp [CacheStack.cells, holding, Layer.cell] at hsame

end Selected

end LayerCache.Namespaced
