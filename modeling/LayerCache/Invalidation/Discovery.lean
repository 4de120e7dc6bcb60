import LayerCache.Invalidation.MemoryTagIndex
import Mathlib.Data.Finset.Card

/-! # The discovery of keys

Keys that match come from the tag index and then from the layers. Each counts once against the
limit, and the first that is too many ends the search.
-/

namespace LayerCache

open Namespaced (startsWith patternMatches)

/-- An `InvalidationLimitError`. -/
structure LimitError where
  size : ℕ
  maxMatches : ℚ
  deriving DecidableEq

def LimitError.message (text : ℚ → String) (error : LimitError) : String :=
  "Invalidation matched too many keys (" ++ toString error.size ++ " > " ++
    text error.maxMatches ++ ")."

def assertWithinMatchLimit (size : ℕ) : Option ℚ → Except LimitError Unit
  | none => .ok ()
  | some maxMatches => if maxMatches < size then .error ⟨size, maxMatches⟩ else .ok ()

/-- `matches.add(key)` -/
def addMatch (found : List String) (key : String) : List String :=
  if key ∈ found then found else found ++ [key]

/-- The keys that have been found, and what their visits have left. -/
structure Search (σ : Type) where
  found : List String
  state : σ

variable {σ : Type} (maxMatches : Option ℚ)

/-- A key that has been found before is not visited again. A limit that is exceeded ends the search
as it is. -/
def visit (visitor : String → σ → σ) (key : String) (s : Search σ) :
    Except (LimitError × Search σ) (Search σ) :=
  if key ∈ s.found then .ok s
  else
    let s := { s with found := addMatch s.found key }
    match assertWithinMatchLimit s.found.length maxMatches with
    | .error error => .error (error, s)
    | .ok () => .ok { s with state := visitor key s.state }

def visitAll (visitor : String → σ → σ) (s : Search σ) (keys : List String) :
    Except (LimitError × Search σ) (Search σ) :=
  keys.foldlM (fun s key => visit maxMatches visitor key s) s

def collectMatches (found keys : List String) : Except LimitError (List String) :=
  keys.foldlM (fun found key => do
    let found := addMatch found key
    assertWithinMatchLimit found.length maxMatches
    return found) found

/-- The keys of the index that start with the prefix, and then those that the layers list. -/
def collectKeysWithPrefix (known : KnownKeys) (listed : List String) (pre : String) :
    Option (Except LimitError (List String)) :=
  let visitor := fun key found => addMatch found key
  let indexed := KnownKeys.forEachKeyForPrefix (fun _ : Search (List String) => known)
    (visit maxMatches visitor) pre ⟨[], []⟩
  indexed.map fun indexed =>
    match indexed.bind fun s =>
        visitAll maxMatches visitor s (listed.filter (startsWith · pre)) with
    | .ok s => .ok s.state
    | .error (error, _) => .error error

def collectKeysMatchingPattern (known : KnownKeys) (listed : List String) (pattern : String) :
    Option (Except LimitError (List String)) :=
  (known.matchPattern pattern).map fun indexed => do
    let found ← collectMatches maxMatches [] indexed
    collectMatches maxMatches found (listed.filter (patternMatches pattern))

variable {maxMatches}

def Within (maxMatches : Option ℚ) (size : ℕ) : Prop := ∀ m ∈ maxMatches, (size : ℚ) ≤ m

theorem Within.mono {m n : ℕ} (h : Within maxMatches n) (hle : m ≤ n) : Within maxMatches m :=
  fun q hq => (Nat.cast_le.mpr hle).trans (h q hq)

theorem within_zero (h : ∀ m ∈ maxMatches, 0 < m) : Within maxMatches 0 := fun m hm => by
  simpa using (h m hm).le

theorem assertWithinMatchLimit_of_within {size : ℕ} (h : Within maxMatches size) :
    assertWithinMatchLimit size maxMatches = .ok () := by
  cases maxMatches with
  | none => rfl
  | some m => exact if_neg (not_lt.mpr (h m rfl))

theorem assertWithinMatchLimit_of_not_within {size : ℕ} (h : ¬ Within maxMatches size) :
    ∃ error, assertWithinMatchLimit size maxMatches = .error error ∧
      error.maxMatches < error.size := by
  cases maxMatches with
  | none => exact absurd (fun _ h => nomatch h) h
  | some m =>
    have hlt : m < size := by
      by_contra hle
      exact h fun q hq => Option.some.inj hq ▸ not_lt.mp hle
    exact ⟨⟨size, m⟩, if_pos hlt, hlt⟩

theorem nodup_addMatch {found : List String} (h : found.Nodup) (key : String) :
    (addMatch found key).Nodup := by
  unfold addMatch
  split
  · exact h
  · rename_i hmem
    exact h.append (List.nodup_singleton key) (by simpa using hmem)

theorem mem_addMatch {found : List String} {key k : String} :
    k ∈ addMatch found key ↔ k = key ∨ k ∈ found := by
  unfold addMatch
  split
  · rename_i hmem
    constructor
    · exact .inr
    · rintro (rfl | h)
      · exact hmem
      · exact h
  · rw [List.mem_append, List.mem_singleton, or_comm]

variable {visitor : String → σ → σ} {P : List String → σ → Prop} {all : Finset String}
  {s : Search σ} {key : String} {keys : List String}

/-- What has been found is to be found, and within the limit; its visits have left what they
should. -/
structure Search.Sound (P : List String → σ → Prop) (maxMatches : Option ℚ) (all : Finset String)
    (s : Search σ) : Prop where
  nodup : s.found.Nodup
  mem : ∀ k ∈ s.found, k ∈ all
  within : Within maxMatches s.found.length
  state : P s.found s.state

theorem Search.Sound.length_le (h : s.Sound P maxMatches all) (hkey : key ∉ s.found)
    (hall : key ∈ all) : s.found.length + 1 ≤ all.card := by
  have hnodup : (s.found ++ [key]).Nodup :=
    h.nodup.append (List.nodup_singleton key) (by simpa using hkey)
  have hsubset : (s.found ++ [key]).toFinset ⊆ all := by
    intro k hk
    rw [List.mem_toFinset, List.mem_append, List.mem_singleton] at hk
    rcases hk with hk | rfl
    · exact h.mem k hk
    · exact hall
  have hcard := Finset.card_le_card hsubset
  rwa [List.toFinset_card_of_nodup hnodup, List.length_append, List.length_singleton] at hcard

theorem visit_spec (hvisitor : ∀ found k st, k ∉ found → P found st →
      P (found ++ [k]) (visitor k st))
    (h : s.Sound P maxMatches all) (hkey : key ∈ all) :
    match visit maxMatches visitor key s with
    | .ok s' => s'.Sound P maxMatches all ∧ s'.found = addMatch s.found key
    | .error _ => ¬ Within maxMatches all.card := by
  unfold visit
  by_cases hmem : key ∈ s.found
  · rw [if_pos hmem]
    exact ⟨h, (if_pos hmem).symm⟩
  · have hadd : addMatch s.found key = s.found ++ [key] := if_neg hmem
    rw [if_neg hmem]
    by_cases hwithin : Within maxMatches (s.found.length + 1)
    · have hassert : assertWithinMatchLimit (addMatch s.found key).length maxMatches = .ok () :=
        assertWithinMatchLimit_of_within (by simpa [hadd] using hwithin)
      simp only [hassert]
      refine ⟨⟨nodup_addMatch h.nodup key, ?_, by simpa [hadd] using hwithin, ?_⟩, trivial⟩
      · intro k hk
        rcases mem_addMatch.mp hk with rfl | hk
        · exact hkey
        · exact h.mem k hk
      · simpa only [hadd] using hvisitor s.found key s.state hmem h.state
    · have hassert : ¬ Within maxMatches (addMatch s.found key).length := by
        simpa [hadd] using hwithin
      obtain ⟨error, herror, -⟩ := assertWithinMatchLimit_of_not_within hassert
      simp only [herror]
      exact fun hall => hwithin (hall.mono (h.length_le hmem hkey))

/-- A visit that exceeds the limit leaves the state as it is. -/
theorem visit_error {error : LimitError} {s' : Search σ}
    (h : visit maxMatches visitor key s = .error (error, s')) :
    s'.state = s.state ∧ ¬ Within maxMatches s'.found.length := by
  unfold visit at h
  split at h
  case isTrue => cases h
  case isFalse =>
    by_cases hwithin : Within maxMatches (addMatch s.found key).length
    · simp only [assertWithinMatchLimit_of_within hwithin] at h
      cases h
    · obtain ⟨error', herror, -⟩ := assertWithinMatchLimit_of_not_within hwithin
      simp only [herror] at h
      cases h
      exact ⟨rfl, hwithin⟩

theorem visit_of_not_within {s' : Search σ} (hover : ¬ Within maxMatches s.found.length)
    (h : visit maxMatches visitor key s = .ok s') : s' = s := by
  unfold visit at h
  split at h
  case isTrue =>
    cases h
    rfl
  case isFalse hmem =>
    have hnot : ¬ Within maxMatches (addMatch s.found key).length := by
      rw [addMatch, if_neg hmem, List.length_append]
      exact fun hwithin => hover (hwithin.mono (Nat.le_add_right _ _))
    obtain ⟨error, herror, -⟩ := assertWithinMatchLimit_of_not_within hnot
    simp only [herror] at h
    cases h

theorem visitAll_spec (visitor : String → σ → σ)
    (hvisitor : ∀ found k st, k ∉ found → P found st → P (found ++ [k]) (visitor k st))
    (h : s.Sound P maxMatches all) (hkeys : ∀ k ∈ keys, k ∈ all) :
    match visitAll maxMatches visitor s keys with
    | .ok s' => s'.Sound P maxMatches all ∧ ∀ k, k ∈ s'.found ↔ k ∈ s.found ∨ k ∈ keys
    | .error _ => ¬ Within maxMatches all.card := by
  unfold visitAll
  induction keys generalizing s with
  | nil => exact ⟨h, by simp⟩
  | cons key keys ih =>
    have hvisit := visit_spec hvisitor h (hkeys key List.mem_cons_self)
    rw [List.foldlM_cons]
    cases hafter : visit maxMatches visitor key s with
    | error e =>
      rw [hafter] at hvisit
      exact hvisit
    | ok s' =>
      rw [hafter] at hvisit
      obtain ⟨hsound, hfound⟩ := hvisit
      have hrest := ih hsound fun k hk => hkeys k (List.mem_cons_of_mem _ hk)
      simp only [bind, Except.bind]
      cases hlast : keys.foldlM (fun s key => visit maxMatches visitor key s) s' with
      | error e =>
        rw [hlast] at hrest
        exact hrest
      | ok s'' =>
        rw [hlast] at hrest
        refine ⟨hrest.1, fun k => ?_⟩
        rw [hrest.2, hfound, mem_addMatch, List.mem_cons, or_assoc, or_left_comm]

/-- A collection is a search without visits: keys that come again change nothing. -/
theorem collectMatches_eq_visitAll {found : List String} (h : Within maxMatches found.length) :
    collectMatches maxMatches found keys =
      match visitAll maxMatches (fun _ st => st) ⟨found, ()⟩ keys with
      | .ok s => .ok s.found
      | .error (error, _) => .error error := by
  unfold collectMatches visitAll
  induction keys generalizing found with
  | nil => rfl
  | cons key keys ih =>
    rw [List.foldlM_cons, List.foldlM_cons]
    by_cases hmem : key ∈ found
    · have hadd : addMatch found key = found := if_pos hmem
      have hvisit : visit maxMatches (fun _ st => st) key ⟨found, ()⟩ = .ok ⟨found, ()⟩ :=
        if_pos hmem
      simp only [hadd, hvisit, assertWithinMatchLimit_of_within h]
      exact ih h
    · unfold visit
      rw [if_neg hmem]
      by_cases hwithin : Within maxMatches (addMatch found key).length
      · simp only [assertWithinMatchLimit_of_within hwithin]
        exact ih hwithin
      · obtain ⟨error, herror, -⟩ := assertWithinMatchLimit_of_not_within hwithin
        simp only [herror]
        rfl

/-- All keys have been collected, each once, or they are too many. -/
def Collected (maxMatches : Option ℚ) (all : Finset String) :
    Except LimitError (List String) → Prop
  | .ok keys => keys.Nodup ∧ (∀ k, k ∈ keys ↔ k ∈ all) ∧ Within maxMatches all.card
  | .error _ => ¬ Within maxMatches all.card

theorem Search.Sound.collected (h : s.Sound P maxMatches all) (hall : ∀ k ∈ all, k ∈ s.found) :
    Collected maxMatches all (.ok s.found) := by
  have hmem : ∀ k, k ∈ s.found ↔ k ∈ all := fun k => ⟨h.mem k, hall k⟩
  have hfound : s.found.toFinset = all := by
    ext k
    rw [List.mem_toFinset, hmem]
  refine ⟨h.nodup, hmem, ?_⟩
  rw [← hfound, List.toFinset_card_of_nodup h.nodup]
  exact h.within

/-- What there is to find: the keys of the index and of the layers that pass the test. -/
def candidates (known : KnownKeys) (listed : List String) (test : String → Bool) :
    Finset String :=
  ((known.knownKeys.keys ++ listed).filter test).toFinset

theorem mem_candidates {known : KnownKeys} {listed : List String} {test : String → Bool}
    {k : String} : k ∈ candidates known listed test ↔
      (k ∈ known.knownKeys.keys ∨ k ∈ listed) ∧ test k = true := by
  rw [candidates, List.mem_toFinset, List.mem_filter, List.mem_append]

variable {known : KnownKeys} {listed : List String}

/-- The keys of the index that have the prefix are found, each in one visit, or they are already
too many. Visits may take out of the index what has been found. -/
theorem forEachKeyForPrefix_visit (known : σ → KnownKeys)
    (hknown : ∀ found st, P found st → ∀ k ∈ (known s.state).knownKeys.keys,
      k ∉ found → k ∈ (known st).knownKeys.keys)
    (hnew : ∀ found st, P found st → ∀ k ∈ (known st).knownKeys.keys,
      k ∈ (known s.state).knownKeys.keys)
    (hvisitor : ∀ found k st, k ∉ found → P found st → P (found ++ [k]) (visitor k st))
    (h : s.Sound P maxMatches all) (hnil : s.found = []) {pre : String}
    (hall : ∀ k ∈ (known s.state).knownKeys.keys, startsWith k pre = true → k ∈ all) :
    ∃ r, KnownKeys.forEachKeyForPrefix (fun s : Search σ => known s.state)
        (visit maxMatches visitor) pre s = some r ∧
      match r with
      | .ok s' => s'.Sound P maxMatches all ∧
          ∀ k, k ∈ s'.found ↔ k ∈ (known s.state).knownKeys.keys ∧ startsWith k pre = true
      | .error (_, s') => (∃ found, Search.Sound P maxMatches all ⟨found, s'.state⟩) ∧
          ¬ Within maxMatches s'.found.length ∧ ¬ Within maxMatches all.card := by
  have hwalk : ∃ r, KnownKeys.forEachKeyForPrefix (fun s : Search σ => known s.state)
        (visit maxMatches visitor) pre s = some r ∧ (known s.state).Visited pre
          (fun visited s' => s'.Sound P maxMatches all ∧ s'.found = visited)
          (fun e => (∃ found, Search.Sound P maxMatches all ⟨found, e.2.state⟩) ∧
            ¬ Within maxMatches e.2.found.length ∧ ¬ Within maxMatches all.card) r := by
    apply KnownKeys.forEachKeyForPrefix_rule
    · rintro visited s' ⟨hsound, rfl⟩
      exact hknown s'.found s'.state hsound.state
    · rintro visited s' ⟨hsound, rfl⟩
      exact hnew s'.found s'.state hsound.state
    · rintro visited k s' ⟨hsound, rfl⟩ hnodup hmem
      have hfresh : k ∉ s'.found := by
        intro hk
        rw [List.nodup_append'] at hnodup
        exact hnodup.2.2 hk (List.mem_singleton_self k)
      obtain ⟨hindexed, hstarts⟩ := hmem k (List.mem_append_right _ (List.mem_singleton_self k))
      have hvisit := visit_spec hvisitor hsound (hall k hindexed hstarts)
      rw [addMatch, if_neg hfresh] at hvisit
      cases hafter : visit maxMatches visitor k s' with
      | error e =>
        rw [hafter] at hvisit
        obtain ⟨hstate, hover⟩ := visit_error hafter
        exact ⟨⟨s'.found, hstate ▸ hsound⟩, hover, hvisit⟩
      | ok s'' =>
        rw [hafter] at hvisit
        exact hvisit
    · exact ⟨h, hnil⟩
  obtain ⟨r, hr, hvisited⟩ := hwalk
  refine ⟨r, hr, ?_⟩
  match r, hvisited with
  | .ok s', ⟨visited, ⟨hsound, hfound⟩, _, hmem⟩ => exact ⟨hsound, hfound ▸ hmem⟩
  | .error e, he => exact he

theorem collectKeysWithPrefix_spec (hlimit : ∀ m ∈ maxMatches, 0 < m) (known : KnownKeys)
    (listed : List String) (pre : String) :
    ∃ r, collectKeysWithPrefix maxMatches known listed pre = some r ∧
      Collected maxMatches (candidates known listed (startsWith · pre)) r := by
  have hvisitor : ∀ (found : List String) k st, k ∉ found → st = found →
      addMatch st k = found ++ [k] := by
    rintro found k st hk rfl
    exact if_neg hk
  have hstart : Search.Sound (fun found st => st = found) maxMatches
      (candidates known listed (startsWith · pre)) ⟨[], []⟩ := by
    constructor
    · exact List.nodup_nil
    · exact fun k hk => nomatch hk
    · exact within_zero hlimit
    · rfl
  obtain ⟨r, hr, hindexed⟩ := forEachKeyForPrefix_visit (fun _ => known)
    (fun _ _ _ _ hk _ => hk) (fun _ _ _ _ hk => hk) hvisitor hstart rfl
    (fun k hk hstarts => mem_candidates.mpr ⟨.inl hk, hstarts⟩)
  unfold collectKeysWithPrefix
  simp only [hr, Option.map_some]
  refine ⟨_, rfl, ?_⟩
  cases r with
  | error e => exact hindexed.2.2
  | ok s =>
    obtain ⟨hsound, hfound⟩ := hindexed
    have hlisted : ∀ k ∈ listed.filter (startsWith · pre),
        k ∈ candidates known listed (startsWith · pre) := by
      intro k hk
      obtain ⟨hmem, hstarts⟩ := List.mem_filter.mp hk
      exact mem_candidates.mpr ⟨.inr hmem, hstarts⟩
    have hlast := visitAll_spec _ hvisitor hsound hlisted
    simp only [Except.bind]
    cases hafter : visitAll maxMatches (fun key found => addMatch found key) s
        (listed.filter (startsWith · pre)) with
    | error e =>
      rw [hafter] at hlast
      exact hlast
    | ok s' =>
      rw [hafter] at hlast
      obtain ⟨hsound', hfound'⟩ := hlast
      have hstate : s'.state = s'.found := hsound'.state
      have hcollected : Collected maxMatches (candidates known listed (startsWith · pre))
          (.ok s'.found) := by
        apply hsound'.collected
        intro k hk
        rw [hfound', hfound, List.mem_filter]
        obtain ⟨hmem | hmem, hstarts⟩ := mem_candidates.mp hk
        · exact .inl ⟨hmem, hstarts⟩
        · exact .inr ⟨hmem, hstarts⟩
      rwa [← hstate] at hcollected

theorem collectMatches_spec {found : List String}
    (h : Search.Sound (fun _ (_ : Unit) => True) maxMatches all ⟨found, ()⟩)
    (hkeys : ∀ k ∈ keys, k ∈ all) :
    match collectMatches maxMatches found keys with
    | .ok found' => Search.Sound (fun _ (_ : Unit) => True) maxMatches all ⟨found', ()⟩ ∧
        ∀ k, k ∈ found' ↔ k ∈ found ∨ k ∈ keys
    | .error _ => ¬ Within maxMatches all.card := by
  have hall := visitAll_spec (fun _ st => st) (fun _ _ _ _ _ => trivial) h hkeys
  rw [collectMatches_eq_visitAll h.within]
  cases hafter : visitAll maxMatches (fun _ st => st) ⟨found, ()⟩ keys with
  | error e =>
    rw [hafter] at hall
    exact hall
  | ok s' =>
    rw [hafter] at hall
    exact hall

theorem collectKeysMatchingPattern_spec (hlimit : ∀ m ∈ maxMatches, 0 < m) (known : KnownKeys)
    (listed : List String) (pattern : String) :
    ∃ r, collectKeysMatchingPattern maxMatches known listed pattern = some r ∧
      Collected maxMatches (candidates known listed (patternMatches pattern)) r := by
  obtain ⟨indexed, hindexed, -, hmem⟩ := known.matchPattern_spec pattern
  have hstart : Search.Sound (fun _ (_ : Unit) => True) maxMatches
      (candidates known listed (patternMatches pattern)) ⟨[], ()⟩ := by
    constructor
    · exact List.nodup_nil
    · exact fun k hk => nomatch hk
    · exact within_zero hlimit
    · trivial
  unfold collectKeysMatchingPattern
  rw [hindexed, Option.map_some]
  refine ⟨_, rfl, ?_⟩
  have hfirst := collectMatches_spec hstart
    (fun k hk => mem_candidates.mpr ((hmem k).mp hk |>.imp_left .inl))
  cases hindex : collectMatches maxMatches [] indexed with
  | error e =>
    rw [hindex] at hfirst
    exact hfirst
  | ok found =>
    rw [hindex] at hfirst
    obtain ⟨hsound, hfound⟩ := hfirst
    have hlisted : ∀ k ∈ listed.filter (patternMatches pattern),
        k ∈ candidates known listed (patternMatches pattern) := by
      intro k hk
      obtain ⟨hmem, hmatch⟩ := List.mem_filter.mp hk
      exact mem_candidates.mpr ⟨.inr hmem, hmatch⟩
    have hlast := collectMatches_spec hsound hlisted
    simp only [bind, Except.bind]
    cases hafter : collectMatches maxMatches found (listed.filter (patternMatches pattern)) with
    | error e =>
      rw [hafter] at hlast
      exact hlast
    | ok found' =>
      rw [hafter] at hlast
      obtain ⟨hsound', hfound'⟩ := hlast
      apply hsound'.collected
      intro k hk
      rw [hfound', hfound, hmem, List.mem_filter]
      obtain ⟨hknown | hknown, hmatch⟩ := mem_candidates.mp hk
      · exact .inl (.inr ⟨hknown, hmatch⟩)
      · exact .inr ⟨hknown, hmatch⟩

end LayerCache
