import LayerCache.Invalidation.RedisTagIndex
import LayerCache.Matching.Dialects

/-! # Patterns and the tag index in Redis

The index scans its shards for a pattern and keeps of what the scans return what the pattern
matcher matches, each key once. A key that Redis does not find for the pattern is lost, whatever
the matcher says.
-/

namespace LayerCache

open Namespaced (patternMatches)

namespace RedisTagIndex

variable (index : RedisTagIndex) (db : RedisSets) (pattern : String)

/-- The keys that are known: in the legacy set, or, where there are shards, in one of them. -/
def Known (key : String) : Prop :=
  key ∈ db .legacyKnownKeys ∨ index.knownKeysShards ≠ 1 ∧
    ∃ shard < index.knownKeysShards, key ∈ db (.knownKeys shard)

/-- What the pages of `SSCAN` have for each set that is read, in any order and any number of
times: the members that match as Redis reads the pattern. -/
def Scanned (sscan : IndexKey → List (List String)) : Prop :=
  ∀ set ∈ index.knownKeysKeysForRead db, ∀ key, key ∈ (sscan set).flatten ↔
    key ∈ db set ∧ RedisGlob.isMatch (utf8 pattern) (utf8 key) = true

variable (sscan : IndexKey → List (List String))

/-- The keys in the order in which the scans return them. -/
def scannedKeys : List String :=
  (index.knownKeysKeysForRead db).flatMap fun set => (sscan set).flatten

def matchPattern : List String :=
  (index.scannedKeys db sscan).foldl (fun matches' key =>
    if patternMatches pattern key ∧ key ∉ matches' then matches' ++ [key] else matches') []

/-- The body of the loop: a key that has been visited is not visited again. -/
def visitMatch {σ ε : Type} (visitor : σ → String → Except ε σ) (s : List String × σ)
    (key : String) : Except ε (List String × σ) :=
  if patternMatches pattern key ∧ key ∉ s.1 then do
    let result ← visitor s.2 key
    pure (s.1 ++ [key], result)
  else pure s

def forEachKeyMatchingPattern {σ ε : Type} (visitor : σ → String → Except ε σ) (s : σ) :
    Except ε σ :=
  Prod.snd <$> (index.scannedKeys db sscan).foldlM (visitMatch pattern visitor) ([], s)

/-- The keys are those that are known and match, each once. -/
def Exactly (keys : List String) : Prop :=
  keys.Nodup ∧ ∀ key, key ∈ keys ↔ index.Known db key ∧ patternMatches pattern key = true

/-- Both lookups come to the known keys that match, each once. -/
structure Agrees : Prop where
  matchPattern : index.Exactly db pattern (index.matchPattern db pattern sscan)
  forEachKeyMatchingPattern : ∃ keys, index.Exactly db pattern keys ∧
    ∀ {σ ε : Type} (visitor : σ → String → Except ε σ) (s : σ),
      index.forEachKeyMatchingPattern db pattern sscan visitor s = keys.foldlM visitor s

variable {index db pattern sscan} {key : String}

/-- The matches among the keys that have not been found before, each where it comes first. -/
def fresh (pattern : String) : List String → List String → List String
  | _, [] => []
  | found, key :: keys =>
    if patternMatches pattern key ∧ key ∉ found then key :: fresh pattern (found ++ [key]) keys
    else fresh pattern found keys

theorem foldl_eq_fresh (found keys : List String) :
    keys.foldl (fun matches' key =>
      if patternMatches pattern key ∧ key ∉ matches' then matches' ++ [key] else matches') found =
      found ++ fresh pattern found keys := by
  induction keys generalizing found with
  | nil => exact (List.append_nil found).symm
  | cons key keys ih =>
    rw [List.foldl_cons, fresh]
    split
    case isTrue => rw [ih, List.append_assoc, List.singleton_append]
    case isFalse => exact ih found

theorem matchPattern_eq_fresh :
    index.matchPattern db pattern sscan = fresh pattern [] (index.scannedKeys db sscan) :=
  foldl_eq_fresh [] _

theorem foldlM_visitMatch {σ ε : Type} (visitor : σ → String → Except ε σ)
    (found keys : List String) (s : σ) :
    keys.foldlM (visitMatch pattern visitor) (found, s) =
      (fun result => (found ++ fresh pattern found keys, result)) <$>
        (fresh pattern found keys).foldlM visitor s := by
  induction keys generalizing found s with
  | nil => simp [fresh]
  | cons key keys ih =>
    rw [List.foldlM_cons, fresh]
    by_cases hkey : patternMatches pattern key ∧ key ∉ found
    · rw [visitMatch, if_pos hkey, if_pos hkey, List.foldlM_cons]
      simp only [bind_assoc, pure_bind, ih, map_bind, List.append_assoc, List.singleton_append]
    · rw [visitMatch, if_neg hkey, if_neg hkey, pure_bind, ih]

/-- The visits are of the keys that `matchPattern` returns, in their order. -/
theorem forEachKeyMatchingPattern_eq {σ ε : Type} (visitor : σ → String → Except ε σ) (s : σ) :
    index.forEachKeyMatchingPattern db pattern sscan visitor s =
      (index.matchPattern db pattern sscan).foldlM visitor s := by
  rw [forEachKeyMatchingPattern, foldlM_visitMatch, matchPattern_eq_fresh, ← comp_map]
  exact id_map _

theorem mem_fresh {found keys : List String} :
    key ∈ fresh pattern found keys ↔
      key ∈ keys ∧ patternMatches pattern key = true ∧ key ∉ found := by
  induction keys generalizing found with
  | nil => simp [fresh]
  | cons key' keys ih =>
    rw [fresh]
    split
    case isTrue hkey =>
      rw [List.mem_cons, ih]
      by_cases hsame : key = key'
      · simp [hsame, hkey]
      · simp [hsame]
    case isFalse hkey =>
      rw [ih, List.mem_cons]
      constructor
      · exact fun ⟨hmem, hrest⟩ => ⟨.inr hmem, hrest⟩
      · rintro ⟨rfl | hmem, hrest⟩
        · exact absurd hrest hkey
        · exact ⟨hmem, hrest⟩

theorem nodup_fresh (found keys : List String) : (fresh pattern found keys).Nodup := by
  induction keys generalizing found with
  | nil => exact List.nodup_nil
  | cons key keys ih =>
    rw [fresh]
    split
    case isTrue =>
      refine List.nodup_cons.mpr ⟨fun hmem => ?_, ih _⟩
      exact (mem_fresh.mp hmem).2.2 (by simp)
    case isFalse => exact ih found

theorem known_iff : index.Known db key ↔ ∃ set ∈ index.knownKeysKeysForRead db, key ∈ db set := by
  unfold Known knownKeysKeysForRead knownKeysKeys
  by_cases hone : index.knownKeysShards = 1
  · simp [hone]
  · by_cases hlegacy : db .legacyKnownKeys = [] <;> simp [hone, hlegacy]

theorem mem_scannedKeys (hscan : index.Scanned db pattern sscan) :
    key ∈ index.scannedKeys db sscan ↔
      index.Known db key ∧ RedisGlob.isMatch (utf8 pattern) (utf8 key) = true := by
  rw [scannedKeys, List.mem_flatMap, known_iff]
  constructor
  · rintro ⟨set, hset, hkey⟩
    obtain ⟨hmem, hfound⟩ := (hscan set hset key).mp hkey
    exact ⟨⟨set, hset, hmem⟩, hfound⟩
  · rintro ⟨⟨set, hset, hmem⟩, hfound⟩
    exact ⟨set, hset, (hscan set hset key).mpr ⟨hmem, hfound⟩⟩

/-- Redis finds, for the pattern, every known key that the pattern matcher matches. -/
def FindsMatches (index : RedisTagIndex) (db : RedisSets) (pattern : String) : Prop :=
  ∀ key, index.Known db key → patternMatches pattern key = true →
    RedisGlob.isMatch (utf8 pattern) (utf8 key) = true

theorem exactly_matchPattern_iff (hscan : index.Scanned db pattern sscan) :
    index.Exactly db pattern (index.matchPattern db pattern sscan) ↔
      index.FindsMatches db pattern := by
  have hmem : ∀ {key}, key ∈ index.matchPattern db pattern sscan ↔ (index.Known db key ∧
      RedisGlob.isMatch (utf8 pattern) (utf8 key) = true) ∧ patternMatches pattern key = true := by
    intro key
    rw [matchPattern_eq_fresh, mem_fresh, mem_scannedKeys hscan]
    simp
  constructor
  · rintro ⟨-, hexact⟩ key hknown hmatch
    exact (hmem.mp ((hexact key).mpr ⟨hknown, hmatch⟩)).1.2
  · intro hfinds
    constructor
    · rw [matchPattern_eq_fresh]
      exact nodup_fresh [] _
    · intro key
      rw [hmem]
      constructor
      · rintro ⟨⟨hknown, -⟩, hmatch⟩
        exact ⟨hknown, hmatch⟩
      · rintro ⟨hknown, hmatch⟩
        exact ⟨⟨hknown, hfinds key hknown hmatch⟩, hmatch⟩

/-- The lookups in Redis agree with the pattern matcher just where Redis finds every known key
that the matcher matches; it does where the pattern has neither brackets nor backslashes, and no
question mark while a known key has a character of several bytes. -/
theorem agrees_iff (index : RedisTagIndex) (db : RedisSets) (pattern : String)
    (sscan : IndexKey → List (List String)) (hscan : index.Scanned db pattern sscan) :
    (index.Agrees db pattern sscan ↔ index.FindsMatches db pattern) ∧
      ((∀ c ∈ pattern.toList, c ≠ '[' ∧ c ≠ '\\') →
        ('?' ∈ pattern.toList → ∀ key, index.Known db key → ∀ c ∈ key.toList, c.toNat < 128) →
        index.Agrees db pattern sscan) := by
  have hiff : index.Agrees db pattern sscan ↔ index.FindsMatches db pattern := by
    rw [← exactly_matchPattern_iff hscan]
    constructor
    · exact Agrees.matchPattern
    · exact fun h => ⟨h, _, h, fun visitor s => forEachKeyMatchingPattern_eq visitor s⟩
  refine ⟨hiff, fun hplain hany => hiff.mpr fun key hknown hmatch => ?_⟩
  exact Dialects.isMatch_utf8 hplain (fun hmark => hany hmark key hknown) hmatch

/-- An index with one shard, in which one key is known. -/
def oneKnown (key : String) : RedisSets := fun set => if set = .legacyKnownKeys then [key] else []

theorem agrees_oneKnown : Agrees ⟨1, Nat.one_pos⟩ (oneKnown "user:1") "user:?"
    fun _ => [["user:1"], [], ["user:1"]] := by
  refine (agrees_iff _ _ _ _ ?_).2 (by simp) ?_
  · intro set hset key
    obtain rfl : set = .legacyKnownKeys := by simpa [knownKeysKeysForRead] using hset
    have hfound : RedisGlob.isMatch (utf8 "user:?") (utf8 "user:1") = true := by decide +kernel
    by_cases hkey : key = "user:1"
    · simp [oneKnown, hkey, hfound]
    · simp [oneKnown, hkey]
  · intro _ key hknown
    obtain rfl : key = "user:1" := by simpa [Known, oneKnown] using hknown
    simp

/-- Redis reads the brackets as a class, and does not find the key that the matcher takes
literally. -/
theorem not_agrees_brackets : validatePattern "[id]" = .ok () ∧
    Scanned ⟨1, Nat.one_pos⟩ (oneKnown "[id]") "[id]" (fun _ => [[]]) ∧
    ¬ Agrees ⟨1, Nat.one_pos⟩ (oneKnown "[id]") "[id]" fun _ => [[]] := by
  have hlost : RedisGlob.isMatch (utf8 "[id]") (utf8 "[id]") = false := by decide +kernel
  refine ⟨by decide +kernel, ?_, ?_⟩
  · intro set hset key
    obtain rfl : set = .legacyKnownKeys := by simpa [knownKeysKeysForRead] using hset
    by_cases hkey : key = "[id]"
    · simp [hkey, hlost]
    · simp [oneKnown, hkey]
  · intro hagrees
    have hmem := (hagrees.matchPattern.2 "[id]").mpr ⟨.inl (by decide), by decide +kernel⟩
    revert hmem
    decide +kernel

end RedisTagIndex

end LayerCache
