import LayerCache.Invalidation.IndexNames
import LayerCache.Invalidation.MemoryTagIndex
import LayerCache.Transition.Run

/-! # The two tag indexes

One client runs the same operations on an index in process and on one in Redis. Their answers are
the same as long as no key that has tags is tracked without any, and the index in Redis finds its
own names when it is cleared.
-/

namespace LayerCache

open Transition

namespace RedisTagIndex

variable (index : RedisTagIndex)

def touch (db : RedisSets) (key : String) : RedisSets := execAll db (index.touchCommands key)

/-- The tags that the key has are read before the pipeline is sent. -/
def track (db : RedisSets) (key : String) (tags : List String) : RedisSets :=
  execAll db (index.trackCommands key (db (.keyTags key)) tags)

def remove (db : RedisSets) (key : String) : RedisSets :=
  execAll db (index.removeCommands key (db (.keyTags key)))

end RedisTagIndex

inductive IndexOperation
  | touch (key : String)
  | track (key : String) (tags : List String)
  | remove (key : String)
  | clear

structure Indexes where
  memory : MemoryTagIndex
  redis : RedisSets

namespace Indexes

def initial : Indexes := ⟨.empty, fun _ => []⟩

variable (options : TagIndexOptions) (index : PrefixedTagIndex)

def step (s : Indexes) : Millis × IndexOperation → Option Indexes
  | (now, .touch key) => some ⟨s.memory.touch options now key, index.touch s.redis key⟩
  | (now, .track key tags) =>
    some ⟨s.memory.track options now key tags, index.track s.redis key tags⟩
  | (_, .remove key) => some ⟨s.memory.remove key, index.remove s.redis key⟩
  | (_, .clear) => some ⟨s.memory.clear, index.clear s.redis⟩

def Below (s : Indexes) : Millis × IndexOperation → Prop
  | (now, .touch key) | (now, .track key _) =>
    (s.memory.known.insertKnownKey options now key).2.knownKeys.size ≤ options.maxKnownKeys
  | _ => True

instance Below.decidable (s : Indexes) :
    (action : Millis × IndexOperation) → Decidable (s.Below options action)
  | (now, .touch key) | (now, .track key _) => inferInstanceAs (Decidable
    (((s.memory.known.insertKnownKey options now key).2.knownKeys.size : ℚ) ≤ options.maxKnownKeys))
  | (_, .remove _) | (_, .clear) => isTrue trivial

/-- A key that has tags is given others, and the index in Redis finds all that it is to clear. -/
def Alike (s : Indexes) : Millis × IndexOperation → Prop
  | (_, .track key tags) => tags = [] → s.memory.tagsForKey key = []
  | (_, .clear) => index.FindsAll s.redis
  | _ => True

structure Agree (s : Indexes) : Prop where
  keysForTag : ∀ tag key,
    key ∈ s.memory.keysForTag tag ↔ key ∈ RedisTagIndex.keysForTag s.redis tag
  tagsForKey : ∀ key tag,
    tag ∈ s.memory.tagsForKey key ↔ tag ∈ RedisTagIndex.tagsForKey s.redis key
  keysForPrefix : ∀ pre, ∃ keys, s.memory.keysForPrefix pre = some keys ∧
    ∀ key, key ∈ keys ↔ key ∈ index.keysForPrefix s.redis pre

def isKnownKeys : IndexKey → Bool
  | .legacyKnownKeys | .knownKeys _ => true
  | .keyTags _ | .tagKeys _ => false

/-- The sets hold what the maps and the trie hold, and each known key is in its own shard. -/
structure Holds (s : Indexes) : Prop where
  tags : ∀ key tag, tag ∈ s.redis (.keyTags key) ↔ tag ∈ s.memory.tagsForKey key
  keys : ∀ key tag, key ∈ s.redis (.tagKeys tag) ↔ tag ∈ s.memory.tagsForKey key
  known : ∀ key, key ∈ s.redis (index.knownKeysKeyFor key) ↔ key ∈ s.memory.known.knownKeys.keys
  shards : ∀ key set, isKnownKeys set = true → key ∈ s.redis set →
    set = index.knownKeysKeyFor key

variable {options : TagIndexOptions} {index : PrefixedTagIndex} {s s' : Indexes}

theorem isKnownKeys_knownKeysKeyFor (key : String) :
    isKnownKeys (index.knownKeysKeyFor key) = true := by
  rcases index.knownKeysKeyFor_cases key with h | ⟨shard, h⟩ <;> rw [h] <;> rfl

theorem mem_knownKeysKeysForRead (db : RedisSets) (key : String) :
    index.knownKeysKeyFor key ∈ index.knownKeysKeysForRead db := by
  unfold RedisTagIndex.knownKeysKeysForRead RedisTagIndex.knownKeysKeyFor
    RedisTagIndex.knownKeysKeys
  split
  · exact List.mem_singleton_self _
  · have hshard : .knownKeys (simpleHash key % index.knownKeysShards) ∈
        (List.range index.knownKeysShards).map IndexKey.knownKeys :=
      List.mem_map_of_mem (List.mem_range.mpr (Nat.mod_lt _ index.knownKeysShards_pos))
    split
    · exact hshard
    · exact List.mem_cons_of_mem _ hshard

theorem isKnownKeys_of_mem {db : RedisSets} {set : IndexKey}
    (h : set ∈ index.knownKeysKeysForRead db) : isKnownKeys set = true := by
  unfold RedisTagIndex.knownKeysKeysForRead RedisTagIndex.knownKeysKeys at h
  split at h
  · cases List.mem_singleton.mp h
    rfl
  · split at h
    · obtain ⟨shard, -, rfl⟩ := List.mem_map.mp h
      rfl
    · rcases List.mem_cons.mp h with rfl | h
      · rfl
      · obtain ⟨shard, -, rfl⟩ := List.mem_map.mp h
        rfl

theorem Holds.agree (h : s.Holds index) : s.Agree index where
  keysForTag tag key := by
    rw [MemoryTagIndex.mem_keysForTag]
    exact (h.keys key tag).symm
  tagsForKey key tag := (h.tags key tag).symm
  keysForPrefix pre := by
    obtain ⟨keys, hkeys, -, hmem⟩ := s.memory.known.keysForPrefix_spec pre
    refine ⟨keys, hkeys, fun key => ?_⟩
    rw [hmem, ← h.known, RedisTagIndex.keysForPrefix, List.mem_eraseDups, List.mem_flatMap]
    constructor
    · rintro ⟨hknown, hstarts⟩
      exact ⟨_, mem_knownKeysKeysForRead s.redis key, List.mem_filter.mpr ⟨hknown, hstarts⟩⟩
    · rintro ⟨set, hset, hkey⟩
      obtain ⟨hkey, hstarts⟩ := List.mem_filter.mp hkey
      have hshard := h.shards key set (isKnownKeys_of_mem hset) hkey
      exact ⟨hshard ▸ hkey, hstarts⟩

theorem holds_empty : Holds index ⟨.empty, fun _ => []⟩ where
  tags _ _ := by simp [MemoryTagIndex.tagsForKey, MemoryTagIndex.empty]
  keys _ _ := by simp [MemoryTagIndex.tagsForKey, MemoryTagIndex.empty]
  known _ := by simp [MemoryTagIndex.empty, KnownKeys.empty, OrderedMap.keys, OrderedMap.empty]
  shards _ _ _ h := nomatch h

theorem mem_keys_see {known : KnownKeys} {now : Millis} {key k : String}
    (h : (known.insertKnownKey options now key).2.knownKeys.size ≤ options.maxKnownKeys) :
    k ∈ (known.see options now key).knownKeys.keys ↔ k = key ∨ k ∈ known.knownKeys.keys := by
  have hsee : known.see options now key = (known.insertKnownKey options now key).2 := by
    unfold KnownKeys.see KnownKeys.pruneKnownKeysIfNeeded
    simp only [h, if_true, ite_self]
  rw [hsee]
  exact KnownKeys.mem_keys_insertKnownKey

variable {db : RedisSets} {set : IndexKey} {now : Millis} {key k x : String} {tags : List String}

theorem mem_touch :
    x ∈ index.touch db key set ↔ x ∈ db set ∨ set = index.knownKeysKeyFor key ∧ x = key := by
  rw [RedisTagIndex.touch, RedisTagIndex.touchCommands, execAll_cons]
  simp only [execAll, List.foldl_nil, RedisCommand.mem_exec, List.mem_singleton]

theorem mem_track_of_isKnownKeys (hset : isKnownKeys set = true) :
    x ∈ index.track db key tags set ↔ x ∈ db set ∨ set = index.knownKeysKeyFor key ∧ x = key := by
  rw [RedisTagIndex.track, RedisTagIndex.mem_execAll_track]
  cases set <;> simp_all [isKnownKeys]

theorem mem_remove_of_isKnownKeys (hset : isKnownKeys set = true) :
    x ∈ index.remove db key set ↔ x ∈ db set ∧ ¬ (set = index.knownKeysKeyFor key ∧ x = key) ∧
      ¬ (set = .legacyKnownKeys ∧ x = key) := by
  rw [RedisTagIndex.remove, RedisTagIndex.mem_execAll_remove]
  cases set <;> simp_all [isKnownKeys]

theorem Holds.touch (h : s.Holds index) (hbelow : s.Below options (now, .touch key)) :
    Holds index ⟨s.memory.touch options now key, index.touch s.redis key⟩ where
  tags k tag := by
    rw [mem_touch, h.tags]
    simp [RedisTagIndex.keyTags_ne_knownKeysKeyFor, MemoryTagIndex.touch,
      MemoryTagIndex.tagsForKey]
  keys k tag := by
    rw [mem_touch, h.keys]
    simp [RedisTagIndex.tagKeys_ne_knownKeysKeyFor, MemoryTagIndex.touch,
      MemoryTagIndex.tagsForKey]
  known k := by
    rw [mem_touch, h.known, MemoryTagIndex.touch, mem_keys_see hbelow]
    constructor
    · rintro (hk | ⟨-, rfl⟩)
      · exact .inr hk
      · exact .inl rfl
    · rintro (rfl | hk)
      · exact .inr ⟨rfl, rfl⟩
      · exact .inl hk
  shards k set hset hk := by
    rcases mem_touch.mp hk with hk | ⟨rfl, rfl⟩
    · exact h.shards k set hset hk
    · rfl

theorem Holds.track (h : s.Holds index) (hbelow : s.Below options (now, .track key tags))
    (htags : tags = [] → s.memory.tagsForKey key = []) :
    Holds index ⟨s.memory.track options now key tags, index.track s.redis key tags⟩ := by
  -- a key that is tracked has exactly the tags that are given
  have hmemory : ∀ k tag, tag ∈ (s.memory.track options now key tags).tagsForKey k ↔
      if k = key then tag ∈ tags else tag ∈ s.memory.tagsForKey k := by
    intro k tag
    rw [MemoryTagIndex.mem_tagsForKey_track]
    by_cases hk : k = key
    · subst hk
      by_cases hne : tags = []
      · simp [hne, htags hne]
      · simp [hne]
    · simp [hk]
  constructor
  · intro k tag
    rw [hmemory, RedisTagIndex.track, RedisTagIndex.mem_keyTags_track, h.tags]
  · intro k tag
    rw [hmemory, RedisTagIndex.track, RedisTagIndex.mem_tagKeys_track, h.keys, h.keys, h.tags]
    split
    · tauto
    · rfl
  · intro k
    rw [mem_track_of_isKnownKeys (isKnownKeys_knownKeysKeyFor k), h.known, MemoryTagIndex.track,
      mem_keys_see hbelow]
    constructor
    · rintro (hk | ⟨-, rfl⟩)
      · exact .inr hk
      · exact .inl rfl
    · rintro (rfl | hk)
      · exact .inr ⟨rfl, rfl⟩
      · exact .inl hk
  · intro k set hset hk
    rcases (mem_track_of_isKnownKeys hset).mp hk with hk | ⟨rfl, rfl⟩
    · exact h.shards k set hset hk
    · rfl

theorem Holds.remove (h : s.Holds index) (key : String) :
    Holds index ⟨s.memory.remove key, index.remove s.redis key⟩ := by
  constructor
  · intro k tag
    rw [MemoryTagIndex.mem_tagsForKey_remove, RedisTagIndex.remove,
      RedisTagIndex.mem_keyTags_remove, h.tags]
  · intro k tag
    rw [MemoryTagIndex.mem_tagsForKey_remove, RedisTagIndex.remove,
      RedisTagIndex.mem_tagKeys_remove, h.keys, h.tags]
    by_cases hk : k = key
    · subst hk
      simp
    · simp [hk]
  · intro k
    rw [mem_remove_of_isKnownKeys (isKnownKeys_knownKeysKeyFor k), h.known, MemoryTagIndex.remove,
      KnownKeys.mem_keys_removeKnownKey]
    by_cases hk : k = key
    · subst hk
      simp
    · simp [hk]
  · intro k set hset hk
    exact h.shards k set hset ((mem_remove_of_isKnownKeys hset).mp hk).1

theorem Holds.step {action : Millis × IndexOperation} (h : s.Holds index)
    (hbelow : s.Below options action) (halike : s.Alike index action)
    (hs : s.step options index action = some s') : s'.Holds index := by
  obtain ⟨now, operation⟩ := action
  cases operation with
  | touch key =>
    cases hs
    exact h.touch hbelow
  | track key tags =>
    cases hs
    exact h.track hbelow halike
  | remove key =>
    cases hs
    exact h.remove key
  | clear =>
    cases hs
    rw [PrefixedTagIndex.findsAll_iff.mp halike]
    exact holds_empty

theorem Agree.redis_eq_nil (h : Agree index ⟨.empty, db⟩)
    (hshards : ∀ key set, isKnownKeys set = true → key ∈ db set →
      set = index.knownKeysKeyFor key) : db = fun _ => [] := by
  funext set
  rw [List.eq_nil_iff_forall_not_mem]
  intro x hx
  cases hset : isKnownKeys set with
  | false =>
    cases set with
    | keyTags key => cases (h.tagsForKey key x).mpr hx
    | tagKeys tag => cases (h.keysForTag tag x).mpr hx
    | legacyKnownKeys | knownKeys _ => cases hset
  | true =>
    obtain ⟨keys, hkeys, hmem⟩ := h.keysForPrefix ""
    have hknown : x ∈ index.keysForPrefix db "" := by
      rw [RedisTagIndex.keysForPrefix, List.mem_eraseDups, List.mem_flatMap]
      refine ⟨_, mem_knownKeysKeysForRead db x, List.mem_filter.mpr ⟨?_, rfl⟩⟩
      exact hshards x set hset hx ▸ hx
    cases hkeys
    cases (hmem x).mpr hknown

theorem Holds.alike_of_agree {action : Millis × IndexOperation} (h : s.Holds index)
    (hs : s.step options index action = some s') (hagree : s'.Agree index) :
    s.Alike index action := by
  obtain ⟨now, operation⟩ := action
  cases operation with
  | touch key | remove key => trivial
  | track key tags =>
    cases hs
    rintro rfl
    rw [List.eq_nil_iff_forall_not_mem]
    intro tag htag
    have hafter : tag ∈ (s.memory.track options now key []).tagsForKey key := by
      rw [MemoryTagIndex.mem_tagsForKey_track]
      simpa using htag
    have hredis := (hagree.tagsForKey key tag).mp hafter
    rw [RedisTagIndex.tagsForKey, RedisTagIndex.track, RedisTagIndex.mem_keyTags_track] at hredis
    simp at hredis
  | clear =>
    cases hs
    apply PrefixedTagIndex.findsAll_iff.mpr
    apply hagree.redis_eq_nil
    intro key set hset hkey
    apply h.shards key set hset
    unfold PrefixedTagIndex.clear at hkey
    split at hkey
    · cases hkey
    · exact hkey

variable (options index) in
def AgreeAfter (s : Indexes) (action : Millis × IndexOperation) : Prop :=
  ∀ s', s.step options index action = some s' → s'.Agree index

/-- The indexes give the same answers at first, and after all steps of a run exactly if all its
steps are alike. -/
theorem agree_iff (as : List (Millis × IndexOperation))
    (hbelow : Along (step options index) (Below options) initial as) :
    initial.Agree index ∧
      (Along (step options index) (AgreeAfter options index) initial as ↔
        Along (step options index) (Alike index) initial as) := by
  have hrun : ∀ s : Indexes, s.Holds index → Along (step options index) (Below options) s as →
      (Along (step options index) (AgreeAfter options index) s as ↔
        Along (step options index) (Alike index) s as) := by
    clear hbelow
    induction as with
    | nil => exact fun _ _ _ => Iff.rfl
    | cons action as ih =>
      rintro s h ⟨hbelow, hrest⟩
      obtain ⟨s', hs⟩ : ∃ s', s.step options index action = some s' := by
        obtain ⟨now, operation⟩ := action
        cases operation <;> exact ⟨_, rfl⟩
      constructor
      · rintro ⟨hagree, hlater⟩
        have halike := h.alike_of_agree hs (hagree s' hs)
        refine ⟨halike, fun t ht => ?_⟩
        exact (ih t (h.step hbelow halike ht) (hrest t ht)).mp (hlater t ht)
      · rintro ⟨halike, hlater⟩
        refine ⟨fun t ht => (h.step hbelow halike ht).agree, fun t ht => ?_⟩
        exact (ih t (h.step hbelow halike ht) (hrest t ht)).mpr (hlater t ht)
  exact ⟨holds_empty.agree, hrun initial holds_empty hbelow⟩

def defaultOptions : TagIndexOptions := ⟨100000, 10000, 1000⟩

def defaultIndex : PrefixedTagIndex := ⟨⟨16, by decide⟩, ⟨utf8 "layercache:tag-index"⟩⟩

/-- A key gets two tags, then loses one of them, and the index is cleared. -/
def retagged : List (Millis × IndexOperation) :=
  [(0, .track "user:1" ["a", "b", "a"]), (10, .track "user:1" ["b"]), (20, .clear),
    (30, .touch "user:2")]

theorem agree_iff_retagged :
    Along (step defaultOptions defaultIndex) (AgreeAfter defaultOptions defaultIndex) initial
      retagged := by
  have hplain : RedisGlob.Plain defaultIndex.prefixBytes := by decide +kernel
  have hbelow : Along (step defaultOptions defaultIndex) (Below defaultOptions) initial
      retagged := by
    decide +kernel
  have halike : Along (step defaultOptions defaultIndex) (Alike defaultIndex) initial
      retagged :=
    ⟨nofun, fun _ _ => ⟨nofun, fun s _ => ⟨PrefixedTagIndex.findsAll_of_plain hplain s.redis,
      fun _ _ => ⟨trivial, fun _ _ => trivial⟩⟩⟩⟩
  exact (agree_iff retagged hbelow).2.mpr halike

def untagged : List (Millis × IndexOperation) :=
  [(0, .track "user:1" ["a"]), (10, .track "user:1" [])]

theorem not_agree_untagged :
    ∃ s, run (step defaultOptions defaultIndex) initial untagged = some s ∧
      Along (step defaultOptions defaultIndex) (Below defaultOptions) initial untagged ∧
      ¬ s.Agree defaultIndex := by
  have hrun : (run (step defaultOptions defaultIndex) initial untagged).map (fun s =>
      (s.memory.tagsForKey "user:1", RedisTagIndex.tagsForKey s.redis "user:1")) =
      some (["a"], []) := by
    decide +kernel
  obtain ⟨s, hs, htags⟩ := Option.map_eq_some_iff.mp hrun
  simp only [Prod.mk.injEq] at htags
  have hbelow : Along (step defaultOptions defaultIndex) (Below defaultOptions) initial
      untagged := by
    decide +kernel
  refine ⟨s, hs, hbelow, fun hagree => ?_⟩
  have htag := hagree.tagsForKey "user:1" "a"
  rw [htags.1, htags.2] at htag
  simp at htag

end Indexes

end LayerCache
