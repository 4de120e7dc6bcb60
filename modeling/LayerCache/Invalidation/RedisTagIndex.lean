import LayerCache.Keys.Canonical
import Mathlib.Logic.Function.Basic

/-! # The tag index in Redis

The index keeps sets in Redis: the known keys in shards, the tags of each key and the keys of each
tag. An operation reads at most one set and then sends its commands in one pipeline.
-/

namespace LayerCache

/-- The sets of an index. The names that they have in Redis differ. -/
inductive IndexKey
  | legacyKnownKeys
  | knownKeys (shard : ℕ)
  | keyTags (key : String)
  | tagKeys (tag : String)
  deriving DecidableEq

/-- The sets in Redis, of which those that are empty are not there. -/
abbrev RedisSets := IndexKey → List String

inductive RedisCommand
  | sadd (set : IndexKey) (members : List String)
  | srem (set : IndexKey) (member : String)
  | del (set : IndexKey)
  deriving DecidableEq

def RedisCommand.exec (db : RedisSets) : RedisCommand → RedisSets
  | .sadd set members => Function.update db set (members.foldl (fun found member =>
      if member ∈ found then found else found ++ [member]) (db set))
  | .srem set member => Function.update db set ((db set).filter (· ≠ member))
  | .del set => Function.update db set []

def execAll (db : RedisSets) (commands : List RedisCommand) : RedisSets :=
  commands.foldl RedisCommand.exec db

structure RedisTagIndex where
  knownKeysShards : ℕ
  knownKeysShards_pos : 0 < knownKeysShards

def simpleHash (value : String) : ℕ :=
  (value.toList.flatMap Keys.codeUnits).foldl (fun hash unit => (hash * 31 + unit) % 2 ^ 32) 0

namespace RedisTagIndex

variable (index : RedisTagIndex)

def knownKeysKeyFor (key : String) : IndexKey :=
  if index.knownKeysShards = 1 then .legacyKnownKeys
  else .knownKeys (simpleHash key % index.knownKeysShards)

def knownKeysKeys : List IndexKey :=
  if index.knownKeysShards = 1 then [.legacyKnownKeys]
  else (List.range index.knownKeysShards).map .knownKeys

def knownKeysKeysForRead (db : RedisSets) : List IndexKey :=
  if index.knownKeysShards = 1 then [.legacyKnownKeys]
  else if db .legacyKnownKeys = [] then index.knownKeysKeys
  else .legacyKnownKeys :: index.knownKeysKeys

/-- The commands of `touch`. -/
def touchCommands (key : String) : List RedisCommand := [.sadd (index.knownKeysKeyFor key) [key]]

/-- The commands of `track`, once it has read the tags that the key has. -/
def trackCommands (key : String) (existingTags tags : List String) : List RedisCommand :=
  .sadd (index.knownKeysKeyFor key) [key] ::
    existingTags.map (fun tag => .srem (.tagKeys tag) key) ++
    .del (.keyTags key) ::
    if tags = [] then []
    else .sadd (.keyTags key) tags :: tags.eraseDups.map fun tag => .sadd (.tagKeys tag) [key]

/-- The commands of `remove`, once it has read the tags that the key has. -/
def removeCommands (key : String) (existingTags : List String) : List RedisCommand :=
  .srem (index.knownKeysKeyFor key) key ::
    (if 1 < index.knownKeysShards then [.srem .legacyKnownKeys key] else []) ++
    .del (.keyTags key) :: existingTags.map fun tag => .srem (.tagKeys tag) key

def keysForTag (db : RedisSets) (tag : String) : List String := db (.tagKeys tag)

def tagsForKey (db : RedisSets) (key : String) : List String := db (.keyTags key)

def startsWith (key prefix' : String) : Bool :=
  (prefix'.toList.flatMap Keys.codeUnits).isPrefixOf (key.toList.flatMap Keys.codeUnits)

def keysForPrefix (db : RedisSets) (prefix' : String) : List String :=
  ((index.knownKeysKeysForRead db).flatMap fun set =>
    (db set).filter (startsWith · prefix')).eraseDups

end RedisTagIndex

theorem mem_sadd {found members : List String} {x : String} :
    x ∈ members.foldl (fun found member => if member ∈ found then found else found ++ [member])
      found ↔ x ∈ found ∨ x ∈ members := by
  induction members generalizing found with
  | nil => simp
  | cons member members ih =>
    rw [List.foldl_cons, ih, List.mem_cons]
    split
    · rename_i hmem
      constructor
      · rintro (h | h)
        · exact .inl h
        · exact .inr (.inr h)
      · rintro (h | rfl | h)
        · exact .inl h
        · exact .inl hmem
        · exact .inr h
    · rw [List.mem_append, List.mem_singleton, or_assoc]

theorem RedisCommand.mem_exec (db : RedisSets) (command : RedisCommand) (set : IndexKey)
    (x : String) :
    x ∈ command.exec db set ↔ match command with
      | .sadd set' members => x ∈ db set ∨ set = set' ∧ x ∈ members
      | .srem set' member => x ∈ db set ∧ ¬ (set = set' ∧ x = member)
      | .del set' => x ∈ db set ∧ set ≠ set' := by
  cases command with
  | sadd set' members =>
    by_cases hset : set = set'
    · subst hset
      simp [exec, mem_sadd]
    · simp [exec, hset]
  | srem set' member =>
    by_cases hset : set = set'
    · subst hset
      simp [exec]
    · simp [exec, hset]
  | del set' =>
    by_cases hset : set = set'
    · subst hset
      simp [exec]
    · simp [exec, hset]

theorem execAll_cons (db : RedisSets) (command : RedisCommand) (commands : List RedisCommand) :
    execAll db (command :: commands) = execAll (command.exec db) commands := rfl

theorem execAll_append (db : RedisSets) (commands commands' : List RedisCommand) :
    execAll db (commands ++ commands') = execAll (execAll db commands) commands' :=
  List.foldl_append

theorem mem_execAll_srem (db : RedisSets) (key : String) (tags : List String) (set : IndexKey)
    (x : String) :
    x ∈ execAll db (tags.map fun tag => .srem (.tagKeys tag) key) set ↔
      x ∈ db set ∧ ¬ (x = key ∧ ∃ tag ∈ tags, set = .tagKeys tag) := by
  induction tags generalizing db with
  | nil => simp [execAll]
  | cons tag tags ih =>
    rw [List.map_cons, execAll_cons, ih, RedisCommand.mem_exec]
    simp only [List.mem_cons, exists_eq_or_imp]
    rw [and_comm (a := set = _), and_assoc, and_or_left, not_or]

theorem mem_execAll_sadd (db : RedisSets) (key : String) (tags : List String) (set : IndexKey)
    (x : String) :
    x ∈ execAll db (tags.map fun tag => .sadd (.tagKeys tag) [key]) set ↔
      x ∈ db set ∨ x = key ∧ ∃ tag ∈ tags, set = .tagKeys tag := by
  induction tags generalizing db with
  | nil => simp [execAll]
  | cons tag tags ih =>
    rw [List.map_cons, execAll_cons, ih, RedisCommand.mem_exec]
    simp only [List.mem_cons, exists_eq_or_imp, List.not_mem_nil, or_false]
    rw [and_comm (a := set = _), or_assoc, and_or_left]

namespace RedisTagIndex

variable {index : RedisTagIndex} {db : RedisSets} {key k tag x : String}
  {existingTags tags : List String}

theorem knownKeysKeyFor_cases (index : RedisTagIndex) (key : String) :
    index.knownKeysKeyFor key = .legacyKnownKeys ∨
      ∃ shard, index.knownKeysKeyFor key = .knownKeys shard := by
  unfold knownKeysKeyFor
  split
  · exact .inl rfl
  · exact .inr ⟨_, rfl⟩

theorem knownKeysKeysForRead_cases {db : RedisSets} {set : IndexKey}
    (h : set ∈ index.knownKeysKeysForRead db) :
    set = .legacyKnownKeys ∨ ∃ shard, set = .knownKeys shard := by
  have hshards : set ∈ index.knownKeysKeys →
      set = .legacyKnownKeys ∨ ∃ shard, set = .knownKeys shard := by
    intro hset
    simp only [knownKeysKeys] at hset
    split_ifs at hset
    · exact .inl (List.mem_singleton.mp hset)
    · obtain ⟨shard, -, rfl⟩ := List.mem_map.mp hset
      exact .inr ⟨shard, rfl⟩
  simp only [knownKeysKeysForRead] at h
  split_ifs at h
  · exact .inl (List.mem_singleton.mp h)
  · exact hshards h
  · rcases List.mem_cons.mp h with rfl | h
    · exact .inl rfl
    · exact hshards h

theorem knownKeysKeysForRead_of_mem {db db' : RedisSets} {set : IndexKey} {member : String}
    (h : set ∈ index.knownKeysKeysForRead db) (hmem : member ∈ db' set) :
    set ∈ index.knownKeysKeysForRead db' := by
  by_cases hone : index.knownKeysShards = 1
  · simpa [knownKeysKeysForRead, hone] using h
  have hread : set = .legacyKnownKeys ∨ set ∈ index.knownKeysKeys := by
    simp only [knownKeysKeysForRead, hone, if_false] at h
    split_ifs at h
    · exact .inr h
    · exact List.mem_cons.mp h
  simp only [knownKeysKeysForRead, hone, if_false]
  split_ifs with hempty
  · rcases hread with rfl | hread
    · rw [hempty] at hmem
      cases hmem
    · exact hread
  · exact List.mem_cons.mpr hread

theorem keyTags_ne_knownKeysKeyFor : .keyTags k ≠ index.knownKeysKeyFor key := by
  rcases index.knownKeysKeyFor_cases key with h | ⟨shard, h⟩ <;> simp [h]

theorem tagKeys_ne_knownKeysKeyFor : .tagKeys tag ≠ index.knownKeysKeyFor key := by
  rcases index.knownKeysKeyFor_cases key with h | ⟨shard, h⟩ <;> simp [h]

theorem mem_execAll_track (set : IndexKey) :
    x ∈ execAll db (index.trackCommands key existingTags tags) set ↔
      (((x ∈ db set ∨ set = index.knownKeysKeyFor key ∧ x = key) ∧
        ¬ (x = key ∧ ∃ tag ∈ existingTags, set = .tagKeys tag)) ∧ set ≠ .keyTags key) ∨
      set = .keyTags key ∧ x ∈ tags ∨ x = key ∧ ∃ tag ∈ tags, set = .tagKeys tag := by
  have hlast : ∀ db : RedisSets, x ∈ execAll db (if tags = [] then []
        else .sadd (.keyTags key) tags :: tags.eraseDups.map fun tag => .sadd (.tagKeys tag) [key])
        set ↔
      x ∈ db set ∨ set = .keyTags key ∧ x ∈ tags ∨ x = key ∧ ∃ tag ∈ tags, set = .tagKeys tag := by
    intro db
    split
    · rename_i hnil
      simp [execAll, hnil]
    · rw [execAll_cons, mem_execAll_sadd, RedisCommand.mem_exec]
      simp only [List.mem_eraseDups, or_assoc]
  rw [trackCommands, List.cons_append, execAll_cons, execAll_append, execAll_cons, hlast,
    RedisCommand.mem_exec, mem_execAll_srem, RedisCommand.mem_exec]
  simp only [List.mem_singleton]

theorem mem_keyTags_track :
    x ∈ execAll db (index.trackCommands key existingTags tags) (.keyTags k) ↔
      if k = key then x ∈ tags else x ∈ db (.keyTags k) := by
  rw [mem_execAll_track]
  by_cases hk : k = key <;> simp [hk, keyTags_ne_knownKeysKeyFor]

theorem mem_tagKeys_track :
    k ∈ execAll db (index.trackCommands key existingTags tags) (.tagKeys tag) ↔
      if k = key then tag ∈ tags ∨ key ∈ db (.tagKeys tag) ∧ tag ∉ existingTags
      else k ∈ db (.tagKeys tag) := by
  rw [mem_execAll_track]
  by_cases hk : k = key
  · simp [hk, tagKeys_ne_knownKeysKeyFor, or_comm]
  · simp [hk]

theorem mem_execAll_remove (set : IndexKey) :
    x ∈ execAll db (index.removeCommands key existingTags) set ↔
      x ∈ db set ∧ ¬ (set = index.knownKeysKeyFor key ∧ x = key) ∧
        ¬ (set = .legacyKnownKeys ∧ x = key) ∧ set ≠ .keyTags key ∧
        ¬ (x = key ∧ ∃ tag ∈ existingTags, set = .tagKeys tag) := by
  have hlegacy : ∀ db : RedisSets,
      x ∈ execAll (RedisCommand.exec db (.srem (index.knownKeysKeyFor key) key))
        (if 1 < index.knownKeysShards then [.srem .legacyKnownKeys key] else []) set ↔
      x ∈ db set ∧ ¬ (set = index.knownKeysKeyFor key ∧ x = key) ∧
        ¬ (set = .legacyKnownKeys ∧ x = key) := by
    intro db
    split
    · simp only [execAll, List.foldl_cons, List.foldl_nil, RedisCommand.mem_exec, and_assoc]
    · rename_i hone
      have hshards : index.knownKeysShards = 1 := by
        have := index.knownKeysShards_pos
        omega
      have hknown : index.knownKeysKeyFor key = .legacyKnownKeys := if_pos hshards
      simp [execAll, RedisCommand.mem_exec, hknown]
  rw [removeCommands, List.cons_append, execAll_cons, execAll_append, execAll_cons,
    mem_execAll_srem, RedisCommand.mem_exec, hlegacy]
  simp only [and_assoc]

theorem mem_keyTags_remove :
    x ∈ execAll db (index.removeCommands key existingTags) (.keyTags k) ↔
      k ≠ key ∧ x ∈ db (.keyTags k) := by
  rw [mem_execAll_remove]
  simp [keyTags_ne_knownKeysKeyFor, and_comm]

theorem mem_tagKeys_remove :
    k ∈ execAll db (index.removeCommands key existingTags) (.tagKeys tag) ↔
      k ∈ db (.tagKeys tag) ∧ ¬ (k = key ∧ tag ∈ existingTags) := by
  rw [mem_execAll_remove]
  simp [tagKeys_ne_knownKeysKeyFor]

end RedisTagIndex

end LayerCache
