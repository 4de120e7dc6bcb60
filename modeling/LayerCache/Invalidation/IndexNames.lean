import LayerCache.Invalidation.RedisTagIndex
import LayerCache.Layers.RedisPrefix

/-! # The names of the sets of a tag index

All sets of an index have the prefix of the index in front. The index clears the sets whose names
the server finds for its prefix.
-/

namespace LayerCache

/-- The bytes that `encodeURIComponent` leaves as they are. -/
def unreserved (b : UInt8) : Bool :=
  48 ≤ b && b ≤ 57 || 65 ≤ b && b ≤ 90 || 97 ≤ b && b ≤ 122 ||
    b ∈ [45, 95, 46, 33, 126, 42, 39, 40, 41]

def hexDigit (n : UInt8) : UInt8 := if n < 10 then 48 + n else 55 + n

def encodeByte (b : UInt8) : Bytes :=
  if unreserved b then [b] else [37, hexDigit (b / 16), hexDigit (b % 16)]

def encodeURIComponent (text : String) : Bytes := (utf8 text).flatMap encodeByte

structure PrefixedTagIndex extends RedisTagIndex, RedisIndexKeyspace

namespace PrefixedTagIndex

variable (index : PrefixedTagIndex)

def name : IndexKey → Bytes
  | .legacyKnownKeys => index.start ++ utf8 "keys"
  | .knownKeys shard => index.start ++ (utf8 "keys:" ++ utf8 (Nat.repr shard))
  | .keyTags key => index.start ++ (utf8 "key:" ++ encodeURIComponent key)
  | .tagKeys tag => index.start ++ (utf8 "tag:" ++ encodeURIComponent tag)

/-- The sets are deleted whose names match the prefix, a colon and a star. -/
def clear (db : RedisSets) : RedisSets := fun set =>
  if RedisGlob.isMatch index.pattern (index.name set) then [] else db set

end PrefixedTagIndex

theorem encodeByte_ne_nil (b : UInt8) : encodeByte b ≠ [] := by
  unfold encodeByte
  split <;> simp

namespace PrefixedTagIndex

variable {index : PrefixedTagIndex} {db : RedisSets} {set : IndexKey}

theorem start_prefix_name (set : IndexKey) : index.start <+: index.name set := by
  cases set <;> exact List.prefix_append _ _

/-- The pattern matches the names of all sets that have members. -/
def FindsAll (index : PrefixedTagIndex) (db : RedisSets) : Prop :=
  ∀ set, db set ≠ [] → RedisGlob.isMatch index.pattern (index.name set) = true

theorem findsAll_iff : index.FindsAll db ↔ index.clear db = fun _ => [] := by
  constructor
  · intro h
    funext set
    by_cases hset : db set = []
    · simp [clear, hset]
    · exact if_pos (h set hset)
  · intro h set hset
    by_contra hmatch
    have hclear : index.clear db set = db set := if_neg hmatch
    rw [h] at hclear
    exact hset hclear.symm

theorem findsAll_of_plain (h : RedisGlob.Plain index.prefixBytes) (db : RedisSets) :
    index.FindsAll db := by
  rw [← RedisIndexKeyspace.plain_start_iff] at h
  exact fun set _ => (RedisGlob.isMatch_prefix_of_plain h _).mpr (start_prefix_name set)

end PrefixedTagIndex

end LayerCache
