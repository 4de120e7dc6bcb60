import LayerCache.Collections.Batches
import LayerCache.Invalidation.Discovery
import LayerCache.Invalidation.IndexAgreement
import LayerCache.Keys.Validation
import LayerCache.Layers.Redis
import Mathlib.Data.Finset.Max

/-! # Invalidating a tag from the command line

The library deletes the entries of a tag through the Redis layer, which puts its prefix before each
key, and takes the keys out of the index. The command line sends `DEL` for the keys as the index
has them.
-/

namespace LayerCache.CliTag

/-- The names under which cache entries are stored, and the sets of a tag index. -/
structure Server where
  entries : Finset Bytes
  sets : RedisSets

/-- `DEL` -/
def Server.del (index : PrefixedTagIndex) (s : Server) (names : List Bytes) : Server where
  entries := LayerCache.del s.entries names
  sets := fun set => if names.contains (index.name set) then [] else s.sets set

/-- A stack with a Redis layer. `skipsLayer` is true while the layer counts as degraded. -/
structure RedisStack where
  index : PrefixedTagIndex
  prefixBytes : Bytes
  invalidationMaxKeys : Option ℚ
  invalidationMaxKeys_pos : ∀ m ∈ invalidationMaxKeys, 0 < m
  gracefulDegradation : Bool
  skipsLayer : Bool

inductive Failure
  | invalid (message : String)
  | limit (error : LimitError)
  | layer (message : String)

namespace RedisStack

variable (stack : RedisStack)

def withPrefix (key : String) : Bytes := stack.prefixBytes ++ utf8 key

/-- `pages` are what `SSCAN` returns of the set of the tag. -/
def collectKeysForTag (pages : List (List String)) : Except LimitError (List String) :=
  collectMatches stack.invalidationMaxKeys [] pages.flatten

def deleteMany (s : Server) (keys : List String) : Except String Server := do
  keys.forM RedisLayer.validateKey
  return s.del stack.index (keys.map stack.withPrefix)

def deleteKeysFromLayers (s : Server) (keys : List String) : Except String Server :=
  if stack.skipsLayer then .ok s
  else
    match stack.deleteMany s keys with
    | .ok s => .ok s
    | .error e => if stack.gracefulDegradation then .ok s else .error e

def deleteKeys (s : Server) (keys : List String) : Except Failure Unit × Server :=
  if keys = [] then (.ok (), s)
  else
    match stack.deleteKeysFromLayers s keys with
    | .error e => (.error (.layer e), s)
    | .ok s => (.ok (), { s with sets := keys.foldl stack.index.remove s.sets })

def invalidateByTag (s : Server) (tag : String) (pages : List (List String)) :
    Except Failure Unit × Server :=
  match validateTag tag with
  | .error e => (.error (.invalid e), s)
  | .ok () =>
    match stack.collectKeysForTag pages with
    | .error e => (.error (.limit e), s)
    | .ok keys => stack.deleteKeys s keys

end RedisStack

def batchDelete (index : PrefixedTagIndex) (s : Server) (keys : List String) : Server :=
  (keys.batches BATCH_DELETE_SIZE).foldl (fun s batch => s.del index (batch.map utf8)) s

/-- `invalidate --tag`, with the number of keys that it reports. Nothing is deleted for an empty tag
either, unless `--force` is given too. -/
def invalidate (index : PrefixedTagIndex) (s : Server) (tag : String) : Option ℕ × Server :=
  match validateTag tag with
  | .error _ => (none, s)
  | .ok () =>
    let keys := RedisTagIndex.keysForTag s.sets tag
    (some keys.length, if keys.length > 0 then batchDelete index s keys else s)

def Same (s s' : Server) : Prop :=
  s.entries = s'.entries ∧ ∀ set x, x ∈ s.sets set ↔ x ∈ s'.sets set

/-- The library, whatever the pages are in which the set of the tag is scanned, and the command line
delete the same. -/
def Agrees (stack : RedisStack) (s : Server) (tag : String) : Prop :=
  ∀ pages : List (List String), (∀ key, key ∈ pages.flatten ↔ key ∈ s.sets (.tagKeys tag)) →
    Same (stack.invalidateByTag s tag pages).2 (invalidate stack.index s tag).2

/-- What operations on the index leave, one after the other. A clear is one that finds all sets. -/
inductive Written (index : PrefixedTagIndex) : RedisSets → Prop
  | empty : Written index fun _ => []
  | touch {db : RedisSets} (h : Written index db) (key : String) :
      Written index (index.touch db key)
  | track {db : RedisSets} (h : Written index db) (key : String) (tags : List String) :
      Written index (index.track db key tags)
  | remove {db : RedisSets} (h : Written index db) (key : String) :
      Written index (index.remove db key)
  | clear {db : RedisSets} (h : Written index db) (hall : index.FindsAll db) :
      Written index (index.clear db)

/-- A server whose sets the operations of an index have left. -/
structure WrittenServer (index : PrefixedTagIndex) extends Server where
  written : Written index sets

/-- The library fails before it deletes anything: there are too many keys, or the layer does not
take one of them. -/
def Refuses (stack : RedisStack) (s : Server) (tag : String) : Prop :=
  ¬ Within stack.invalidationMaxKeys (s.sets (.tagKeys tag)).toFinset.card ∨
    stack.skipsLayer = false ∧ stack.gracefulDegradation = false ∧
      ∃ key ∈ s.sets (.tagKeys tag), ∀ u, RedisLayer.validateKey key ≠ .ok u

/-- Nothing is stored under the names that the command line deletes. -/
def Absent (index : PrefixedTagIndex) (s : Server) (tag : String) : Prop :=
  ∀ key ∈ s.sets (.tagKeys tag), utf8 key ∉ s.entries ∧
    ∀ set, index.name set = utf8 key → s.sets set = []

/-- The tag is not valid, or no key has it, or the library fails and the command line finds nothing
to delete. -/
def Meets (stack : RedisStack) (s : Server) (tag : String) : Prop :=
  (∀ u, validateTag tag ≠ .ok u) ∨ s.sets (.tagKeys tag) = [] ∨
    Refuses stack s tag ∧ Absent stack.index s tag

variable {index : PrefixedTagIndex} {db : RedisSets} {key k tag x : String} {keys : List String}

theorem Written.consistent (h : Written index db) (hkey : key ∈ db (.tagKeys tag)) :
    tag ∈ db (.keyTags key) := by
  induction h with
  | empty => cases hkey
  | touch _ k ih =>
    rw [Indexes.mem_touch] at hkey ⊢
    rcases hkey with hkey | ⟨heq, -⟩
    · exact .inl (ih hkey)
    · exact absurd heq RedisTagIndex.tagKeys_ne_knownKeysKeyFor
  | track _ k tags ih =>
    rw [RedisTagIndex.track, RedisTagIndex.mem_tagKeys_track] at hkey
    rw [RedisTagIndex.track, RedisTagIndex.mem_keyTags_track]
    by_cases heq : key = k
    · subst heq
      rw [if_pos rfl] at hkey ⊢
      rcases hkey with hkey | ⟨hkey, hnot⟩
      · exact hkey
      · exact absurd (ih hkey) hnot
    · rw [if_neg heq] at hkey ⊢
      exact ih hkey
  | remove _ k ih =>
    rw [RedisTagIndex.remove, RedisTagIndex.mem_tagKeys_remove] at hkey
    rw [RedisTagIndex.remove, RedisTagIndex.mem_keyTags_remove]
    obtain ⟨hkey, hnot⟩ := hkey
    refine ⟨?_, ih hkey⟩
    rintro rfl
    exact hnot ⟨rfl, ih hkey⟩
  | clear _ hall =>
    rw [PrefixedTagIndex.findsAll_iff.mp hall] at hkey
    cases hkey

theorem mem_keyTags_foldl_remove :
    x ∈ keys.foldl index.remove db (.keyTags k) ↔ k ∉ keys ∧ x ∈ db (.keyTags k) := by
  induction keys generalizing db with
  | nil => simp
  | cons key keys ih =>
    rw [List.foldl_cons, ih, RedisTagIndex.remove, RedisTagIndex.mem_keyTags_remove, List.mem_cons,
      not_or, and_left_comm, and_assoc]

theorem length_flatMap_encodeByte (bytes : Bytes) :
    bytes.length ≤ (bytes.flatMap encodeByte).length := by
  induction bytes with
  | nil => exact Nat.zero_le _
  | cons b bytes ih =>
    have hpos : 0 < (encodeByte b).length := List.length_pos_iff.mpr (encodeByte_ne_nil b)
    rw [List.flatMap_cons, List.length_append, List.length_cons]
    omega

/-- The name of the tags of a key is longer than the key. -/
theorem length_lt_name_keyTags (index : PrefixedTagIndex) (key : String) :
    (utf8 key).length < (index.name (.keyTags key)).length := by
  have hkey : (utf8 "key:").length = 4 := by decide +kernel
  have hencoded := length_flatMap_encodeByte (utf8 key)
  rw [PrefixedTagIndex.name, List.length_append, List.length_append, hkey, encodeURIComponent]
  omega

theorem exists_kept (index : PrefixedTagIndex) (hne : keys ≠ []) :
    ∃ key ∈ keys, index.name (.keyTags key) ∉ keys.map utf8 := by
  obtain ⟨key, hkey, hlongest⟩ := keys.toFinset.exists_max_image (fun key => (utf8 key).length)
    (List.toFinset_nonempty_iff keys |>.mpr hne)
  refine ⟨key, List.mem_toFinset.mp hkey, ?_⟩
  intro hmem
  obtain ⟨k, hk, hname⟩ := List.mem_map.mp hmem
  have hle := hlongest k (List.mem_toFinset.mpr hk)
  have hlt := length_lt_name_keyTags index key
  rw [← hname] at hlt
  exact absurd hlt (not_lt.mpr hle)

variable {s : Server} {stack : RedisStack} {pages : List (List String)}

theorem Server.del_nil (s : Server) : s.del index [] = s := by
  simp [Server.del, LayerCache.del]

theorem Server.del_del (s : Server) (names names' : List Bytes) :
    (s.del index names).del index names' = s.del index (names ++ names') := by
  simp only [Server.del, Server.mk.injEq]
  constructor
  · ext name
    simp only [mem_del_iff, List.mem_append, not_or, and_assoc]
  · funext set
    by_cases h : index.name set ∈ names <;> by_cases h' : index.name set ∈ names' <;>
      simp [h, h']

theorem Server.mem_entries_del {names : List Bytes} {name : Bytes} :
    name ∈ (s.del index names).entries ↔ name ∈ s.entries ∧ name ∉ names := mem_del_iff

theorem Server.mem_sets_del {names : List Bytes} {set : IndexKey} :
    x ∈ (s.del index names).sets set ↔ x ∈ s.sets set ∧ index.name set ∉ names := by
  rw [Server.del]
  by_cases h : index.name set ∈ names <;> simp [h]

theorem foldl_batch (batches : List (List String)) (s : Server) :
    batches.foldl (fun s batch => s.del index (batch.map utf8)) s =
      s.del index (batches.flatten.map utf8) := by
  induction batches generalizing s with
  | nil => exact (Server.del_nil s).symm
  | cons batch batches ih =>
    rw [List.foldl_cons, ih, Server.del_del, List.flatten_cons, List.map_append]

/-- The command line deletes the keys as the index has them. -/
theorem invalidate_of_valid (hvalid : validateTag tag = .ok ()) :
    (invalidate index s tag).2 = s.del index ((s.sets (.tagKeys tag)).map utf8) := by
  rw [invalidate, hvalid]
  change (if 0 < (s.sets (.tagKeys tag)).length then batchDelete index s (s.sets (.tagKeys tag))
    else s) = _
  split
  · rw [batchDelete, foldl_batch, List.flatten_batches (by decide)]
  · next hnone =>
    rw [List.length_pos_iff, not_not] at hnone
    rw [hnone, List.map_nil, Server.del_nil]

theorem collected_collectKeysForTag (stack : RedisStack)
    (hscan : ∀ key, key ∈ pages.flatten ↔ key ∈ s.sets (.tagKeys tag)) :
    Collected stack.invalidationMaxKeys (s.sets (.tagKeys tag)).toFinset
      (stack.collectKeysForTag pages) := by
  have hkeys : ∀ key ∈ pages.flatten, key ∈ (s.sets (.tagKeys tag)).toFinset :=
    fun key hkey => List.mem_toFinset.mpr ((hscan key).mp hkey)
  have hstart : Search.Sound (fun _ (_ : Unit) => True) stack.invalidationMaxKeys
      (s.sets (.tagKeys tag)).toFinset ⟨[], ()⟩ :=
    ⟨List.nodup_nil, fun _ h => (nomatch h), within_zero stack.invalidationMaxKeys_pos, trivial⟩
  have hspec := collectMatches_spec hstart hkeys
  rw [RedisStack.collectKeysForTag]
  split at hspec
  · next found hfound =>
    rw [hfound]
    apply hspec.1.collected
    intro key hkey
    exact (hspec.2 key).mpr (.inr ((hscan key).mpr (List.mem_toFinset.mp hkey)))
  · next error herror =>
    rw [herror]
    exact hspec

theorem same_del_iff :
    Same s (s.del stack.index ((s.sets (.tagKeys tag)).map utf8)) ↔ Absent stack.index s tag := by
  constructor
  · rintro ⟨hentries, hsets⟩ key hkey
    have hname : utf8 key ∈ (s.sets (.tagKeys tag)).map utf8 := List.mem_map_of_mem hkey
    constructor
    · intro hmem
      rw [hentries, Server.mem_entries_del] at hmem
      exact hmem.2 hname
    · intro set heq
      apply List.eq_nil_iff_forall_not_mem.mpr
      intro x hx
      rw [hsets, Server.mem_sets_del, heq] at hx
      exact hx.2 hname
  · intro habsent
    constructor
    · ext name
      rw [Server.mem_entries_del, iff_self_and]
      intro hmem hname
      obtain ⟨key, hkey, rfl⟩ := List.mem_map.mp hname
      exact (habsent key hkey).1 hmem
    · intro set x
      rw [Server.mem_sets_del, iff_self_and]
      intro hx hname
      obtain ⟨key, hkey, heq⟩ := List.mem_map.mp hname
      rw [(habsent key hkey).2 set heq.symm] at hx
      cases hx

theorem forM_validateKey_iff :
    (∃ e, keys.forM RedisLayer.validateKey = .error e) ↔
      ∃ key ∈ keys, ∀ u, RedisLayer.validateKey key ≠ .ok u := by
  induction keys with
  | nil =>
    constructor
    · rintro ⟨e, h⟩
      cases h
    · rintro ⟨key, hkey, -⟩
      cases hkey
  | cons key keys ih =>
    change (∃ e, (RedisLayer.validateKey key >>= fun _ => keys.forM RedisLayer.validateKey) =
      .error e) ↔ _
    rw [List.exists_mem_cons_iff, ← ih]
    cases hkey : RedisLayer.validateKey key with
    | error e => exact iff_of_true ⟨e, rfl⟩ (.inl fun _ h => nomatch h)
    | ok u => exact (or_iff_right fun h => h u rfl).symm

theorem deleteMany_eq (s : Server) (keys : List String) :
    stack.deleteMany s keys = (keys.forM RedisLayer.validateKey).map fun _ =>
      s.del stack.index (keys.map stack.withPrefix) := by
  rw [RedisStack.deleteMany]
  cases keys.forM RedisLayer.validateKey <;> rfl

theorem deleteKeysFromLayers_error_iff :
    (∃ e, stack.deleteKeysFromLayers s keys = .error e) ↔
      stack.skipsLayer = false ∧ stack.gracefulDegradation = false ∧
        ∃ key ∈ keys, ∀ u, RedisLayer.validateKey key ≠ .ok u := by
  rw [← forM_validateKey_iff, RedisStack.deleteKeysFromLayers, deleteMany_eq]
  cases stack.skipsLayer <;> cases stack.gracefulDegradation <;>
    cases keys.forM RedisLayer.validateKey <;> simp [Except.map]

theorem invalidateByTag_cases (hvalid : validateTag tag = .ok ())
    (hscan : ∀ key, key ∈ pages.flatten ↔ key ∈ s.sets (.tagKeys tag)) :
    Refuses stack s tag ∧ (stack.invalidateByTag s tag pages).2 = s ∨
      ¬ Refuses stack s tag ∧ ∃ (keys : List String) (db : RedisSets),
        (∀ key, key ∈ keys ↔ key ∈ s.sets (.tagKeys tag)) ∧
          (stack.invalidateByTag s tag pages).2.sets = keys.foldl stack.index.remove db := by
  have hcollected := collected_collectKeysForTag stack hscan
  rw [RedisStack.invalidateByTag, hvalid]
  cases hkeys : stack.collectKeysForTag pages with
  | error e =>
    rw [hkeys] at hcollected
    exact .inl ⟨.inl hcollected, rfl⟩
  | ok keys =>
    rw [hkeys] at hcollected
    obtain ⟨-, hmem, hwithin⟩ := hcollected
    have hmem : ∀ key, key ∈ keys ↔ key ∈ s.sets (.tagKeys tag) :=
      fun key => (hmem key).trans List.mem_toFinset
    have hrefuses : Refuses stack s tag ↔ ∃ e, stack.deleteKeysFromLayers s keys = .error e := by
      rw [Refuses, or_iff_right (not_not.mpr hwithin), deleteKeysFromLayers_error_iff]
      simp only [hmem]
    rw [hrefuses]
    simp only [RedisStack.deleteKeys]
    by_cases hnil : keys = []
    · subst hnil
      refine .inr ⟨?_, [], s.sets, hmem, rfl⟩
      rw [deleteKeysFromLayers_error_iff]
      rintro ⟨-, -, key, hkey, -⟩
      cases hkey
    · rw [if_neg hnil]
      cases stack.deleteKeysFromLayers s keys with
      | error e => exact .inl ⟨⟨e, rfl⟩, rfl⟩
      | ok s' =>
        refine .inr ⟨?_, keys, s'.sets, hmem, rfl⟩
        rintro ⟨e, h⟩
        cases h

theorem invalidateByTag_of_empty (hvalid : validateTag tag = .ok ())
    (hempty : pages.flatten = []) :
    (stack.invalidateByTag s tag pages).2 = s := by
  rw [RedisStack.invalidateByTag, hvalid, RedisStack.collectKeysForTag, hempty]
  rfl

theorem Same.refl (s : Server) : Same s s := ⟨rfl, fun _ _ => .rfl⟩

/-- Whatever the library does to the sets, the command line leaves the tags of the longest key. -/
theorem agrees_iff_of_consistent
    (hconsistent : ∀ key ∈ s.sets (.tagKeys tag), tag ∈ s.sets (.keyTags key)) :
    Agrees stack s tag ↔ Meets stack s tag := by
  cases hvalid : validateTag tag with
  | error e =>
    refine iff_of_true ?_ (.inl fun u h => nomatch hvalid.symm.trans h)
    intro pages _
    rw [RedisStack.invalidateByTag, invalidate, hvalid]
    exact Same.refl s
  | ok u =>
    rw [Meets, or_iff_right fun h => h u hvalid]
    by_cases hempty : s.sets (.tagKeys tag) = []
    · refine iff_of_true ?_ (.inl hempty)
      intro pages hscan
      have hpages : pages.flatten = [] := by
        apply List.eq_nil_iff_forall_not_mem.mpr
        intro key hkey
        rw [hscan, hempty] at hkey
        cases hkey
      rw [invalidateByTag_of_empty hvalid hpages, invalidate_of_valid hvalid, hempty, List.map_nil,
        Server.del_nil]
      exact Same.refl s
    · rw [or_iff_right hempty]
      constructor
      · intro hagrees
        have hscan : ∀ key, key ∈ [s.sets (.tagKeys tag)].flatten ↔ key ∈ s.sets (.tagKeys tag) :=
          fun key => by rw [List.flatten_singleton]
        have hsame := hagrees _ hscan
        rw [invalidate_of_valid hvalid] at hsame
        rcases invalidateByTag_cases hvalid hscan with
          ⟨hrefuses, hkept⟩ | ⟨-, keys, db, hkeys, hsets⟩
        · rw [hkept] at hsame
          exact ⟨hrefuses, same_del_iff.mp hsame⟩
        · exfalso
          obtain ⟨key, hkey, hname⟩ := exists_kept stack.index hempty
          have htag := (hsame.2 (.keyTags key) tag).mpr
            (Server.mem_sets_del.mpr ⟨hconsistent key hkey, hname⟩)
          rw [hsets, mem_keyTags_foldl_remove] at htag
          exact htag.1 ((hkeys key).mpr hkey)
      · rintro ⟨hrefuses, habsent⟩ pages hscan
        rcases invalidateByTag_cases hvalid hscan with ⟨-, hkept⟩ | ⟨hnot, -⟩
        · rw [hkept, invalidate_of_valid hvalid]
          exact same_del_iff.mpr habsent
        · exact absurd hrefuses hnot

/-- The command line agrees with the library exactly where neither has anything to delete. -/
theorem agrees_iff_meets (stack : RedisStack) (s : WrittenServer stack.index) (tag : String) :
    Agrees stack s.toServer tag ↔ Meets stack s.toServer tag :=
  agrees_iff_of_consistent fun _ => s.written.consistent

def appStack : RedisStack where
  index := Indexes.defaultIndex
  prefixBytes := utf8 "app:"
  invalidationMaxKeys := some 10000
  invalidationMaxKeys_pos := fun m h => Option.some.inj h ▸ by decide
  gracefulDegradation := false
  skipsLayer := false

def oneTagged : WrittenServer Indexes.defaultIndex where
  entries := {utf8 "app:user:1"}
  sets := Indexes.defaultIndex.track (fun _ => []) "user:1" ["t"]
  written := .track .empty "user:1" ["t"]

/-- The command line does not delete the entry, whose name has the prefix of the layer. -/
theorem oneTagged_not_agrees : ¬ Agrees appStack oneTagged.toServer "t" := by
  intro h
  have hset : oneTagged.sets (.tagKeys "t") = ["user:1"] := by decide +kernel
  have hentries := (h [["user:1"]] fun key => by rw [hset, List.flatten_singleton]).1
  revert hentries
  decide +kernel

end LayerCache.CliTag
