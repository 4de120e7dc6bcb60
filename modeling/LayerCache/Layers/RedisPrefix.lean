import LayerCache.Collections.Batches
import LayerCache.Layers.Serializer
import LayerCache.Matching.RedisGlob
import Mathlib.Data.Finset.Card

/-! # The keys under a prefix

A Redis layer finds its keys by scanning for its prefix followed by a star, and the tag index for
its prefix followed by a colon and a star. The server reads both as globs.
-/

namespace LayerCache

/-- The options of a Redis layer that decide which keys it takes for its own. Prefixes and keys are
texts, in the bytes that are sent for them. -/
structure RedisKeyspace where
  prefixBytes : Bytes
  allowUnprefixedClear : Bool

/-- What the pages of a scan have, taken together, in any order and any number of times: the keys
that match and are there until they are returned. -/
def Scanned (db : Finset Bytes) (pattern : Bytes) (pages : List (List Bytes)) : Prop :=
  ∀ key, key ∈ pages.flatten ↔ key ∈ db ∧ RedisGlob.isMatch pattern key = true

def BATCH_DELETE_SIZE : ℕ := 500

/-- `DEL` -/
def del (db : Finset Bytes) (keys : List Bytes) : Finset Bytes := db.filter (· ∉ keys)

namespace RedisKeyspace

variable (layer : RedisKeyspace)

def pattern : Bytes := layer.prefixBytes ++ [RedisGlob.star]

def assertBulkKeyOwnership (operation : String) : Except String Unit :=
  if layer.prefixBytes = [] ∧ layer.allowUnprefixedClear = false then
    .error ("RedisLayer." ++ operation ++
      "() requires a prefix or allowUnprefixedClear=true to avoid enumerating unrelated keys.")
  else .ok ()

def size (db : Finset Bytes) (pages : List (List Bytes)) : ℕ :=
  if layer.prefixBytes = [] then db.card else (pages.map List.length).sum

def clear (db : Finset Bytes) (pages : List (List Bytes)) : Except String (Finset Bytes) :=
  if layer.prefixBytes = [] ∧ layer.allowUnprefixedClear = false then
    .error ("RedisLayer.clear() requires a prefix or allowUnprefixedClear=true " ++
      "to avoid deleting unrelated keys.")
  else .ok (pages.foldl (fun db keys => (keys.batches BATCH_DELETE_SIZE).foldl del db) db)

def keys (pages : List (List Bytes)) : Except String (List Bytes) := do
  layer.assertBulkKeyOwnership "keys"
  return pages.flatten.map (·.drop layer.prefixBytes.length)

def forEachKey (pages : List (List Bytes)) : Except String (List Bytes) := do
  layer.assertBulkKeyOwnership "forEachKey"
  return pages.flatMap fun keys => keys.map (·.drop layer.prefixBytes.length)

end RedisKeyspace

/-- The keys of a Redis tag index start with its prefix and a colon. -/
structure RedisIndexKeyspace where
  prefixBytes : Bytes

namespace RedisIndexKeyspace

variable (index : RedisIndexKeyspace)

def start : Bytes := index.prefixBytes ++ utf8 ":"

def pattern : Bytes := index.start ++ [RedisGlob.star]

def scanIndexKeys (pages : List (List Bytes)) : List Bytes := pages.flatten

def clear (db : Finset Bytes) (pages : List (List Bytes)) : Finset Bytes :=
  let indexKeys := scanIndexKeys pages
  if indexKeys = [] then db else del db indexKeys

/-- Exactly the keys that start with the prefix and a colon are deleted. -/
def ClearsExactly (db : Finset Bytes) (pages : List (List Bytes)) : Prop :=
  ∀ key, key ∈ clear db pages ↔ key ∈ db ∧ ¬ index.start <+: key

end RedisIndexKeyspace

namespace RedisKeyspace

variable (layer : RedisKeyspace) (db : Finset Bytes) (pages : List (List Bytes))

/-- Exactly the keys that start with the prefix are deleted. -/
def ClearsExactly : Prop :=
  ∀ db', layer.clear db pages = .ok db' → ∀ key, key ∈ db' ↔ key ∈ db ∧ ¬ layer.prefixBytes <+: key

def SizesExactly : Prop := layer.size db pages = (db.filter (layer.prefixBytes <+: ·)).card

/-- What is left of exactly the keys that start with the prefix, each once. -/
def Lists (listed : Except String (List Bytes)) : Prop :=
  ∀ keys, listed = .ok keys → keys.Nodup ∧ ∀ key, key ∈ keys ↔ layer.prefixBytes ++ key ∈ db

structure Exact : Prop where
  clear : layer.ClearsExactly db pages
  size : layer.SizesExactly db pages
  keys : layer.Lists db (layer.keys pages)
  forEachKey : layer.Lists db (layer.forEachKey pages)

/-- The layer may take all keys that its prefix finds for its own. -/
def Owned : Prop := layer.prefixBytes = [] → layer.allowUnprefixedClear = true

end RedisKeyspace

variable {layer : RedisKeyspace} {db : Finset Bytes} {pages : List (List Bytes)}

theorem mem_del_iff {keys : List Bytes} {key : Bytes} :
    key ∈ del db keys ↔ key ∈ db ∧ key ∉ keys := by
  simp [del]

theorem foldl_del (lists : List (List Bytes)) (db : Finset Bytes) :
    lists.foldl del db = del db lists.flatten := by
  induction lists generalizing db with
  | nil => simp [del]
  | cons keys lists ih =>
    rw [List.foldl_cons, ih]
    ext key
    simp only [mem_del_iff, List.flatten_cons, List.mem_append, not_or, and_assoc]

namespace RedisKeyspace

theorem clear_of_owned (h : layer.Owned) (db : Finset Bytes) (pages : List (List Bytes)) :
    layer.clear db pages = .ok (del db pages.flatten) := by
  have hguard : ¬ (layer.prefixBytes = [] ∧ layer.allowUnprefixedClear = false) := by
    rintro ⟨hnil, hfalse⟩
    rw [h hnil] at hfalse
    cases hfalse
  rw [clear, if_neg hguard]
  congr 1
  have hpage : (fun (db : Finset Bytes) (keys : List Bytes) =>
      (keys.batches BATCH_DELETE_SIZE).foldl del db) = del := by
    funext db keys
    rw [foldl_del, List.flatten_batches (by decide)]
  rw [hpage, foldl_del]

theorem owned_of_clear {db' : Finset Bytes} (h : layer.clear db pages = .ok db') : layer.Owned := by
  intro hnil
  by_contra hallow
  rw [clear, if_pos ⟨hnil, Bool.not_eq_true _ ▸ hallow⟩] at h
  cases h

theorem assertBulkKeyOwnership_of_owned (h : layer.Owned) (operation : String) :
    layer.assertBulkKeyOwnership operation = .ok () := by
  apply if_neg
  rintro ⟨hnil, hfalse⟩
  rw [h hnil] at hfalse
  cases hfalse

theorem exists_error_of_not_owned (h : ¬ layer.Owned) (operation : String) :
    ∃ message, layer.assertBulkKeyOwnership operation = .error message := by
  obtain ⟨hnil, hallow⟩ := Classical.not_imp.mp h
  exact ⟨_, if_pos ⟨hnil, Bool.not_eq_true _ ▸ hallow⟩⟩

theorem keys_of_owned (h : layer.Owned) :
    layer.keys pages = .ok (pages.flatten.map (·.drop layer.prefixBytes.length)) := by
  rw [keys, assertBulkKeyOwnership_of_owned h]
  rfl

theorem forEachKey_of_owned (h : layer.Owned) :
    layer.forEachKey pages = .ok (pages.flatten.map (·.drop layer.prefixBytes.length)) := by
  rw [forEachKey, assertBulkKeyOwnership_of_owned h, List.map_flatten]
  rfl

/-- The keys that a scan has found are those that start with the prefix, if it is plain. -/
theorem mem_scanned_iff (hplain : RedisGlob.Plain layer.prefixBytes)
    (hscan : Scanned db layer.pattern pages) {key : Bytes} :
    key ∈ pages.flatten ↔ key ∈ db ∧ layer.prefixBytes <+: key := by
  rw [hscan key, pattern, RedisGlob.isMatch_prefix_of_plain hplain]

theorem clearsExactly (hplain : RedisGlob.Plain layer.prefixBytes)
    (hscan : Scanned db layer.pattern pages) : layer.ClearsExactly db pages := by
  intro db' hclear key
  rw [clear_of_owned (owned_of_clear hclear)] at hclear
  cases hclear
  rw [mem_del_iff, mem_scanned_iff hplain hscan, not_and]
  constructor
  · rintro ⟨hkey, hnot⟩
    exact ⟨hkey, hnot hkey⟩
  · rintro ⟨hkey, hnot⟩
    exact ⟨hkey, fun _ => hnot⟩

theorem sizesExactly_iff (hplain : RedisGlob.Plain layer.prefixBytes)
    (hscan : Scanned db layer.pattern pages) :
    layer.SizesExactly db pages ↔ layer.prefixBytes = [] ∨ pages.flatten.Nodup := by
  unfold SizesExactly size
  split
  · rename_i hnil
    simp [hnil]
  · rename_i hne
    have hfilter : db.filter (layer.prefixBytes <+: ·) = pages.flatten.toFinset := by
      ext key
      rw [List.mem_toFinset, mem_scanned_iff hplain hscan, Finset.mem_filter]
    rw [hfilter, ← List.length_flatten, List.card_toFinset]
    simp only [hne, false_or]
    constructor
    · intro hlength
      have hdedup := (List.dedup_sublist pages.flatten).eq_of_length hlength.symm
      exact hdedup ▸ List.nodup_dedup _
    · intro hnodup
      rw [hnodup.dedup]

theorem nodup_drop_iff {prefixBytes : Bytes} {keys : List Bytes}
    (hkeys : ∀ key ∈ keys, prefixBytes <+: key) :
    (keys.map (·.drop prefixBytes.length)).Nodup ↔ keys.Nodup := by
  constructor
  · exact List.Nodup.of_map _
  · intro hnodup
    apply hnodup.map_on
    intro a ha b hb heq
    obtain ⟨rest, rfl⟩ := hkeys a ha
    obtain ⟨rest', rfl⟩ := hkeys b hb
    rw [List.drop_left, List.drop_left] at heq
    rw [heq]

theorem lists_iff (hplain : RedisGlob.Plain layer.prefixBytes)
    (hscan : Scanned db layer.pattern pages) :
    layer.Lists db (.ok (pages.flatten.map (·.drop layer.prefixBytes.length))) ↔
      pages.flatten.Nodup := by
  have hprefix : ∀ key ∈ pages.flatten, layer.prefixBytes <+: key :=
    fun key hkey => ((mem_scanned_iff hplain hscan).mp hkey).2
  constructor
  · intro hlists
    exact (nodup_drop_iff hprefix).mp (hlists _ rfl).1
  · rintro hnodup keys ⟨⟩
    refine ⟨(nodup_drop_iff hprefix).mpr hnodup, fun key => ?_⟩
    rw [List.mem_map]
    constructor
    · rintro ⟨found, hfound, rfl⟩
      obtain ⟨hdb, rest, rfl⟩ := (mem_scanned_iff hplain hscan).mp hfound
      rwa [List.drop_left]
    · intro hkey
      exact ⟨_, (mem_scanned_iff hplain hscan).mpr ⟨hkey, List.prefix_append _ _⟩, List.drop_left⟩

theorem keys_lists_iff (howned : layer.Owned) (hplain : RedisGlob.Plain layer.prefixBytes)
    (hscan : Scanned db layer.pattern pages) :
    layer.Lists db (layer.keys pages) ↔ pages.flatten.Nodup := by
  rw [keys_of_owned howned, lists_iff hplain hscan]

theorem forEachKey_lists_iff (howned : layer.Owned) (hplain : RedisGlob.Plain layer.prefixBytes)
    (hscan : Scanned db layer.pattern pages) :
    layer.Lists db (layer.forEachKey pages) ↔ pages.flatten.Nodup := by
  rw [forEachKey_of_owned howned, lists_iff hplain hscan]

theorem lists_of_not_owned (h : ¬ layer.Owned) :
    layer.Lists db (layer.keys pages) ∧ layer.Lists db (layer.forEachKey pages) := by
  constructor
  · obtain ⟨message, hmessage⟩ := exists_error_of_not_owned h "keys"
    intro keys hkeys
    rw [RedisKeyspace.keys, hmessage] at hkeys
    cases hkeys
  · obtain ⟨message, hmessage⟩ := exists_error_of_not_owned h "forEachKey"
    intro keys hkeys
    rw [forEachKey, hmessage] at hkeys
    cases hkeys

theorem exact_of_plain (hplain : RedisGlob.Plain layer.prefixBytes)
    (hscan : Scanned db layer.pattern pages) (hnodup : pages.flatten.Nodup) :
    layer.Exact db pages where
  clear := clearsExactly hplain hscan
  size := (sizesExactly_iff hplain hscan).mpr (.inr hnodup)
  keys := by
    by_cases howned : layer.Owned
    · exact (keys_lists_iff howned hplain hscan).mpr hnodup
    · exact (lists_of_not_owned howned).1
  forEachKey := by
    by_cases howned : layer.Owned
    · exact (forEachKey_lists_iff howned hplain hscan).mpr hnodup
    · exact (lists_of_not_owned howned).2

end RedisKeyspace

def scanOne (pattern key : Bytes) : List (List Bytes) :=
  if RedisGlob.isMatch pattern key = true then [[key]] else []

theorem scanned_scanOne (pattern key : Bytes) : Scanned {key} pattern (scanOne pattern key) := by
  intro k
  unfold scanOne
  split
  · rename_i hmatch
    simp only [List.flatten_cons, List.flatten_nil, List.append_nil, List.mem_singleton,
      Finset.mem_singleton]
    constructor
    · rintro rfl
      exact ⟨rfl, hmatch⟩
    · rintro ⟨rfl, -⟩
      rfl
  · rename_i hmatch
    simp only [List.flatten_nil, List.not_mem_nil, Finset.mem_singleton, false_iff]
    rintro ⟨rfl, hk⟩
    exact hmatch hk

theorem nodup_scanOne (pattern key : Bytes) : (scanOne pattern key).flatten.Nodup := by
  unfold scanOne
  split <;> simp

/-- What a scan for a prefix with special symbols finds is not just what starts with the prefix. -/
theorem exists_scan {prefixBytes : Bytes} (h : ¬ RedisGlob.Plain prefixBytes) :
    ∃ db pages, Scanned db (prefixBytes ++ [RedisGlob.star]) pages ∧ pages.flatten.Nodup ∧
      ∃ key ∈ db, ¬ (key ∈ pages.flatten ↔ prefixBytes <+: key) := by
  obtain ⟨key, hkey⟩ := RedisGlob.exists_mismatch h
  refine ⟨{key}, scanOne _ key, scanned_scanOne _ key, nodup_scanOne _ key, key,
    Finset.mem_singleton_self _, ?_⟩
  rw [scanned_scanOne]
  simpa using hkey

theorem RedisKeyspace.exact_iff :
    (∀ db pages, Scanned db layer.pattern pages → pages.flatten.Nodup → layer.Exact db pages) ↔
      RedisGlob.Plain layer.prefixBytes := by
  constructor
  · intro hexact
    by_contra hplain
    obtain ⟨db, pages, hscan, hnodup, key, hkey, hdiffers⟩ := exists_scan hplain
    have howned : layer.Owned := by
      intro hnil
      rw [hnil] at hplain
      exact absurd (fun c hc => nomatch hc) hplain
    have hcleared := (hexact db pages hscan hnodup).clear _ (clear_of_owned howned db pages) key
    rw [mem_del_iff] at hcleared
    apply hdiffers
    tauto
  · exact fun hplain db pages => exact_of_plain hplain

theorem RedisIndexKeyspace.plain_start_iff {index : RedisIndexKeyspace} :
    RedisGlob.Plain index.start ↔ RedisGlob.Plain index.prefixBytes := by
  have hutf8 : utf8 ":" = [58] := by decide +kernel
  unfold start RedisGlob.Plain
  rw [hutf8, List.forall_mem_append]
  simp [RedisGlob.special, RedisGlob.star, RedisGlob.question, RedisGlob.opening,
    RedisGlob.backslash]

theorem RedisIndexKeyspace.clear_eq_del (db : Finset Bytes) (pages : List (List Bytes)) :
    clear db pages = del db pages.flatten := by
  unfold clear scanIndexKeys
  simp only
  split
  · rename_i hnil
    simp [hnil, del]
  · rfl

theorem RedisIndexKeyspace.clearsExactly_iff {index : RedisIndexKeyspace} :
    (∀ db pages, Scanned db index.pattern pages → index.ClearsExactly db pages) ↔
      RedisGlob.Plain index.prefixBytes := by
  rw [← plain_start_iff]
  constructor
  · intro hexact
    by_contra hplain
    obtain ⟨db, pages, hscan, -, key, hkey, hdiffers⟩ := exists_scan hplain
    have hcleared := hexact db pages hscan key
    rw [clear_eq_del, mem_del_iff] at hcleared
    apply hdiffers
    tauto
  · intro hplain db pages hscan key
    rw [clear_eq_del, mem_del_iff, hscan key, pattern, RedisGlob.isMatch_prefix_of_plain hplain]
    tauto

/-- Prefixes are exact if they are plain, and lists of keys if the scan returns none of them
twice. -/
theorem prefix_exact_iff (layer : RedisKeyspace) (index : RedisIndexKeyspace) :
    ((∀ db pages, Scanned db layer.pattern pages → pages.flatten.Nodup → layer.Exact db pages) ↔
      RedisGlob.Plain layer.prefixBytes) ∧
    (RedisGlob.Plain layer.prefixBytes → ∀ db pages, Scanned db layer.pattern pages →
      layer.ClearsExactly db pages ∧
      (layer.SizesExactly db pages ↔ layer.prefixBytes = [] ∨ pages.flatten.Nodup) ∧
      (layer.Owned → (layer.Lists db (layer.keys pages) ↔ pages.flatten.Nodup) ∧
        (layer.Lists db (layer.forEachKey pages) ↔ pages.flatten.Nodup))) ∧
    ((∀ db pages, Scanned db index.pattern pages → index.ClearsExactly db pages) ↔
      RedisGlob.Plain index.prefixBytes) := by
  refine ⟨RedisKeyspace.exact_iff, fun hplain db pages hscan => ?_,
    RedisIndexKeyspace.clearsExactly_iff⟩
  refine ⟨RedisKeyspace.clearsExactly hplain hscan, RedisKeyspace.sizesExactly_iff hplain hscan,
    fun howned => ?_⟩
  exact ⟨RedisKeyspace.keys_lists_iff howned hplain hscan,
    RedisKeyspace.forEachKey_lists_iff howned hplain hscan⟩

/-- The layer of one version clears the key of another. -/
theorem not_prefix_exact :
    Scanned {utf8 "v1:a"} (RedisKeyspace.mk (utf8 "v?:") false).pattern [[utf8 "v1:a"]] ∧
      ¬ (RedisKeyspace.mk (utf8 "v?:") false).Exact {utf8 "v1:a"} [[utf8 "v1:a"]] := by
  constructor
  · have hscan : scanOne (RedisKeyspace.mk (utf8 "v?:") false).pattern (utf8 "v1:a") =
        [[utf8 "v1:a"]] := by
      decide +kernel
    exact hscan ▸ scanned_scanOne _ _
  · intro hexact
    have hcleared := (hexact.clear ∅ (by decide +kernel) (utf8 "v1:a")).mpr (by decide +kernel)
    exact absurd hcleared (Finset.notMem_empty _)

end LayerCache
