import LayerCache.Layers.Redis
import LayerCache.Layers.KeyBinding

/-! # What the persistent layers give back

A layer writes values of any size, and a read gives back exactly those that are within
its limits. Every other value is taken for corrupted and removed by the first read.
-/

namespace LayerCache

open Json

inductive PersistentLayer (T : Type)
  | redis (layer : RedisLayer) (platform : RedisPlatform T)
  | disk (layer : DiskLayer) (platform : DiskPlatform T)

/-- What a layer holds for a key: a Redis entry or the content of a file. -/
inductive StoredEntry (T : Type)
  | redis (entry : RedisEntry T)
  | file (raw : Bytes)

namespace PersistentLayer
variable {T : Type} [LinearOrder T]

/-- What a `set` that goes through leaves under the key. -/
def set [Zero T] [Add T] (layer : PersistentLayer T) (key : String) (value : Value)
    (ttl : Option T) (now : T) (iv : Iv) : Except String (StoredEntry T) :=
  match layer with
  | .redis layer platform => (layer.set platform key value ttl now).map .redis
  | .disk layer platform => .ok (.file (layer.file platform ⟨key, value, deadline now ttl⟩ iv))

/-- Reads a key: the value if there is one to return, and what the layer holds afterwards. -/
def getEntry (layer : PersistentLayer T) (key : String) (stored : StoredEntry T) (now : T) :
    Except String (Option Value × Option (StoredEntry T)) :=
  match layer, stored with
  | .redis layer platform, .redis entry => do
    RedisLayer.validateKey key
    let (value, entry) := layer.getEntry platform (some entry) now
    return (value, entry.map .redis)
  | .disk layer platform, .file raw =>
    let (value, file) := layer.getEntry platform (some raw) now
    .ok (value, file.map .file)
  | _, _ => .ok (none, none)

/-- The value under the key is within the limits of a read. -/
def Reads [Zero T] [Add T] (layer : PersistentLayer T) (key : String) (value : Value)
    (ttl : Option T) (now : T) : Prop :=
  match layer with
  | .redis layer platform => layer.Reads platform value
  | .disk layer platform => layer.Reads platform ⟨key, value, deadline now ttl⟩

variable [Zero T] [Add T]

/-- A live value comes back, and stays, exactly if it is within the limits of a read. -/
theorem getEntry_set_iff (layer : PersistentLayer T) (key : String) (value : Value)
    (ttl : Option T) (now later : T) (iv : Iv) (stored : StoredEntry T)
    (hwf : WellFormed value) (hplain : strip value = value)
    (hset : layer.set key value ttl now iv = .ok stored)
    (hlive : ∀ t ∈ deadline now ttl, later < t) :
    layer.getEntry key stored later = .ok (some value, some stored) ↔
      layer.Reads key value ttl now := by
  cases layer with
  | disk layer platform =>
    cases hset
    simp only [getEntry, Reads]
    constructor
    · intro hget
      by_contra hn
      have hnone := @getEntry_of_not_reads T layer platform
        ⟨key, value, deadline now ttl⟩ _ iv later
        hwf fun h => hn h.1
      rw [hnone] at hget
      cases hget
    · intro hreads
      have hsome := getEntry_of_reads iv hwf hreads hlive
      rw [hsome, hplain]
      rfl
  | redis layer platform =>
    simp only [set, RedisLayer.set] at hset
    cases hkey : RedisLayer.validateKey key with
    | error e => rw [hkey] at hset; cases hset
    | ok =>
      rw [hkey] at hset
      by_cases hpx : ∀ t ∈ ttl, 0 < t → platform.acceptsPx t = true
      · simp only [Except.bind_ok, if_pos hpx] at hset
        cases hset
        simp only [getEntry, Reads, hkey, Except.bind_ok, RedisLayer.getEntry, Option.filter_some]
        rw [if_pos (by simpa using hlive)]
        constructor
        · intro hget
          by_contra hn
          simp only [deserializeOrDelete_of_not_reads hwf hn] at hget
          cases hget
        · intro hreads
          simp only [deserializeOrDelete_encodePayload hwf hreads, hplain]
          rfl
      · simp only [Except.bind_ok, if_neg hpx] at hset
        cases hset

end PersistentLayer

def RedisPlatform.transparent : RedisPlatform ℕ where
  lossy _ := ""
  compress _ data := data
  inflate _ data := ([data], true)
  inflate_compress _ data := ⟨[data], rfl, by simp⟩
  acceptsPx _ := true

/-- A Redis layer with the limits it has unless its options say otherwise. -/
def redisLayer : RedisLayer where
  serializer := .default
  compression := some .gzip
  compressionThreshold := 1024
  decompressionMaxBytes := 64 * 1024 * 1024
  decompressionMaxInputBytes := 4 * 1024 * 1024
  decompressionMaxRatio := 10000

def noIv : Iv := ⟨List.replicate 12 0, length_zeros⟩

/-- A small value comes back from disk. -/
theorem getEntry_set_small :
    (PersistentLayer.disk signingLayer .transparent).getEntry "user" (.file
      (signingLayer.file .transparent ⟨"user", .array [.bool true, .null], some 60⟩ noIv)) 59 =
      .ok (some (.array [.bool true, .null]), some (.file
        (signingLayer.file .transparent ⟨"user", .array [.bool true, .null], some 60⟩ noIv))) := by
  refine (PersistentLayer.getEntry_set_iff (.disk signingLayer .transparent) "user"
    (.array [.bool true, .null]) (some 50) 10 59 noIv _ ?_ rfl rfl (by decide)).mpr ?_
  · refine .array fun v hv => ?_
    simp only [List.mem_cons, List.not_mem_nil, or_false] at hv
    rcases hv with rfl | rfl <;> constructor
  · constructor <;> decide +kernel

/-- What is stored beyond the limits of a read is deleted as corrupted by the next one. -/
theorem set_then_deleted {value : Value} (hwf : WellFormed value)
    (hnot : ¬ redisLayer.Reads RedisPlatform.transparent value) :
    ∃ stored, (PersistentLayer.redis redisLayer .transparent).set "ids" value none 0 noIv =
        .ok stored ∧
      (PersistentLayer.redis redisLayer .transparent).getEntry "ids" stored 0 =
        .ok (none, none) := by
  have hkey : RedisLayer.validateKey "ids" = .ok () := by decide +kernel
  have hread := deserializeOrDelete_of_not_reads hwf hnot
  refine ⟨.redis ⟨redisLayer.encodePayload .transparent (stringify value), none⟩, ?_, ?_⟩
  · simp [PersistentLayer.set, RedisLayer.set, hkey, Except.bind_ok, deadline, pure_eq_ok,
      Except.map]
  · simp only [PersistentLayer.getEntry, hkey, RedisLayer.getEntry, Except.bind_ok,
      Option.filter_some]
    rw [if_pos (by simp)]
    simp only [hread]
    rfl

def longList : Value := .array ((List.replicate 10000 "").map .string)

/-- The list is stored, and the next read deletes it. -/
theorem longList_deleted :
    WellFormed longList ∧ strip longList = longList ∧
      ∃ stored, (PersistentLayer.redis redisLayer .transparent).set "ids" longList none 0 noIv =
          .ok stored ∧
        (PersistentLayer.redis redisLayer .transparent).getEntry "ids" stored 0 =
          .ok (none, none) := by
  have hwf : WellFormed longList := wellFormed_strings _
  have hplain : strip longList = longList := by rw [longList, strip, stripItems_string]
  refine ⟨hwf, hplain, set_then_deleted hwf fun h => ?_⟩
  have hnodes := h.text.nodes
  rw [hplain, longList, nodes, nodesItems_string, List.length_replicate] at hnodes
  exact absurd hnodes (by decide)

end LayerCache
