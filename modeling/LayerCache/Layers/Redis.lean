import Mathlib.Algebra.Order.Ring.Rat
import LayerCache.Keys.Canonical
import LayerCache.Layers.Disk

/-! # The Redis layer

Values are stored as JSON text, compressed behind a header if they are long enough.
Reading decompresses within limits on both ends and removes what it cannot decode.
-/

namespace LayerCache

open Json

inductive CompressionAlgorithm
  | gzip
  | brotli
  deriving DecidableEq

/-- The header of a payload compressed with the algorithm. -/
def CompressionAlgorithm.header : CompressionAlgorithm → Bytes
  | .gzip => utf8 "LCZ1:gzip:"
  | .brotli => utf8 "LCZ1:brotli:"

structure RedisPlatform (T : Type) where
  lossy : Bytes → String
  compress : CompressionAlgorithm → Bytes → Bytes
  /-- The chunks a decompressor hands out, and whether it then ends without an error. -/
  inflate : CompressionAlgorithm → Bytes → List Bytes × Bool
  inflate_compress : ∀ algorithm data, ∃ chunks,
    inflate algorithm (compress algorithm data) = (chunks, true) ∧ chunks.flatten = data
  /-- Whether the server takes a time to live for a `PX` argument. -/
  acceptsPx : T → Bool

structure RedisLayer where
  serializer : JsonSerializer
  compression : Option CompressionAlgorithm
  compressionThreshold : ℕ
  decompressionMaxBytes : ℕ
  decompressionMaxInputBytes : ℕ
  decompressionMaxRatio : ℚ

structure RedisEntry (T : Type) where
  payload : Bytes
  expiresAt : Option T

def jsLength (s : String) : ℕ := (s.toList.flatMap Keys.codeUnits).length

def RedisLayer.validateKey (key : String) : Except String Unit :=
  if jsLength key = 0 then .error "RedisLayer: key must not be empty."
  else if jsLength key > 1024 then
    .error ("RedisLayer: key length must be at most 1 024 characters (got " ++
      toString (jsLength key) ++ ").")
  else if key.toList.any fun c => decide (c.toNat ≤ 0x1F) || c.toNat == 0x7F then
    .error "RedisLayer: key contains unsupported control characters."
  else if key.toList.any fun c => decide (0x10000 ≤ c.toNat) then
    .error "RedisLayer: key contains unsupported surrogate code points."
  else .ok ()

/-- Collects decompressed chunks; `totalBytes` is what came before. -/
def collectChunks (maxBytes : ℕ) (ratioLimit : ℚ) (ends : Bool) :
    List Bytes → ℕ → Except String Bytes
  | [], _ => if ends then .ok [] else .error "unexpected end of file"
  | chunk :: rest, totalBytes =>
    let totalBytes := totalBytes + chunk.length
    if totalBytes > maxBytes ∨ (totalBytes : ℚ) > ratioLimit then
      .error ("Decompressed payload (" ++ toString totalBytes ++
        " bytes) exceeds configured output or expansion-ratio limits.")
    else do return chunk ++ (← collectChunks maxBytes ratioLimit ends rest totalBytes)

namespace RedisLayer
variable {T : Type} (layer : RedisLayer) (platform : RedisPlatform T)

def encodePayload (payload : String) : Bytes :=
  match layer.compression with
  | none => utf8 payload
  | some algorithm =>
    if (utf8 payload).length < layer.compressionThreshold then utf8 payload
    else algorithm.header ++ platform.compress algorithm (utf8 payload)

def decompressWithLimit (algorithm : CompressionAlgorithm) (payload : Bytes) :
    Except String Bytes :=
  if payload.length > layer.decompressionMaxInputBytes then
    .error ("Compressed payload (" ++ toString payload.length ++
      " bytes) exceeds decompressionMaxInputBytes limit (" ++
      toString layer.decompressionMaxInputBytes ++ " bytes).")
  else
    let (chunks, ends) := platform.inflate algorithm payload
    collectChunks layer.decompressionMaxBytes
      ((max 1 payload.length : ℕ) * layer.decompressionMaxRatio) ends chunks 0

def decodePayload (payload : Bytes) : Except String Bytes :=
  if payload.take 10 = CompressionAlgorithm.gzip.header then
    if layer.compression ≠ some .gzip then .ok payload
    else layer.decompressWithLimit platform .gzip (payload.drop 10)
  else if payload.take 12 = CompressionAlgorithm.brotli.header then
    if layer.compression ≠ some .brotli then .ok payload
    else layer.decompressWithLimit platform .brotli (payload.drop 12)
  else .ok payload

def set [LinearOrder T] [Zero T] [Add T] (key : String) (value : Value) (ttl : Option T) (now : T) :
    Except String (RedisEntry T) := do
  validateKey key
  let payload := layer.encodePayload platform (stringify value)
  if ∀ t ∈ ttl, 0 < t → platform.acceptsPx t = true then
    return { payload, expiresAt := deadline now ttl }
  else .error "ERR value is not an integer or out of range"

/-- Decodes a payload that was found: the value, and whether the entry stays. -/
def deserializeOrDelete (payload : Bytes) : Option Value × Bool :=
  match layer.decodePayload platform payload with
  | .error _ => (none, false)
  | .ok decodedPayload =>
    match layer.serializer.deserialize platform.lossy decodedPayload with
    | .error _ => (none, false)
    | .ok value => (some value, true)

/-- Reads a key: the value if there is one to return, and the entry as it is afterwards. -/
def getEntry [LinearOrder T] (entry : Option (RedisEntry T)) (now : T) :
    Option Value × Option (RedisEntry T) :=
  match entry.filter fun entry => decide (∀ t ∈ entry.expiresAt, now < t) with
  | none => (none, none)
  | some entry =>
    let (value, keep) := layer.deserializeOrDelete platform entry.payload
    (value, if keep then some entry else none)

def Compresses (algorithm : CompressionAlgorithm) (size : ℕ) : Prop :=
  layer.compression = some algorithm ∧ layer.compressionThreshold ≤ size

/-- The text of a value is within the limits of a read. -/
structure Reads (v : Value) : Prop where
  text : layer.serializer.Reads v
  input : ∀ algorithm, layer.Compresses algorithm (stringify v).utf8ByteSize →
    (platform.compress algorithm (utf8 (stringify v))).length ≤ layer.decompressionMaxInputBytes
  output : ∀ algorithm, layer.Compresses algorithm (stringify v).utf8ByteSize →
    (stringify v).utf8ByteSize ≤ layer.decompressionMaxBytes
  ratio : ∀ algorithm, layer.Compresses algorithm (stringify v).utf8ByteSize →
    ((stringify v).utf8ByteSize : ℚ) ≤
      (max 1 (platform.compress algorithm (utf8 (stringify v))).length : ℕ) *
        layer.decompressionMaxRatio

end RedisLayer

section
variable {T : Type} {layer : RedisLayer} {platform : RedisPlatform T} {v : Value}

theorem collectChunks_ok {maxBytes : ℕ} {ratioLimit : ℚ} (chunks : List Bytes) :
    ∀ total : ℕ, total + chunks.flatten.length ≤ maxBytes →
      ((total + chunks.flatten.length : ℕ) : ℚ) ≤ ratioLimit →
      collectChunks maxBytes ratioLimit true chunks total = .ok chunks.flatten := by
  induction chunks with
  | nil => exact fun _ _ _ => rfl
  | cons chunk chunks ih =>
    intro total hbytes hratio
    simp only [List.flatten_cons, List.length_append, ← Nat.add_assoc] at hbytes hratio
    have hle : ((total + chunk.length : ℕ) : ℚ) ≤
        (total + chunk.length + chunks.flatten.length : ℕ) :=
      by exact_mod_cast Nat.le_add_right _ _
    have hcheck : ¬ (total + chunk.length > maxBytes ∨
        ((total + chunk.length : ℕ) : ℚ) > ratioLimit) := by
      rintro (h | h)
      · omega
      · exact absurd (hle.trans hratio) (not_le.mpr h)
    rw [collectChunks]
    simp only [if_neg hcheck, ih _ hbytes hratio]
    rfl

theorem collectChunks_error {maxBytes : ℕ} {ratioLimit : ℚ} {ends : Bool} (chunks : List Bytes) :
    ∀ total : ℕ, chunks.flatten ≠ [] →
      ¬ (total + chunks.flatten.length ≤ maxBytes ∧
        ((total + chunks.flatten.length : ℕ) : ℚ) ≤ ratioLimit) →
      ∃ e, collectChunks maxBytes ratioLimit ends chunks total = .error e := by
  induction chunks with
  | nil => exact fun _ h => absurd rfl h
  | cons chunk chunks ih =>
    intro total _ hlimits
    rw [collectChunks]
    split
    · exact ⟨_, rfl⟩
    · next hcheck =>
      push Not at hcheck
      simp only [List.flatten_cons, List.length_append, ← Nat.add_assoc] at hlimits
      have hrest : chunks.flatten ≠ [] := by
        intro hnil
        rw [hnil] at hlimits
        exact hlimits hcheck
      obtain ⟨e, he⟩ := ih _ hrest hlimits
      exact ⟨e, by rw [he]; rfl⟩

theorem header_bytes : CompressionAlgorithm.gzip.header =
    [76, 67, 90, 49, 58, 103, 122, 105, 112, 58] ∧
    CompressionAlgorithm.brotli.header =
      [76, 67, 90, 49, 58, 98, 114, 111, 116, 108, 105, 58] := by
  decide

theorem decodePayload_text (v : Value) :
    layer.decodePayload platform (utf8 (stringify v)) = .ok (utf8 (stringify v)) := by
  have hne : ∀ n rest, (utf8 (stringify v)).take n ≠ 76 :: rest := fun n rest h => by
    cases hb : utf8 (stringify v) with
    | nil => rw [hb] at h; simp at h
    | cons b bytes =>
      rw [hb] at h
      cases n with
      | zero => cases h
      | succ n => exact utf8_stringify_head v hb (List.cons.inj h).1
  rw [RedisLayer.decodePayload, header_bytes.1, header_bytes.2, if_neg (hne _ _), if_neg (hne _ _)]

theorem decodePayload_compressed {algorithm : CompressionAlgorithm} {data : Bytes}
    (h : layer.compression = some algorithm) :
    layer.decodePayload platform (algorithm.header ++ data) =
      layer.decompressWithLimit platform algorithm data := by
  cases algorithm with
  | gzip =>
    have htake : (CompressionAlgorithm.gzip.header ++ data).take 10 =
        CompressionAlgorithm.gzip.header := List.take_left' (by decide)
    have hdrop : (CompressionAlgorithm.gzip.header ++ data).drop 10 = data :=
      List.drop_left' (by decide)
    rw [RedisLayer.decodePayload, if_pos htake, if_neg (by simp [h]), hdrop]
  | brotli =>
    have htake : (CompressionAlgorithm.brotli.header ++ data).take 12 =
        CompressionAlgorithm.brotli.header := List.take_left' (by decide)
    have hdrop : (CompressionAlgorithm.brotli.header ++ data).drop 12 = data :=
      List.drop_left' (by decide)
    have hne : (CompressionAlgorithm.brotli.header ++ data).take 10 ≠
        CompressionAlgorithm.gzip.header := by
      rw [header_bytes.1, header_bytes.2]
      simp
    rw [RedisLayer.decodePayload, if_neg hne, if_pos htake, if_neg (by simp [h]), hdrop]

theorem utf8_stringify_ne_nil (v : Value) : utf8 (stringify v) ≠ [] := by
  obtain ⟨c, cs, hv, hc, -⟩ := print_first v
  rw [stringify, hv, utf8_cons cs hc]
  exact List.cons_ne_nil _ _

/-- Decoding gives the text back unless a limit on compressed payloads is in the way. -/
theorem decodePayload_encodePayload (h : layer.Reads platform v) :
    layer.decodePayload platform (layer.encodePayload platform (stringify v)) =
      .ok (utf8 (stringify v)) := by
  unfold RedisLayer.encodePayload
  split
  · exact decodePayload_text v
  · next algorithm ha =>
    split
    · exact decodePayload_text v
    · next hsize =>
      have hcompresses : layer.Compresses algorithm (stringify v).utf8ByteSize :=
        ⟨ha, Nat.not_lt.mp hsize⟩
      obtain ⟨chunks, hinflate, hflatten⟩ :=
        platform.inflate_compress algorithm (utf8 (stringify v))
      have hlen : chunks.flatten.length = (stringify v).utf8ByteSize := by
        rw [hflatten, length_utf8]
      rw [decodePayload_compressed ha, RedisLayer.decompressWithLimit,
        if_neg (Nat.not_lt.mpr (h.input _ hcompresses)), hinflate]
      dsimp only
      rw [collectChunks_ok chunks 0, hflatten]
      · rw [Nat.zero_add, hlen]
        exact h.output _ hcompresses
      · rw [Nat.zero_add, hlen]
        exact h.ratio _ hcompresses

theorem deserializeOrDelete_encodePayload (hwf : WellFormed v) (h : layer.Reads platform v) :
    layer.deserializeOrDelete platform (layer.encodePayload platform (stringify v)) =
      (some (strip v), true) := by
  rw [RedisLayer.deserializeOrDelete, decodePayload_encodePayload h]
  simp only [deserialize_stringify hwf h.text]

/-- Beyond any of the limits the entry is deleted as corrupted. -/
theorem deserializeOrDelete_of_not_reads (hwf : WellFormed v) (h : ¬ layer.Reads platform v) :
    layer.deserializeOrDelete platform (layer.encodePayload platform (stringify v)) =
      (none, false) := by
  have htext : ¬ layer.serializer.Reads v →
      ∃ e, layer.serializer.deserialize platform.lossy (utf8 (stringify v)) = .error e :=
    deserialize_stringify_error hwf
  have hplain : ¬ layer.serializer.Reads v →
      layer.deserializeOrDelete platform (utf8 (stringify v)) = (none, false) := fun hn => by
    obtain ⟨e, he⟩ := htext hn
    simp only [RedisLayer.deserializeOrDelete, decodePayload_text, he]
  unfold RedisLayer.encodePayload
  split
  · next hnone =>
    refine hplain fun ht => h ⟨ht, ?_, ?_, ?_⟩ <;> rintro algorithm ⟨ha, -⟩ <;> rw [hnone] at ha <;>
      cases ha
  · next algorithm ha =>
    split
    · next hsize =>
      rw [length_utf8] at hsize
      refine hplain fun ht => h ⟨ht, ?_, ?_, ?_⟩ <;> rintro algorithm ⟨-, hs⟩ <;> omega
    · obtain ⟨chunks, hinflate, hflatten⟩ :=
        platform.inflate_compress algorithm (utf8 (stringify v))
      have hlen : chunks.flatten.length = (stringify v).utf8ByteSize := by
        rw [hflatten, length_utf8]
      rw [RedisLayer.deserializeOrDelete, decodePayload_compressed ha,
        RedisLayer.decompressWithLimit]
      by_cases hinput : (platform.compress algorithm (utf8 (stringify v))).length >
          layer.decompressionMaxInputBytes
      · rw [if_pos hinput]
      · rw [if_neg hinput, hinflate]
        dsimp only
        generalize hratio : ((max 1 (platform.compress algorithm (utf8 (stringify v))).length : ℕ) *
          layer.decompressionMaxRatio : ℚ) = ratioLimit
        by_cases hlimits : 0 + chunks.flatten.length ≤ layer.decompressionMaxBytes ∧
            ((0 + chunks.flatten.length : ℕ) : ℚ) ≤ ratioLimit
        · rw [collectChunks_ok chunks 0 hlimits.1 hlimits.2, hflatten]
          rw [Nat.zero_add, hlen] at hlimits
          have hsame : ∀ a size, layer.Compresses a size → a = algorithm := fun a _ hc =>
            Option.some.inj (hc.1.symm.trans ha)
          obtain ⟨e, he⟩ := htext fun ht => h ⟨ht,
            fun a hc => hsame a _ hc ▸ Nat.not_lt.mp hinput, fun _ _ => hlimits.1,
            fun a hc => by rw [hsame a _ hc, hratio]; exact hlimits.2⟩
          simp only [he]
        · obtain ⟨e, he⟩ :=
            @collectChunks_error layer.decompressionMaxBytes ratioLimit true chunks 0
            (hflatten ▸ utf8_stringify_ne_nil v) hlimits
          simp only [he]

end

end LayerCache
