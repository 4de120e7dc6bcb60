import LayerCache.Layers.StoredEntries

/-! # The framing of compressed payloads

A compressed payload is recognised by the header in front of it, which nothing escapes, and
unpacked within limits that nothing was checked against when it was packed.
-/

namespace LayerCache

variable {T : Type} (layer : RedisLayer) (platform : RedisPlatform T)

namespace RedisLayer

/-- `encodePayload` of a buffer. -/
def encodeBuffer (payload : Bytes) : Bytes :=
  match layer.compression with
  | none => payload
  | some algorithm =>
    if payload.length < layer.compressionThreshold then payload
    else algorithm.header ++ platform.compress algorithm payload

/-- What a payload unpacked from compressed bytes has to stay within. -/
def WithinLimits (compressed payload : Bytes) : Prop :=
  compressed.length ≤ layer.decompressionMaxInputBytes ∧
    (payload = [] ∨ payload.length ≤ layer.decompressionMaxBytes ∧
      (payload.length : ℚ) ≤ (max 1 compressed.length : ℕ) * layer.decompressionMaxRatio)

end RedisLayer

def RedisPlatform.Unpacks (algorithm : CompressionAlgorithm) (compressed payload : Bytes) : Prop :=
  ∃ chunks, platform.inflate algorithm compressed = (chunks, true) ∧ chunks.flatten = payload

/-- The payload has no header of the layer's compression in front, unless it is the frame of
itself; and if it is compressed, that is within the limits of a read. -/
def RedisLayer.Frames (payload : Bytes) : Prop :=
  ∀ algorithm, layer.compression = some algorithm →
    (payload.length < layer.compressionThreshold → algorithm.header <+: payload →
      ∃ data, payload = algorithm.header ++ data ∧ platform.Unpacks algorithm data payload ∧
        layer.WithinLimits data payload) ∧
    (layer.compressionThreshold ≤ payload.length →
      layer.WithinLimits (platform.compress algorithm payload) payload)

variable {layer platform}

theorem of_collectChunks_eq_ok {maxBytes : ℕ} {ratioLimit : ℚ} {ends : Bool}
    {chunks : List Bytes} {payload : Bytes} {total : ℕ}
    (h : collectChunks maxBytes ratioLimit ends chunks total = .ok payload) :
    ends = true ∧ chunks.flatten = payload := by
  induction chunks generalizing total payload with
  | nil =>
    rw [collectChunks] at h
    cases ends with
    | true => exact ⟨rfl, Except.ok.inj h⟩
    | false => cases h
  | cons chunk chunks ih =>
    rw [collectChunks] at h
    split at h
    · cases h
    · cases hrest : collectChunks maxBytes ratioLimit ends chunks (total + chunk.length) with
      | error e =>
        rw [hrest] at h
        cases h
      | ok rest =>
        rw [hrest] at h
        obtain ⟨hends, hflatten⟩ := ih hrest
        refine ⟨hends, ?_⟩
        rw [List.flatten_cons, hflatten]
        exact Except.ok.inj h

theorem collectChunks_eq_ok_iff {maxBytes : ℕ} {ratioLimit : ℚ} {ends : Bool} {chunks : List Bytes}
    (hchunks : [] ∉ chunks) (payload : Bytes) :
    collectChunks maxBytes ratioLimit ends chunks 0 = .ok payload ↔
      ends = true ∧ chunks.flatten = payload ∧
        (payload = [] ∨ payload.length ≤ maxBytes ∧ (payload.length : ℚ) ≤ ratioLimit) := by
  constructor
  · intro h
    obtain ⟨hends, hflatten⟩ := of_collectChunks_eq_ok h
    refine ⟨hends, hflatten, ?_⟩
    rw [or_iff_not_imp_left]
    intro hne
    by_contra hlimits
    rw [← hflatten] at hne hlimits
    rw [← Nat.zero_add chunks.flatten.length] at hlimits
    obtain ⟨e, he⟩ := @collectChunks_error maxBytes ratioLimit ends chunks 0 hne hlimits
    cases h.symm.trans he
  · rintro ⟨rfl, rfl, hempty | ⟨hbytes, hratio⟩⟩
    · have hnil : chunks = [] := by
        rw [List.eq_nil_iff_forall_not_mem]
        intro chunk hchunk
        have hchunkNil := List.flatten_eq_nil_iff.mp hempty chunk hchunk
        exact hchunks (hchunkNil ▸ hchunk)
      rw [hnil]
      rfl
    · rw [← Nat.zero_add chunks.flatten.length] at hbytes hratio
      exact collectChunks_ok chunks 0 hbytes hratio

theorem decompressWithLimit_eq_ok_iff {algorithm : CompressionAlgorithm} {compressed : Bytes}
    (hchunks : [] ∉ (platform.inflate algorithm compressed).1) (payload : Bytes) :
    layer.decompressWithLimit platform algorithm compressed = .ok payload ↔
      platform.Unpacks algorithm compressed payload ∧ layer.WithinLimits compressed payload := by
  unfold RedisLayer.decompressWithLimit
  split
  · next hlong =>
    constructor
    · exact fun h => nomatch h
    · exact fun h => absurd h.2.1 (Nat.not_le.mpr hlong)
  · next hshort =>
    cases hinflate : platform.inflate algorithm compressed with
    | mk chunks ends =>
      rw [hinflate] at hchunks
      simp only [collectChunks_eq_ok_iff hchunks]
      constructor
      · rintro ⟨rfl, hflatten, hlimits⟩
        exact ⟨⟨chunks, hinflate, hflatten⟩, Nat.not_lt.mp hshort, hlimits⟩
      · rintro ⟨⟨chunks', hinflate', hflatten⟩, -, hlimits⟩
        obtain ⟨rfl, rfl⟩ := Prod.mk.inj (hinflate.symm.trans hinflate')
        exact ⟨rfl, hflatten, hlimits⟩

theorem decodePayload_of_no_header {payload : Bytes}
    (h : ∀ algorithm, layer.compression = some algorithm → ¬ algorithm.header <+: payload) :
    layer.decodePayload platform payload = .ok payload := by
  have hgzip : CompressionAlgorithm.gzip.header.length = 10 := by rw [header_bytes.1]; rfl
  have hbrotli : CompressionAlgorithm.brotli.header.length = 12 := by rw [header_bytes.2]; rfl
  unfold RedisLayer.decodePayload
  split
  · next htake =>
    apply if_pos
    intro hcompression
    exact h .gzip hcompression (List.prefix_iff_eq_take.mpr (by rw [hgzip, htake]))
  · split
    · next htake =>
      apply if_pos
      intro hcompression
      exact h .brotli hcompression (List.prefix_iff_eq_take.mpr (by rw [hbrotli, htake]))
    · rfl

/-- A payload comes back from its encoding exactly if it is framed well. -/
theorem decodePayload_encodeBuffer_iff {T : Type} (layer : RedisLayer) (platform : RedisPlatform T)
    (payload : Bytes)
    (hchunks : ∀ algorithm data, [] ∉ (platform.inflate algorithm data).1) :
    layer.decodePayload platform (layer.encodeBuffer platform payload) = .ok payload ↔
      layer.Frames platform payload := by
  cases hcompression : layer.compression with
  | none =>
    have hencode : layer.encodeBuffer platform payload = payload := by
      rw [RedisLayer.encodeBuffer, hcompression]
    have hnone : ∀ algorithm, layer.compression ≠ some algorithm := by
      intro algorithm halgorithm
      cases hcompression.symm.trans halgorithm
    rw [hencode, decodePayload_of_no_header fun algorithm h => absurd h (hnone algorithm)]
    exact iff_of_true rfl fun algorithm h => absurd h (hnone algorithm)
  | some algorithm =>
    have hframes : layer.Frames platform payload ↔ _ :=
      ⟨fun h => h algorithm hcompression, fun h other hother =>
        Option.some.inj (hcompression.symm.trans hother) ▸ h⟩
    rw [hframes]
    by_cases hsize : payload.length < layer.compressionThreshold
    · have hencode : layer.encodeBuffer platform payload = payload := by
        rw [RedisLayer.encodeBuffer, hcompression]
        exact if_pos hsize
      rw [hencode, and_iff_left fun hlong => absurd hsize (Nat.not_lt.mpr hlong)]
      by_cases hheader : algorithm.header <+: payload
      · obtain ⟨data, rfl⟩ := hheader
        rw [decodePayload_compressed hcompression, decompressWithLimit_eq_ok_iff (hchunks _ _)]
        constructor
        · exact fun h _ _ => ⟨data, rfl, h⟩
        · intro h
          obtain ⟨data', hdata, hunpacks⟩ := h hsize (List.prefix_append _ _)
          obtain rfl := List.append_cancel_left hdata
          exact hunpacks
      · rw [decodePayload_of_no_header]
        · exact iff_of_true rfl fun _ h => absurd h hheader
        · intro other hother
          obtain rfl := Option.some.inj (hcompression.symm.trans hother)
          exact hheader
    · have hencode : layer.encodeBuffer platform payload =
          algorithm.header ++ platform.compress algorithm payload := by
        rw [RedisLayer.encodeBuffer, hcompression]
        exact if_neg hsize
      have hunpacks : platform.Unpacks algorithm (platform.compress algorithm payload) payload :=
        platform.inflate_compress algorithm payload
      rw [hencode, decodePayload_compressed hcompression,
        decompressWithLimit_eq_ok_iff (hchunks _ _), and_iff_right hunpacks]
      constructor
      · exact fun h => ⟨fun hshort => absurd hshort hsize, fun _ => h⟩
      · exact fun h => h.2 (Nat.not_lt.mp hsize)

/-- A platform that marks what it has compressed and fails on everything else. -/
def RedisPlatform.marking : RedisPlatform ℕ where
  lossy _ := ""
  compress _ data := 31 :: data
  inflate _
    | 31 :: data => (if data = [] then [] else [data], true)
    | _ => ([], false)
  inflate_compress _ data := by
    by_cases h : data = []
    · exact ⟨[], by simp [h], h.symm⟩
    · exact ⟨[data], by simp [h], by simp⟩
  acceptsPx _ := true

theorem marking_chunks (algorithm : CompressionAlgorithm) (data : Bytes) :
    [] ∉ (RedisPlatform.marking.inflate algorithm data).1 := by
  unfold RedisPlatform.marking
  dsimp only
  split
  · next rest =>
    by_cases h : rest = []
    · simp [h]
    · simp [h]
  · exact List.not_mem_nil

/-- A layer that compresses what has sixteen bytes or more. -/
def eagerLayer : RedisLayer := { redisLayer with compressionThreshold := 16 }

theorem decodePayload_encodeBuffer_eager :
    (eagerLayer.encodeBuffer .marking (utf8 "layercache layercache") =
        utf8 "LCZ1:gzip:" ++ 31 :: utf8 "layercache layercache" ∧
      eagerLayer.decodePayload .marking
          (eagerLayer.encodeBuffer .marking (utf8 "layercache layercache")) =
        .ok (utf8 "layercache layercache")) ∧
      eagerLayer.decodePayload .marking (eagerLayer.encodeBuffer .marking (utf8 "LCZ1:brotli:")) =
        .ok (utf8 "LCZ1:brotli:") := by
  refine ⟨⟨by decide, ?_⟩, ?_⟩
  · refine (decodePayload_encodeBuffer_iff eagerLayer .marking _ marking_chunks).mpr ?_
    rintro algorithm ⟨⟩
    refine ⟨fun hshort => absurd hshort (by decide), fun _ => ⟨by decide, .inr ⟨by decide, ?_⟩⟩⟩
    decide +kernel
  -- the header of the other compression in front of a short payload means nothing
  · refine (decodePayload_encodeBuffer_iff eagerLayer .marking _ marking_chunks).mpr ?_
    rintro algorithm ⟨⟩
    refine ⟨fun _ hheader => ?_, fun hlong => ?_⟩
    · exact absurd hheader (by decide)
    · exact absurd hlong (by decide)

/-- A short payload that looks like a frame is rejected. -/
theorem decodePayload_encodeBuffer_gzip :
    redisLayer.encodeBuffer .marking (utf8 "LCZ1:gzip:text") = utf8 "LCZ1:gzip:text" ∧
      redisLayer.decodePayload .marking (redisLayer.encodeBuffer .marking (utf8 "LCZ1:gzip:text")) ≠
        .ok (utf8 "LCZ1:gzip:text") := by
  decide

end LayerCache
