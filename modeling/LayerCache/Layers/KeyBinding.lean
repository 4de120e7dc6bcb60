import LayerCache.Layers.Disk

/-! # Payloads under another key's path

A protected payload carries the key it was written for, and a read takes whatever
authentic payload lies at the path of its own key. So what keeps a read to its key is
where the payloads lie.
-/

namespace LayerCache

open Json

/-- A call of `set` that went through. -/
structure DiskWrite (T : Type) where
  key : String
  value : Value
  ttl : Option T
  now : T
  iv : Iv
  wellFormed : WellFormed value

variable {T : Type} [LinearOrder T] [Zero T] [Add T]

def DiskWrite.entry (w : DiskWrite T) : DiskEntry T where
  key := w.key
  value := w.value
  expiresAt := deadline w.now w.ttl

def DiskWrite.payload (w : DiskWrite T) (layer : DiskLayer) (platform : DiskPlatform T) : Bytes :=
  layer.file platform w.entry w.iv

abbrev Directory := String → Option Bytes

/-- Every file of the directory is a payload that the layer itself produced. -/
def Directory.Authentic (directory : Directory) (layer : DiskLayer) (platform : DiskPlatform T)
    (writes : List (DiskWrite T)) : Prop :=
  ∀ path raw, directory path = some raw → ∃ w ∈ writes, raw = w.payload layer platform

variable (layer : DiskLayer) (platform : DiskPlatform T) (writes : List (DiskWrite T))
  (directory : Directory) (key : String) (now : T)

def DiskLayer.read : Option Value × Option Bytes :=
  layer.getEntry platform (directory (layer.keyToPath platform key)) now

/-- A read of the key returns nothing or a value that was set under that key. Every read
drops the reserved object keys of a value. -/
def KeyBound : Prop :=
  ∀ v, (layer.read platform directory key now).1 = some v →
    ∃ w ∈ writes, w.key = key ∧ v = strip w.value

/-- A payload at the key's path was produced by a `set` of the key. -/
def InPlace : Prop :=
  ∀ raw, directory (layer.keyToPath platform key) = some raw →
    ∃ w ∈ writes, w.key = key ∧ raw = w.payload layer platform

variable {layer platform writes directory key now}

theorem read_payload {w : DiskWrite T} {v : Value}
    (hfile : directory (layer.keyToPath platform key) = some (w.payload layer platform))
    (hv : (layer.read platform directory key now).1 = some v) : v = strip w.value := by
  rw [DiskLayer.read, hfile] at hv
  by_cases hreads : layer.Reads platform w.entry ∧ ∀ t ∈ w.entry.expiresAt, now < t
  · have hread := getEntry_of_reads w.iv w.wellFormed hreads.1 hreads.2
    have hvalue : strip w.value = v := Option.some.inj ((congrArg Prod.fst hread).symm.trans hv)
    exact hvalue.symm
  · have hread := getEntry_of_not_reads w.iv w.wellFormed hreads
    cases (congrArg Prod.fst hread).symm.trans hv

/-- A read is bound to its key as long as the payload at its path is in place. A payload of another
key that the read takes breaks this, unless its value happens to have been set under the key. -/
theorem keyBound_inPlace :
    (InPlace layer platform writes directory key →
      KeyBound layer platform writes directory key now) ∧
      ∀ w ∈ writes, directory (layer.keyToPath platform key) = some (w.payload layer platform) →
        layer.Reads platform w.entry → (∀ t ∈ w.entry.expiresAt, now < t) →
        (∀ w' ∈ writes, w'.key = key → strip w'.value ≠ strip w.value) →
        ¬ KeyBound layer platform writes directory key now := by
  constructor
  · intro hplace v hv
    cases hfile : directory (layer.keyToPath platform key) with
    | none =>
      rw [DiskLayer.read, hfile] at hv
      cases hv
    | some raw =>
      obtain ⟨w, hw, hkey, rfl⟩ := hplace raw hfile
      exact ⟨w, hw, hkey, read_payload hfile hv⟩
  · intro w _ hfile hreads hlive hother hbound
    have hread : (layer.read platform directory key now).1 = some (strip w.value) := by
      rw [DiskLayer.read, hfile]
      exact congrArg Prod.fst (getEntry_of_reads w.iv w.wellFormed hreads hlive)
    obtain ⟨w', hw', hkey, hvalue⟩ := hbound _ hread
    exact hother w' hw' hkey hvalue.symm

def CipherSuite.transparent : CipherSuite where
  sha256 _ := List.replicate 32 0
  hmac _ _ := List.replicate 32 0
  cipher _ _ data := (List.replicate 16 0, data)
  decipher _ _ sealed := some sealed.2
  hmac_length _ _ := rfl
  tag_length _ _ _ := rfl
  cipher_length _ _ _ := rfl
  decipher_cipher _ _ _ := rfl

def DiskPlatform.transparent : DiskPlatform ℕ where
  suite := .transparent
  lossy _ := ""
  numerals := decimals
  hashName key := key

def signingLayer : DiskLayer where
  directory := "/cache"
  serializer := .default
  maxEntryBytes := some (16 * 1024 * 1024)
  protection := .ofOptions .transparent
    { encryptionKey := none, signingKey := some (.text "secret"), allowLegacyPlaintext := false }

theorem length_zeros : (List.replicate 12 (0 : UInt8)).length = IV_LENGTH := rfl

def alicesWrite : DiskWrite ℕ where
  key := "alice"
  value := .bool true
  ttl := none
  now := 0
  iv := ⟨List.replicate 12 0, length_zeros⟩
  wellFormed := .bool true

theorem alicesWrite_reads : signingLayer.Reads .transparent alicesWrite.entry := by
  constructor <;> decide +kernel

def copiedDirectory : Directory := fun path =>
  if path = "/cache/alice.lc" ∨ path = "/cache/bob.lc" then
    some (alicesWrite.payload signingLayer .transparent)
  else none

theorem copiedDirectory_authentic :
    copiedDirectory.Authentic signingLayer .transparent [alicesWrite] := by
  intro path raw h
  unfold copiedDirectory at h
  split at h
  · exact ⟨_, List.mem_singleton_self _, (Option.some.inj h).symm⟩
  · cases h

/-- Alice's own read is bound to her key. -/
theorem keyBound_alice :
    KeyBound signingLayer .transparent [alicesWrite] copiedDirectory "alice" 0 := by
  refine keyBound_inPlace.1 fun raw hraw => ⟨alicesWrite, List.mem_singleton_self _, rfl, ?_⟩
  have hfile : copiedDirectory (signingLayer.keyToPath .transparent "alice") =
      some (alicesWrite.payload signingLayer .transparent) := if_pos (.inl rfl)
  exact Option.some.inj (hraw.symm.trans hfile)

/-- With her file at his path, Bob reads what was stored for Alice. -/
theorem not_keyBound_bob :
    signingLayer.protection.isEnabled = true ∧
      copiedDirectory.Authentic signingLayer .transparent [alicesWrite] ∧
      ¬ KeyBound signingLayer .transparent [alicesWrite] copiedDirectory "bob" 0 := by
  refine ⟨by decide, copiedDirectory_authentic, fun hbound => ?_⟩
  have hread : signingLayer.read .transparent copiedDirectory "bob" 0 = _ :=
    getEntry_of_reads alicesWrite.iv alicesWrite.wellFormed alicesWrite_reads
      (by simp [alicesWrite, DiskWrite.entry, deadline])
  obtain ⟨w, hw, hkey, -⟩ := hbound _ (congrArg Prod.fst hread)
  rw [List.mem_singleton.mp hw] at hkey
  exact absurd hkey (by decide)

end LayerCache
