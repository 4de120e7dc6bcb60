import LayerCache.Layers.Serializer

/-! # Payload protection

Entries on disk are encrypted, signed or left as they are. What the layer protected
itself it can always undo, and protection makes a payload longer by a fixed number of
bytes.
-/

namespace LayerCache

def MAGIC_ENCRYPTED : Bytes := utf8 "LCP1:"
def MAGIC_SIGNED : Bytes := utf8 "LCS1:"
def IV_LENGTH : ℕ := 12
def AUTH_TAG_LENGTH : ℕ := 16
def HMAC_LENGTH : ℕ := 32

/-- What the layer takes from the platform's crypto module. -/
structure CipherSuite where
  sha256 : Bytes → Bytes
  hmac : Bytes → Bytes → Bytes
  /-- AES-256-GCM: the authentication tag and the ciphertext. -/
  cipher : Bytes → Bytes → Bytes → Bytes × Bytes
  decipher : Bytes → Bytes → Bytes × Bytes → Option Bytes
  hmac_length : ∀ key data, (hmac key data).length = HMAC_LENGTH
  tag_length : ∀ key iv data, (cipher key iv data).1.length = AUTH_TAG_LENGTH
  cipher_length : ∀ key iv data, (cipher key iv data).2.length = data.length
  decipher_cipher : ∀ key iv data, decipher key iv (cipher key iv data) = some data

abbrev Iv := { iv : Bytes // iv.length = IV_LENGTH }

inductive KeyMaterial
  | text (s : String)
  | buffer (bytes : Bytes)

def KeyMaterial.bytes : KeyMaterial → Option Bytes
  | .text s => if s.isEmpty then none else some (utf8 s)
  | .buffer bytes => some bytes

structure PayloadProtectionOptions where
  encryptionKey : Option KeyMaterial
  signingKey : Option KeyMaterial
  allowLegacyPlaintext : Bool

structure PayloadProtection where
  encryptionKey : Option Bytes
  signingKey : Option Bytes
  allowLegacyPlaintext : Bool

variable (suite : CipherSuite)

def PayloadProtection.ofOptions (options : PayloadProtectionOptions) : PayloadProtection :=
  let encryption := options.encryptionKey.bind KeyMaterial.bytes
  { encryptionKey := encryption.map suite.sha256
    signingKey :=
      if encryption.isSome then none
      else (options.signingKey.bind KeyMaterial.bytes).map suite.sha256
    allowLegacyPlaintext := options.allowLegacyPlaintext }

namespace PayloadProtection
variable (protection : PayloadProtection)

def isEnabled : Bool := protection.encryptionKey.isSome || protection.signingKey.isSome

def encrypt (iv : Iv) (plaintext key : Bytes) : Bytes :=
  let (authTag, encrypted) := suite.cipher key iv.1 plaintext
  MAGIC_ENCRYPTED ++ (iv.1 ++ (authTag ++ encrypted))

def sign (payload key : Bytes) : Bytes := MAGIC_SIGNED ++ (suite.hmac key payload ++ payload)

def protect (iv : Iv) (payload : Bytes) : Bytes :=
  match protection.encryptionKey, protection.signingKey with
  | some key, _ => encrypt suite iv payload key
  | none, some key => sign suite payload key
  | none, none => payload

def decrypt (payload key : Bytes) : Except String Bytes :=
  let body := payload.drop MAGIC_ENCRYPTED.length
  let authTag := (body.drop IV_LENGTH).take AUTH_TAG_LENGTH
  let opened :=
    if authTag.length = AUTH_TAG_LENGTH then
      suite.decipher key (body.take IV_LENGTH) (authTag, body.drop (IV_LENGTH + AUTH_TAG_LENGTH))
    else none
  match opened with
  | some plaintext => .ok plaintext
  | none => .error
      "Decryption failed. The data may have been tampered with or the encryptionKey is incorrect."

def verify (payload key : Bytes) : Except String Bytes :=
  let body := payload.drop MAGIC_SIGNED.length
  let data := body.drop HMAC_LENGTH
  if body.take HMAC_LENGTH = suite.hmac key data then .ok data
  else .error
    "HMAC verification failed. The data may have been tampered with or the signingKey is incorrect."

def unprotect (payload : Bytes) : Except String Bytes :=
  if MAGIC_ENCRYPTED.isPrefixOf payload then
    match protection.encryptionKey with
    | none => .error "Encrypted payload but no encryptionKey configured."
    | some key => decrypt suite payload key
  else if MAGIC_SIGNED.isPrefixOf payload then
    match protection.signingKey with
    | none => .error "Signed payload but no signingKey configured."
    | some key => verify suite payload key
  else if protection.isEnabled && !protection.allowLegacyPlaintext then
    .error "Unprotected plaintext payload rejected because payload protection is configured."
  else .ok payload

def overhead : ℕ :=
  match protection.encryptionKey, protection.signingKey with
  | some _, _ => MAGIC_ENCRYPTED.length + IV_LENGTH + AUTH_TAG_LENGTH
  | none, some _ => MAGIC_SIGNED.length + HMAC_LENGTH
  | none, none => 0

variable {suite protection}

theorem length_protect (iv : Iv) (payload : Bytes) :
    (protection.protect suite iv payload).length = payload.length + protection.overhead := by
  unfold protect overhead
  cases protection.encryptionKey with
  | some key =>
    simp only [encrypt, List.length_append, iv.2, suite.tag_length, suite.cipher_length]
    omega
  | none =>
    cases protection.signingKey with
    | some key =>
      simp only [sign, List.length_append, suite.hmac_length]
      omega
    | none => rfl

theorem decrypt_encrypt (iv : Iv) (payload key : Bytes) :
    decrypt suite (encrypt suite iv payload key) key = .ok payload := by
  have hiv := iv.2
  have htag := suite.tag_length key iv.1 payload
  have hopen := suite.decipher_cipher key iv.1 payload
  simp only [decrypt, encrypt, List.drop_left]
  rw [List.take_left' hiv, List.drop_left' hiv, List.take_left' htag,
    ← List.drop_drop, List.drop_left' hiv, List.drop_left' htag, if_pos htag, hopen]

theorem verify_sign (payload key : Bytes) :
    verify suite (sign suite payload key) key = .ok payload := by
  have hmac := suite.hmac_length key payload
  simp only [verify, sign, List.drop_left]
  rw [List.take_left' hmac, List.drop_left' hmac, if_pos rfl]

theorem magic_bytes : MAGIC_ENCRYPTED = [76, 67, 80, 49, 58] ∧
    MAGIC_SIGNED = [76, 67, 83, 49, 58] := by
  decide

/-- A payload with no magic header of its own comes back as it was protected. -/
theorem unprotect_protect (iv : Iv) {payload : Bytes}
    (hencrypted : MAGIC_ENCRYPTED.isPrefixOf payload = false)
    (hsigned : MAGIC_SIGNED.isPrefixOf payload = false) :
    protection.unprotect suite (protection.protect suite iv payload) = .ok payload := by
  have happend : ∀ xs ys : Bytes, xs.isPrefixOf (xs ++ ys) = true := fun xs ys => by simp
  unfold protect
  cases hk : protection.encryptionKey with
  | some key =>
    simp only [unprotect, encrypt, happend, if_true, hk]
    exact decrypt_encrypt iv payload key
  | none =>
    cases hs : protection.signingKey with
    | some key =>
      have hne : MAGIC_ENCRYPTED.isPrefixOf (sign suite payload key) = false := by
        rw [sign, magic_bytes.1, magic_bytes.2]
        rfl
      have heq : MAGIC_SIGNED.isPrefixOf (sign suite payload key) = true := happend _ _
      simp only [unprotect, hne, heq, if_true, hs]
      exact verify_sign payload key
    | none => simp [unprotect, hencrypted, hsigned, isEnabled, hk, hs]

end PayloadProtection

end LayerCache
