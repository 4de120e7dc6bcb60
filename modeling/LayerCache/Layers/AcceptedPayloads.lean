import LayerCache.Layers.KeyBinding

/-! # The payloads that protection accepts

With a key, protection undoes what it did to any payload, one that looks protected itself included.
A layer that signs accepts the header and the code of what comes after them, and nothing else.
-/

namespace LayerCache

namespace PayloadProtection

variable {suite : CipherSuite} {protection : PayloadProtection} {key payload p : Bytes}

theorem encrypted_isPrefixOf_encrypt (iv : Iv) :
    MAGIC_ENCRYPTED.isPrefixOf (encrypt suite iv payload key) = true := by
  simp [encrypt]

theorem signed_isPrefixOf_sign : MAGIC_SIGNED.isPrefixOf (sign suite payload key) = true := by
  simp [sign]

theorem not_encrypted_of_signed (h : MAGIC_SIGNED.isPrefixOf payload = true) :
    MAGIC_ENCRYPTED.isPrefixOf payload = false := by
  obtain ⟨rest, rfl⟩ := List.isPrefixOf_iff_prefix.mp h
  rw [magic_bytes.1, magic_bytes.2]
  rfl

theorem unprotect_encrypt (hkey : protection.encryptionKey = some key) (iv : Iv) :
    protection.unprotect suite (encrypt suite iv payload key) = .ok payload := by
  rw [unprotect, if_pos (encrypted_isPrefixOf_encrypt iv), hkey]
  exact decrypt_encrypt iv payload key

theorem unprotect_signed (hkey : protection.signingKey = some key)
    (h : MAGIC_SIGNED.isPrefixOf payload = true) :
    protection.unprotect suite payload = verify suite payload key := by
  have hnot : ¬ MAGIC_ENCRYPTED.isPrefixOf payload = true :=
    Bool.eq_false_iff.mp (not_encrypted_of_signed h)
  rw [unprotect, if_neg hnot, if_pos h, hkey]

theorem unprotect_sign (hkey : protection.signingKey = some key) :
    protection.unprotect suite (sign suite payload key) = .ok payload := by
  rw [unprotect_signed hkey signed_isPrefixOf_sign]
  exact verify_sign payload key

theorem unprotect_protect_of_isEnabled (h : protection.isEnabled = true) (iv : Iv)
    (payload : Bytes) :
    protection.unprotect suite (protection.protect suite iv payload) = .ok payload := by
  cases hencryption : protection.encryptionKey with
  | some key =>
    rw [protect, hencryption]
    exact unprotect_encrypt hencryption iv
  | none =>
    cases hsigning : protection.signingKey with
    | some key =>
      rw [protect, hencryption, hsigning]
      exact unprotect_sign hsigning
    | none =>
      rw [isEnabled, hencryption, hsigning] at h
      cases h

theorem verify_eq_ok_iff {body : Bytes} :
    verify suite (MAGIC_SIGNED ++ body) key = .ok p ↔ body = suite.hmac key p ++ p := by
  unfold verify
  rw [List.drop_left]
  constructor
  · intro h
    dsimp only at h
    split at h
    · next hmac =>
      obtain rfl := Except.ok.inj h
      rw [← hmac, List.take_append_drop]
    · cases h
  · rintro rfl
    dsimp only
    rw [List.take_left' (suite.hmac_length key p), List.drop_left' (suite.hmac_length key p),
      if_pos rfl]

theorem unprotect_encrypted_error (hnone : protection.encryptionKey = none)
    (h : MAGIC_ENCRYPTED.isPrefixOf payload = true) :
    protection.unprotect suite payload =
      .error "Encrypted payload but no encryptionKey configured." := by
  rw [unprotect, if_pos h, hnone]

theorem unprotect_plain_error (hkey : protection.isEnabled = true)
    (hlegacy : protection.allowLegacyPlaintext = false)
    (hencrypted : ¬ MAGIC_ENCRYPTED.isPrefixOf payload = true)
    (hsigned : ¬ MAGIC_SIGNED.isPrefixOf payload = true) :
    protection.unprotect suite payload = .error
      "Unprotected plaintext payload rejected because payload protection is configured." := by
  rw [unprotect, if_neg hencrypted, if_neg hsigned, hkey, hlegacy]
  rfl

theorem unprotect_eq_ok_iff (hkey : protection.signingKey = some key)
    (hnone : protection.encryptionKey = none)
    (hlegacy : protection.allowLegacyPlaintext = false) :
    protection.unprotect suite payload = .ok p ↔
      payload = MAGIC_SIGNED ++ (suite.hmac key p ++ p) := by
  by_cases hsigned : MAGIC_SIGNED.isPrefixOf payload = true
  · rw [unprotect_signed hkey hsigned]
    obtain ⟨body, rfl⟩ := List.isPrefixOf_iff_prefix.mp hsigned
    rw [verify_eq_ok_iff, List.append_cancel_left_eq]
  · have hheader : payload ≠ MAGIC_SIGNED ++ (suite.hmac key p ++ p) := by
      rintro rfl
      exact hsigned (by simp)
    have herror : ∃ e, protection.unprotect suite payload = .error e := by
      by_cases hencrypted : MAGIC_ENCRYPTED.isPrefixOf payload = true
      · exact ⟨_, unprotect_encrypted_error hnone hencrypted⟩
      · have henabled : protection.isEnabled = true := by rw [isEnabled, hkey]; simp
        exact ⟨_, unprotect_plain_error henabled hlegacy hencrypted hsigned⟩
    obtain ⟨e, he⟩ := herror
    rw [he]
    constructor
    · intro h
      cases h
    · intro h
      exact absurd h hheader

theorem encryptionKey_ofOptions_of_signingKey {options : PayloadProtectionOptions}
    (h : (ofOptions suite options).signingKey = some key) :
    (ofOptions suite options).encryptionKey = none := by
  unfold ofOptions at h ⊢
  cases hencryption : options.encryptionKey.bind KeyMaterial.bytes with
  | none => rfl
  | some raw =>
    simp only [hencryption, Option.isSome_some, if_true] at h
    cases h

/-- Protection accepts its own output: it undoes what it did, and where it signs and takes no legacy
payloads, whatever it accepts is what it would have made of the result. -/
theorem accepts_own_output (suite : CipherSuite) (options : PayloadProtectionOptions)
    (hkey : (ofOptions suite options).isEnabled = true) :
    (∀ (iv : Iv) (payload : Bytes), (ofOptions suite options).unprotect suite
        ((ofOptions suite options).protect suite iv payload) = .ok payload) ∧
      ∀ key, (ofOptions suite options).signingKey = some key →
        options.allowLegacyPlaintext = false → ∀ payload p : Bytes,
          (ofOptions suite options).unprotect suite payload = .ok p ↔
            payload = MAGIC_SIGNED ++ (suite.hmac key p ++ p) := by
  constructor
  · exact unprotect_protect_of_isEnabled hkey
  · intro key hsigning hlegacy payload p
    exact unprotect_eq_ok_iff hsigning (encryptionKey_ofOptions_of_signingKey hsigning) hlegacy

theorem accepts_own_output_signing :
    (ofOptions .transparent ⟨none, some (.text "secret"), false⟩).unprotect .transparent
      (MAGIC_SIGNED ++ (List.replicate 32 0 ++ [7])) = .ok [7] :=
  ((accepts_own_output .transparent ⟨none, some (.text "secret"), false⟩ (by decide)).2 _ rfl rfl
    _ _).mpr rfl

end PayloadProtection

end LayerCache
