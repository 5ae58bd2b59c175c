import Urma.Identity.PayloadExact
import Urma.Lib.Gcm

/-!
# Vaults through any history

The header of an unlocked vault wraps its data key under the password and under the phrase. Edits
leave the header alone, and what is sealed is unlocked to the very same vault, so that neither the
password nor the phrase is ever lost.
-/

namespace Urma.Identity

open Lib Lib.Layout

section

variable {crates : VaultCrates} {R : Type} {rng : Rng R} {phrase : IdentityPhrase} {password : Text}

/-! ## Wrapped keys -/

/-- A data key under a key: what is encrypted is decrypted. -/
structure Wraps (crates : VaultCrates) (base : Bytes) (key : Bytes32) (label : String)
    (dataKey : Bytes32) (nonce wrapped : Bytes) : Prop where
  nonce_length : nonce.length = 12
  length : wrapped.length = 48
  encrypt : crates.encrypt key nonce (slotAad base label) dataKey.toList = .ok wrapped
  decrypt : crates.decrypt key nonce (slotAad base label) wrapped = .ok dataKey.toList

/-- The header of a vault: the data key is wrapped under the password and under the phrase. -/
structure Header (crates : VaultCrates) (phrase : IdentityPhrase) (password : Text)
    (header : Bytes) (dataKey : Bytes32) where
  salts : Vector UInt8 32
  base : Bytes
  passwordKey : Bytes32
  passwordNonce : Bytes
  passwordWrapped : Bytes
  recoveryKey : Bytes32
  recoveryNonce : Bytes
  recoveryWrapped : Bytes
  base_eq : base = magic ++ suite ++ salts.toList
  password : Identity.passwordKey crates password (slice base 40 56) = .ok passwordKey
  recovery : Identity.recoveryKey crates phrase (slice base 24 40) = .ok recoveryKey
  first : Wraps crates base passwordKey "password" dataKey passwordNonce passwordWrapped
  second : Wraps crates base recoveryKey "recovery" dataKey recoveryNonce recoveryWrapped
  header_eq : header = base ++ (passwordNonce ++ passwordWrapped) ++
    (recoveryNonce ++ recoveryWrapped)

/-- A vault that its password and its phrase unlock. -/
structure UnlockedVault.Sound (crates : VaultCrates) (phrase : IdentityPhrase) (password : Text)
    (vault : UnlockedVault) : Prop where
  keyring : vault.keyring.Valid crates.toKeyCrates phrase
  header : Nonempty (Header crates phrase password vault.header vault.dataKey)

theorem fill_eq_ok {state state' : R} {n : ℕ} {bytes : Vector UInt8 n} :
    fill rng state n = .ok (bytes, state') ↔ rng.tryFillBytes state n = .ok (bytes, state') := by
  rw [fill]
  cases rng.tryFillBytes state n with
  | error cause => exact ⟨nofun, nofun⟩
  | ok filled => simp

/-- **A wrapped key.** -/
theorem wrap_eq_ok (hlawful : crates.Lawful) {base : Bytes} {key dataKey : Bytes32} {label : String}
    {state state' : R} {part : Bytes} (haad : (slotAad base label).length ≤ cipherMax)
    (h : wrap crates rng base key label dataKey state = .ok (part, state')) :
    ∃ nonce wrapped, part = nonce ++ wrapped ∧
      Wraps crates base key label dataKey nonce wrapped := by
  simp only [wrap, Except.bind_eq_ok, Prod.exists] at h
  obtain ⟨nonce, middle, _, wrapped, hwrapped, hok⟩ := h
  cases hok
  obtain ⟨ciphertext, hencrypt, hlength, hdecrypt⟩ :=
    hlawful.encrypt key nonce.toList (slotAad base label) dataKey.toList Vector.length_toList haad
      (by rw [Vector.length_toList]; decide)
  rw [hwrapped] at hencrypt
  cases hencrypt
  rw [Vector.length_toList] at hlength
  exact ⟨nonce.toList, wrapped, rfl, Vector.length_toList, hlength, hwrapped, hdecrypt⟩

theorem base_length (salts : Vector UInt8 32) : (magic ++ suite ++ salts.toList).length = 56 := by
  rw [List.length_append, Vector.length_toList]
  rfl

/-- **A new vault** is sound. -/
theorem UnlockedVault.create_sound (hlawful : crates.Lawful) {keyring : Keyring}
    {state state' : R} {vault : UnlockedVault}
    (hkeyring : keyring.Valid crates.toKeyCrates phrase)
    (h : UnlockedVault.create crates rng keyring password state = .ok (vault, state')) :
    vault.Sound crates phrase password := by
  simp only [UnlockedVault.create, Except.bind_eq_ok, Prod.exists] at h
  obtain ⟨salts, _, _, dataKey, _, _, passwordKey, hpassword, recoveryKey, hrecovery, first, _,
    hfirst, second, _, hsecond, hok⟩ := h
  cases hok
  have haad : ∀ label : String, label.toUTF8.data.toList.length = 8 →
      (slotAad (magic ++ suite ++ salts.toList) label).length ≤ cipherMax := by
    intro label hlabel
    rw [slotAad, List.length_append, List.length_append, hlabel, base_length]
    decide
  obtain ⟨passwordNonce, passwordWrapped, rfl, hpasswordWraps⟩ :=
    wrap_eq_ok hlawful (haad _ rfl) hfirst
  obtain ⟨recoveryNonce, recoveryWrapped, rfl, hrecoveryWraps⟩ :=
    wrap_eq_ok hlawful (haad _ rfl) hsecond
  rw [hkeyring.owner] at hrecovery
  exact ⟨hkeyring, ⟨⟨salts, _, passwordKey, passwordNonce, passwordWrapped, recoveryKey,
    recoveryNonce, recoveryWrapped, rfl, hpassword, hrecovery, hpasswordWraps, hrecoveryWraps,
    rfl⟩⟩⟩

/-- An edit leaves the header alone. -/
theorem UnlockedVault.Sound.edit {vault : UnlockedVault} (h : vault.Sound crates phrase password)
    (edit : Edit) :
    UnlockedVault.Sound crates phrase password
      { vault with keyring := vault.keyring.edit crates.toKeyCrates edit } :=
  ⟨h.keyring.edit edit, h.header⟩

/-! ## Sealing -/

/-- The bytes of a sealed vault. -/
structure Seals (crates : VaultCrates) (vault : UnlockedVault) (bytes : Bytes) where
  nonce : Bytes
  plaintext : Bytes
  ciphertext : Bytes
  encoded : encode vault.keyring = .ok plaintext
  decoded : decode crates.toKeyCrates plaintext = .ok vault.keyring
  least : 24 ≤ plaintext.length
  most : plaintext.length ≤ 4308
  nonce_length : nonce.length = 12
  length : ciphertext.length = plaintext.length + 16
  decrypt : crates.decrypt vault.dataKey nonce
    (vault.header ++ nonce ++ toLe 4 ciphertext.length) ciphertext = .ok plaintext
  bytes_eq : bytes = vault.header ++ nonce ++ toLe 4 ciphertext.length ++ ciphertext

/-- A slice inside of the front. -/
theorem slice_append {xs ys : Bytes} {start stop : ℕ} (hstart : start ≤ stop)
    (h : stop ≤ xs.length) : slice (xs ++ ys) start stop = slice xs start stop := by
  rw [slice, slice, List.drop_append_of_le_length (Nat.le_trans hstart h),
    List.take_append_of_le_length]
  rw [List.length_drop]
  omega

theorem Header.length {header : Bytes} {dataKey : Bytes32}
    (h : Header crates phrase password header dataKey) : header.length = 176 := by
  rw [h.header_eq, h.base_eq]
  simp only [List.length_append, h.first.nonce_length, h.first.length, h.second.nonce_length, h.second.length,
    Vector.length_toList]
  rfl

/-- A sealed vault, part by part. -/
theorem Seals.parts {vault : UnlockedVault} {bytes : Bytes} (h : Seals crates vault bytes)
    (hheader : Header crates phrase password vault.header vault.dataKey) :
    bytes = hheader.base ++ (hheader.passwordNonce ++ (hheader.passwordWrapped ++
      (hheader.recoveryNonce ++ (hheader.recoveryWrapped ++ (h.nonce ++
        (toLe 4 h.ciphertext.length ++ h.ciphertext)))))) := by
  have hfront := congrArg (· ++ h.nonce ++ toLe 4 h.ciphertext.length ++ h.ciphertext)
    hheader.header_eq
  refine h.bytes_eq.trans (hfront.trans ?_)
  simp only [List.append_assoc]

/-- **What a vault is sealed to** is accepted. -/
theorem Seals.accepted {vault : UnlockedVault} {bytes : Bytes} (h : Seals crates vault bytes)
    (hheader : Header crates phrase password vault.header vault.dataKey) : Accepted bytes := by
  have hlength : bytes.length = 208 + h.plaintext.length := by
    refine (congrArg List.length h.bytes_eq).trans ?_
    simp only [List.length_append, hheader.length, h.nonce_length, toLe_length, h.length]
    omega
  have hleast := h.least
  have hmost := h.most
  have hfront : bytes = magic ++ (suite ++ (hheader.salts.toList ++ (hheader.passwordNonce ++
      (hheader.passwordWrapped ++ (hheader.recoveryNonce ++ (hheader.recoveryWrapped ++
      (h.nonce ++ (toLe 4 h.ciphertext.length ++ h.ciphertext)))))))) := by
    refine (h.parts hheader).trans ?_
    rw [hheader.base_eq]
    simp only [List.append_assoc]
  have hsize : slice bytes 188 192 = toLe 4 h.ciphertext.length := by
    refine slice_eq (vault.header ++ h.nonce) _ h.ciphertext ?_ ?_ (by rw [toLe_length])
    · refine h.bytes_eq.trans ?_
      simp only [List.append_assoc]
    · rw [List.length_append, hheader.length, h.nonce_length]
  exact
    { least := by
        rw [hlength, minBytes]
        omega
      most := by
        rw [hlength, maxBytes]
        omega
      magic := slice_eq [] _ _ hfront rfl rfl
      suite := slice_eq magic _ _ hfront rfl rfl
      size := by
        have hfits : h.ciphertext.length < 256 ^ 4 := by
          rw [h.length]
          omega
        rw [hsize, fromLe_toLe hfits, hlength, h.length, headerBytes]
        omega }

theorem fromBytes_eq_ok {bytes : Bytes} (h : Accepted bytes) :
    EncryptedVault.fromBytes bytes = .ok ⟨bytes, h⟩ := by
  rw [EncryptedVault.fromBytes, dif_pos ⟨h.least, h.most⟩, dif_pos ⟨h.magic, h.suite⟩,
    dif_pos h.size]

/-- **Sealing** succeeds whenever there is a nonce. -/
theorem UnlockedVault.Sound.seal (hlawful : crates.Lawful) {vault : UnlockedVault}
    (h : vault.Sound crates phrase password) {state state' : R} {nonce : Vector UInt8 12}
    (hfill : rng.tryFillBytes state 12 = .ok (nonce, state')) :
    ∃ sealed, vault.seal crates rng state = .ok (sealed, state') ∧
      Nonempty (Seals crates vault sealed.bytes) := by
  obtain ⟨header⟩ := h.header
  obtain ⟨plaintext, hencoded, hdecoded, hleast, hmost⟩ := h.keyring.decode_encode
  have hsize : tryU32 (plaintext.length + 16) = .ok (plaintext.length + 16) :=
    if_pos (Nat.le_trans (Nat.add_le_add_right hmost 16) (by decide))
  obtain ⟨ciphertext, hencrypt, hlength, hdecrypt⟩ :=
    hlawful.encrypt vault.dataKey nonce.toList
      (vault.header ++ nonce.toList ++ toLe 4 (plaintext.length + 16)) plaintext
      Vector.length_toList
      (by
        simp only [List.length_append, header.length, Vector.length_toList, toLe_length]
        decide)
      (Nat.le_trans hmost (by decide))
  rw [← hlength] at hdecrypt
  have hseals : Seals crates vault
      (vault.header ++ nonce.toList ++ toLe 4 ciphertext.length ++ ciphertext) :=
    ⟨nonce.toList, plaintext, ciphertext, hencoded, hdecoded, hleast, hmost, Vector.length_toList,
      hlength, hdecrypt, rfl⟩
  refine ⟨⟨_, hseals.accepted header⟩, ?_, ⟨hseals⟩⟩
  rw [UnlockedVault.seal, hencoded, Except.ok_bind, fill_eq_ok.mpr hfill]
  simp only [hsize, hencrypt, Except.ok_bind]
  rw [← hlength]
  simp only [fromBytes_eq_ok (hseals.accepted header), Except.ok_bind]

/-- Everything that is sealed. -/
theorem UnlockedVault.Sound.seals_of_seal (hlawful : crates.Lawful) {vault : UnlockedVault}
    (h : vault.Sound crates phrase password) {state state' : R} {sealed : EncryptedVault}
    (hseal : vault.seal crates rng state = .ok (sealed, state')) :
    Nonempty (Seals crates vault sealed.bytes) := by
  have hseal' := hseal
  simp only [UnlockedVault.seal, Except.bind_eq_ok, Prod.exists] at hseal'
  obtain ⟨_, _, nonce, _, hfill, _⟩ := hseal'
  obtain ⟨sealed', hok, hseals⟩ := h.seal hlawful (fill_eq_ok.mp hfill)
  rw [hseal] at hok
  cases hok
  exact hseals

/-! ## Unlocking -/

/-- What the parts of a sealed vault are. -/
theorem Seals.slices {vault : UnlockedVault} {bytes : Bytes} (h : Seals crates vault bytes)
    (hheader : Header crates phrase password vault.header vault.dataKey) :
    slice bytes 0 56 = hheader.base ∧ slice bytes 24 40 = slice hheader.base 24 40 ∧
      slice bytes 40 56 = slice hheader.base 40 56 ∧ slice bytes 56 68 = hheader.passwordNonce ∧
      slice bytes 68 116 = hheader.passwordWrapped ∧
      slice bytes 116 128 = hheader.recoveryNonce ∧
      slice bytes 128 176 = hheader.recoveryWrapped ∧ slice bytes 0 176 = vault.header ∧
      slice bytes 176 188 = h.nonce ∧
      slice bytes 0 192 = vault.header ++ h.nonce ++ toLe 4 h.ciphertext.length ∧
      bytes.drop 192 = h.ciphertext := by
  have hbase : hheader.base.length = 56 := by
    rw [hheader.base_eq]
    exact base_length hheader.salts
  have hlength := hheader.length
  have hparts := h.parts hheader
  have hfront : (vault.header ++ h.nonce ++ toLe 4 h.ciphertext.length).length = 192 := by
    simp only [List.length_append, hlength, h.nonce_length, toLe_length]
  have hwhole : bytes = vault.header ++ (h.nonce ++ (toLe 4 h.ciphertext.length ++
      h.ciphertext)) := by
    refine h.bytes_eq.trans ?_
    simp only [List.append_assoc]
  have hin : ∀ {start stop : ℕ}, start ≤ stop → stop ≤ 56 →
      slice bytes start stop = slice hheader.base start stop := by
    intro start stop hstart hstop
    rw [congrArg (slice · start stop) hparts]
    exact slice_append hstart (by rw [hbase]; exact hstop)
  refine ⟨?_, hin (by decide) (by decide), hin (by decide) (by decide), ?_, ?_, ?_, ?_, ?_, ?_, ?_,
    ?_⟩
  · exact slice_eq [] _ _ hparts rfl (by rw [hbase])
  · exact slice_eq hheader.base _ _ hparts hbase (by rw [hheader.first.nonce_length])
  · refine slice_eq (hheader.base ++ hheader.passwordNonce) _ _
      (hparts.trans (List.append_assoc _ _ _).symm) ?_ (by rw [hheader.first.length])
    rw [List.length_append, hbase, hheader.first.nonce_length]
  · refine slice_eq (hheader.base ++ (hheader.passwordNonce ++ hheader.passwordWrapped)) _
      (hheader.recoveryWrapped ++ (h.nonce ++ (toLe 4 h.ciphertext.length ++ h.ciphertext)))
      (hparts.trans ?_) ?_ (by rw [hheader.second.nonce_length])
    · simp only [List.append_assoc]
    · simp only [List.length_append, hbase, hheader.first.nonce_length, hheader.first.length]
  · refine slice_eq (hheader.base ++ (hheader.passwordNonce ++ hheader.passwordWrapped) ++
      hheader.recoveryNonce) _ (h.nonce ++ (toLe 4 h.ciphertext.length ++ h.ciphertext))
      (hparts.trans ?_) ?_ (by rw [hheader.second.length])
    · simp only [List.append_assoc]
    · simp only [List.length_append, hbase, hheader.first.nonce_length, hheader.first.length,
        hheader.second.nonce_length]
  · exact slice_eq [] _ _ hwhole rfl (by rw [hlength])
  · exact slice_eq vault.header _ _ hwhole hlength (by rw [h.nonce_length])
  · exact slice_eq [] _ h.ciphertext h.bytes_eq rfl (by rw [hfront])
  · rw [congrArg (List.drop 192) h.bytes_eq]
    exact List.drop_left' hfront

/-- **The password and the phrase unlock** what is sealed, to the same vault. -/
theorem Seals.unlock {vault : UnlockedVault} {sealed : EncryptedVault}
    (h : Seals crates vault sealed.bytes)
    (hsound : vault.Sound crates phrase password) {credential : UnlockCredential}
    (hcredential : credential = .password password ∨ credential = .recoveryPhrase phrase) :
    sealed.unlock crates credential = .ok vault := by
  obtain ⟨header⟩ := hsound.header
  obtain ⟨hbase, hid, hsalt, hfirstNonce, hfirst, hsecondNonce, hsecond, hheader, hnonce, hfront,
    hlast⟩ := h.slices header
  have hdataKey : tryInto 32 vault.dataKey.toList = .ok vault.dataKey := tryInto_eq_ok.mpr rfl
  -- what either credential unwraps is the data key
  have hunwrapped : ∃ key nonce wrapped label, wrappedKey crates sealed.bytes credential =
      .ok (key, nonce, wrapped, label) ∧
        crates.decrypt key nonce (slotAad header.base label) wrapped = .ok vault.dataKey.toList := by
    rcases hcredential with rfl | rfl
    · refine ⟨_, _, _, _, ?_, header.first.decrypt⟩
      rw [wrappedKey, hsalt, header.password, hfirstNonce, hfirst]
      rfl
    · refine ⟨_, _, _, _, ?_, header.second.decrypt⟩
      rw [wrappedKey, hid, header.recovery, hsecondNonce, hsecond]
      rfl
  obtain ⟨key, nonce, wrapped, label, hslot, hdecrypt⟩ := hunwrapped
  simp only [EncryptedVault.unlock, hslot, hbase, hdecrypt, hdataKey, hnonce, hfront, hlast,
    h.decrypt, h.decoded, hsound.keyring.owner, hid, header.recovery, hsecondNonce,
    header.second.encrypt, hsecond, hheader, Except.ok_bind, ne_eq, not_true_eq_false, if_false]

/-! ## Histories -/

/-- **Every history** leads to a vault that the last password and the phrase unlock. -/
theorem History.sound (hlawful : crates.Lawful) {vault : UnlockedVault}
    (h : History crates rng phrase password vault) : vault.Sound crates phrase password := by
  induction h with
  | create hreach hcreate => exact UnlockedVault.create_sound hlawful hreach.valid hcreate
  | edit edit _ ih => exact ih.edit edit
  | reopen _ hseal hcredential hunlock ih =>
      obtain ⟨hseals⟩ := ih.seals_of_seal hlawful hseal
      rw [hseals.unlock ih hcredential] at hunlock
      cases hunlock
      exact ih
  | resetPassword _ hreset ih => exact UnlockedVault.create_sound hlawful ih.keyring hreset

/-- **Identity vaults survive every history.** Every keyring that edits reach is decoded from what it
is encoded to, every vault that a history leads to is sealed within the limits and unlocked again by
the password and by the phrase, and nothing else is decoded than what keyrings are encoded to. -/
theorem identity_vaults_survive (hlawful : crates.Lawful) (rng : Rng R) (phrase : IdentityPhrase) :
    (∀ keyring, Keyring.Reachable crates.toKeyCrates phrase keyring →
      ∃ bytes, encode keyring = .ok bytes ∧ decode crates.toKeyCrates bytes = .ok keyring) ∧
    (∀ password vault, History crates rng phrase password vault →
      vault.keyring.phrase = phrase ∧
      (∃ bytes, encode vault.keyring = .ok bytes ∧
        decode crates.toKeyCrates bytes = .ok vault.keyring) ∧
      ∀ state nonce state', rng.tryFillBytes state 12 = .ok (nonce, state') →
        ∃ sealed, vault.seal crates rng state = .ok (sealed, state') ∧
          minBytes ≤ sealed.bytes.length ∧ sealed.bytes.length ≤ maxBytes ∧
          EncryptedVault.fromBytes sealed.bytes = .ok sealed ∧
          sealed.unlock crates (.password password) = .ok vault ∧
          sealed.unlock crates (.recoveryPhrase phrase) = .ok vault) ∧
    ∀ bytes keyring, decode crates.toKeyCrates bytes = .ok keyring → encode keyring = .ok bytes := by
  refine ⟨?_, ?_, fun bytes keyring hdecode => encode_of_decode hdecode⟩
  · intro keyring hreach
    obtain ⟨bytes, hencoded, hdecoded, _, _⟩ := hreach.valid.decode_encode
    exact ⟨bytes, hencoded, hdecoded⟩
  · intro password vault hhistory
    have hsound := hhistory.sound hlawful
    obtain ⟨bytes, hencoded, hdecoded, _, _⟩ := hsound.keyring.decode_encode
    refine ⟨hsound.keyring.owner, ⟨bytes, hencoded, hdecoded⟩, ?_⟩
    intro state nonce state' hfill
    obtain ⟨sealed, hseal, ⟨hseals⟩⟩ := hsound.seal hlawful hfill
    exact ⟨sealed, hseal, sealed.accepted.least, sealed.accepted.most,
      fromBytes_eq_ok sealed.accepted, hseals.unlock hsound (.inl rfl),
      hseals.unlock hsound (.inr rfl)⟩

end

/-! ## A vault -/

namespace Sample

/-- AES-256-GCM and HKDF as they are, and the derivations of keys cut short. -/
def crates : VaultCrates where
  seed phrase := .ok (.ofFn fun i => phrase.get ⟨i.val % 16, Nat.mod_lt _ (by decide)⟩)
  newMaster seed := .ok { privateKey := seed.take 32, chainCode := seed.drop 32, depth := 0 }
  hmac _ _ := .replicate 64 1
  scalar tweak := some tweak
  addTweak _ tweak := some tweak
  keypair _ := .ok ()
  hashPassword password salt := .ok (Sha256.hmac salt password)
  expand salt secret info := .ok (Sha256.hkdf salt secret info 32)
  encrypt key nonce aad plaintext := .ok (Gcm.encrypt key nonce aad plaintext)
  decrypt key nonce aad ciphertext :=
    match Gcm.decrypt key nonce aad ciphertext with
    | some plaintext => .ok plaintext
    | none => .error .aead

theorem crates_lawful : crates.Lawful where
  encrypt key nonce aad plaintext _ _ _ := by
    refine ⟨_, rfl, Gcm.encrypt_length key nonce aad plaintext, ?_⟩
    show (match Gcm.decrypt key nonce aad _ with
      | some plaintext => Except.ok plaintext
      | none => .error IdentityError.aead) = _
    rw [Gcm.decrypt_encrypt]

def rng : Rng ℕ where
  tryFillBytes state n := .ok (.replicate n (UInt8.ofNat state), state + 1)

def phrase : IdentityPhrase :=
  .replicate 16 7

def keyring : Keyring where
  phrase := phrase
  root := { privateKey := .replicate 32 7, chainCode := .replicate 32 7, depth := 0 }
  entries := [⟨⟨0, by decide⟩, textOf "alice"⟩]
  active := ⟨0, by decide⟩

theorem created : Keyring.create crates.toKeyCrates phrase (textOf "alice") = .ok keyring := by
  rfl

end Sample

/-- A new identity is unlocked again, by its password and by its phrase. -/
theorem identity_vaults_survive_sample :
    ∃ (vault : UnlockedVault) (sealed : EncryptedVault) (state : ℕ), vault.keyring = Sample.keyring ∧
      vault.seal Sample.crates Sample.rng 5 = .ok (sealed, state) ∧
      sealed.unlock Sample.crates (.password (textOf "correct horse")) = .ok vault ∧
      sealed.unlock Sample.crates (.recoveryPhrase Sample.phrase) = .ok vault := by
  obtain ⟨vault, state, hkeyring, hcreate⟩ : ∃ (vault : UnlockedVault) (state : ℕ), vault.keyring = Sample.keyring ∧
      UnlockedVault.create Sample.crates Sample.rng Sample.keyring (textOf "correct horse") 0 =
        .ok (vault, state) := ⟨_, _, rfl, rfl⟩
  obtain ⟨_, hhistory, _⟩ := identity_vaults_survive Sample.crates_lawful Sample.rng Sample.phrase
  have hvault := History.create (.create (textOf "alice") Sample.created) hcreate
  obtain ⟨_, _, hseal⟩ := hhistory _ vault hvault
  obtain ⟨sealed, hsealed, _, _, _, hpassword, hphrase⟩ := hseal 5 _ _ rfl
  exact ⟨vault, sealed, _, hkeyring, hsealed, hpassword, hphrase⟩

end Urma.Identity
