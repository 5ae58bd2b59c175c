import Urma.Core.Crypto
import Urma.Identity.Keyring

/-!
# Identity vaults

`urma_identity::vault`: a keyring is encoded and encrypted under a random data key, which the header
holds twice, wrapped under a key of the password and under one of the phrase. Ciphers and key
derivations are those of other crates.
-/

namespace Urma.Identity

open Lib Lib.Layout

/-! ## The payload -/

/-- `u8::try_from(usize)`. -/
def tryU8 (value : ℕ) : Except IdentityError UInt8 :=
  if value ≤ u8Max then .ok (UInt8.ofNat value) else .error .integer

/-- The loop of `payload::encode`. -/
def encodeEntries : List NamedIdentity → Except IdentityError Bytes
  | [] => .ok []
  | entry :: entries => do
      let length ← tryU8 entry.name.len
      let rest ← encodeEntries entries
      .ok (toLe 2 entry.slot.index ++ length :: entry.name.bytes ++ rest)

/-- `payload::encode`. -/
def encode (keyring : Keyring) : Except IdentityError Bytes := do
  let count ← tryU16 keyring.entries.length
  let entries ← encodeEntries keyring.entries
  .ok (toLe 2 count ++ toLe 2 keyring.active.index ++ keyring.phrase.toList ++ entries)

/-- `bytes.get(start..stop)`, or the vault is invalid. -/
def get (bytes : Bytes) (start stop : ℕ) : Except IdentityError Bytes :=
  if stop ≤ bytes.length then .ok (slice bytes start stop) else .error .invalidVault

/-- `std::str::from_utf8`. -/
def fromUtf8 (bytes : Bytes) : Except IdentityError Text :=
  match Text.fromUtf8 bytes with
  | .ok text => .ok text
  | .error _ => .error .utf8

/-- The loop of `payload::decode`, with the entries that remain. -/
def decodeEntries (bytes : Bytes) : ℕ → ℕ → ℕ → Keyring → Except IdentityError (Keyring × ℕ)
  | 0, _, offset, keyring => .ok (keyring, offset)
  | remaining + 1, index, offset, keyring => do
      let head ← get bytes offset (offset + 3)
      if fromLe (head.take 2) ≠ index then .error .invalidVault
      else do
        let length := (head.getD 2 0).toNat
        let raw ← get bytes (offset + 3) (offset + 3 + length)
        let name ← fromUtf8 raw
        let keyring ← keyring.push name
        decodeEntries bytes remaining (index + 1) (offset + 3 + length) keyring

/-- `<[u8; n]>::try_from(&[u8])`. -/
def tryInto (n : ℕ) (bytes : Bytes) : Except IdentityError (Vector UInt8 n) :=
  if h : bytes.length = n then .ok ⟨bytes.toArray, h⟩ else .error .slice

/-- `payload::decode`. -/
def decode (crates : KeyCrates) (bytes : Bytes) : Except IdentityError Keyring :=
  if bytes.length < 20 then .error .invalidVault
  else do
    let count := fromLe (slice bytes 0 2)
    let active ← IdentitySlot.new (fromLe (slice bytes 2 4))
    if count = 0 ∨ slotCapacity < count ∨ count ≤ active.index then .error .invalidVault
    else do
      let phrase ← tryInto 16 (slice bytes 4 20)
      let keyring ← Keyring.empty crates phrase
      let (keyring, offset) ← decodeEntries bytes count 0 20 keyring
      if offset ≠ bytes.length then .error .invalidVault
      else .ok { keyring with active }

/-! ## Ciphers -/

/-- What the vault takes from other crates. -/
structure VaultCrates extends KeyCrates where
  /-- `hash_password_into_with_memory` of Argon2id, of a password and a salt. -/
  hashPassword : Bytes → Bytes → Except IdentityError Bytes32
  /-- `Hkdf::<Sha256>`, of a salt, a secret and what the key is for. -/
  expand : Bytes → Bytes → Bytes → Except IdentityError Bytes32
  /-- `Aes256Gcm::encrypt_in_place`, of a key, a nonce, associated data and a plaintext. -/
  encrypt : Bytes32 → Bytes → Bytes → Bytes → Except IdentityError Bytes
  /-- `Aes256Gcm::decrypt_in_place`. -/
  decrypt : Bytes32 → Bytes → Bytes → Bytes → Except IdentityError Bytes

/-- The most bytes that are encrypted, and that are associated: `1 << 36`. -/
def cipherMax : ℕ := 2 ^ 36

/-- What the code relies on: what was encrypted is decrypted under the same key, nonce and
associated data, and the tag takes 16 bytes. -/
structure VaultCrates.Lawful (crates : VaultCrates) : Prop where
  encrypt : ∀ key nonce aad plaintext, nonce.length = 12 → aad.length ≤ cipherMax →
    plaintext.length ≤ cipherMax →
      ∃ ciphertext, crates.encrypt key nonce aad plaintext = .ok ciphertext ∧
        ciphertext.length = plaintext.length + 16 ∧
        crates.decrypt key nonce aad ciphertext = .ok plaintext

section

variable (crates : VaultCrates)

/-- `crypto::password_key`. -/
def passwordKey (password : Text) (salt : Bytes) : Except IdentityError Bytes32 :=
  if 12 ≤ password.len ∧ password.len ≤ 1024 then crates.hashPassword password.bytes salt
  else .error .invalidPassword

/-- `crypto::recovery_key`. -/
def recoveryKey (phrase : IdentityPhrase) (id : Bytes) : Except IdentityError Bytes32 := do
  let seed ← crates.seed phrase
  crates.expand id seed.toList "URMA/vault/v2/recovery-wrap".toUTF8.data.toList

/-- `slot_aad`. -/
def slotAad (base : Bytes) (label : String) : Bytes :=
  base ++ "URMA/vault/v2/".toUTF8.data.toList ++ label.toUTF8.data.toList

/-! ## Vaults -/

/-- `EncryptedVault::HEADER_BYTES`. -/
def headerBytes : ℕ := 192

/-- `EncryptedVault::MIN_BYTES`. -/
def minBytes : ℕ := 232

/-- `EncryptedVault::MAX_BYTES`. -/
def maxBytes : ℕ := 4516

/-- `EncryptedVault::MAGIC`: `URMAVLT` and a zero. -/
def magic : Bytes := [0x55, 0x52, 0x4d, 0x41, 0x56, 0x4c, 0x54, 0]

/-- `EncryptedVault::SUITE`. -/
def suite : Bytes := [2, 0, 0, 0, 0, 0, 1, 0, 3, 0, 0, 0, 4, 0, 0, 0]

/-- What `EncryptedVault::from_bytes` accepts. -/
structure Accepted (bytes : Bytes) : Prop where
  least : minBytes ≤ bytes.length
  most : bytes.length ≤ maxBytes
  magic : slice bytes 0 8 = Identity.magic
  suite : slice bytes 8 24 = Identity.suite
  size : fromLe (slice bytes 188 192) = bytes.length - headerBytes

/-- `EncryptedVault`. -/
structure EncryptedVault where
  bytes : Bytes
  accepted : Accepted bytes

/-- `UnlockedVault`. -/
structure UnlockedVault where
  keyring : Keyring
  header : Bytes
  dataKey : Bytes32

/-- `UnlockCredential`. -/
inductive UnlockCredential where
  | password (password : Text)
  | recoveryPhrase (phrase : IdentityPhrase)

/-- `EncryptedVault::from_bytes`. -/
def EncryptedVault.fromBytes (bytes : Bytes) : Except IdentityError EncryptedVault :=
  if hlength : minBytes ≤ bytes.length ∧ bytes.length ≤ maxBytes then
    if hmagic : slice bytes 0 8 = magic ∧ slice bytes 8 24 = suite then
      if hsize : fromLe (slice bytes 188 192) = bytes.length - headerBytes then
        .ok ⟨bytes, ⟨hlength.1, hlength.2, hmagic.1, hmagic.2, hsize⟩⟩
      else .error .invalidVault
    else .error .unsupportedVersion
  else .error .invalidVault

/-- The key of a credential, and what of the header it unwraps. -/
def wrappedKey (bytes : Bytes) :
    UnlockCredential → Except IdentityError (Bytes32 × Bytes × Bytes × String)
  | .password password => do
      let key ← passwordKey crates password (slice bytes 40 56)
      .ok (key, slice bytes 56 68, slice bytes 68 116, "password")
  | .recoveryPhrase phrase => do
      let key ← recoveryKey crates phrase (slice bytes 24 40)
      .ok (key, slice bytes 116 128, slice bytes 128 176, "recovery")

/-- `EncryptedVault::unlock`. -/
def EncryptedVault.unlock (vault : EncryptedVault) (credential : UnlockCredential) :
    Except IdentityError UnlockedVault := do
  let bytes := vault.bytes
  let (key, nonce, wrapped, label) ← wrappedKey crates bytes credential
  let rawKey ← crates.decrypt key nonce (slotAad (slice bytes 0 56) label) wrapped
  let dataKey ← tryInto 32 rawKey
  let plaintext ← crates.decrypt dataKey (slice bytes 176 188) (slice bytes 0 192) (bytes.drop 192)
  let keyring ← decode crates.toKeyCrates plaintext
  let key ← recoveryKey crates keyring.phrase (slice bytes 24 40)
  let expected ← crates.encrypt key (slice bytes 116 128)
    (slotAad (slice bytes 0 56) "recovery") dataKey.toList
  if expected ≠ slice bytes 128 176 then .error .authentication
  else .ok { keyring, header := slice bytes 0 176, dataKey }

variable {R : Type} (rng : Rng R)

/-- `try_fill_bytes`. -/
def fill (state : R) (n : ℕ) : Except IdentityError (Vector UInt8 n × R) :=
  match rng.tryFillBytes state n with
  | .ok filled => .ok filled
  | .error _ => .error .random

/-- A round of the loop of `UnlockedVault::create`: a nonce, and the data key under a key. -/
def wrap (base : Bytes) (key : Bytes32) (label : String) (dataKey : Bytes32) (state : R) :
    Except IdentityError (Bytes × R) := do
  let (nonce, state) ← fill rng state 12
  let wrapped ← crates.encrypt key nonce.toList (slotAad base label) dataKey.toList
  .ok (nonce.toList ++ wrapped, state)

/-- `UnlockedVault::create`. -/
def UnlockedVault.create (keyring : Keyring) (password : Text) (state : R) :
    Except IdentityError (UnlockedVault × R) := do
  let (salts, state) ← fill rng state 32
  let base := magic ++ suite ++ salts.toList
  let (dataKey, state) ← fill rng state 32
  let passwordKey ← passwordKey crates password (slice base 40 56)
  let recoveryKey ← recoveryKey crates keyring.phrase (slice base 24 40)
  let (first, state) ← wrap crates rng base passwordKey "password" dataKey state
  let (second, state) ← wrap crates rng base recoveryKey "recovery" dataKey state
  .ok ({ keyring, header := base ++ first ++ second, dataKey }, state)

/-- `u32::try_from(usize)`. -/
def tryU32 (value : ℕ) : Except IdentityError ℕ :=
  if value ≤ u32Max then .ok value else .error .integer

/-- `UnlockedVault::seal`. -/
def UnlockedVault.seal (vault : UnlockedVault) (state : R) :
    Except IdentityError (EncryptedVault × R) := do
  let plaintext ← encode vault.keyring
  let (nonce, state) ← fill rng state 12
  let size ← tryU32 (plaintext.length + 16)
  let header := vault.header ++ nonce.toList ++ toLe 4 size
  let ciphertext ← crates.encrypt vault.dataKey nonce.toList header plaintext
  let sealed ← EncryptedVault.fromBytes (header ++ ciphertext)
  .ok (sealed, state)

/-- `UnlockedVault::reset_password`. -/
def UnlockedVault.resetPassword (vault : UnlockedVault) (password : Text) (state : R) :
    Except IdentityError (UnlockedVault × R) :=
  create crates rng vault.keyring password state

/-! ## Histories -/

/-- The unlocked vaults of a phrase, each with its last password, that any history of edits,
resealing, unlocking and resetting of the password leads to. -/
inductive History (phrase : IdentityPhrase) : Text → UnlockedVault → Prop where
  | create {keyring password state vault state'}
      (hreach : Keyring.Reachable crates.toKeyCrates phrase keyring)
      (h : UnlockedVault.create crates rng keyring password state = .ok (vault, state')) :
      History phrase password vault
  | edit {password vault} (edit : Edit) (hvault : History phrase password vault) :
      History phrase password { vault with keyring := vault.keyring.edit crates.toKeyCrates edit }
  | reopen {password vault state sealed state' credential opened}
      (hvault : History phrase password vault)
      (hseal : vault.seal crates rng state = .ok (sealed, state'))
      (hcredential : credential = .password password ∨ credential = .recoveryPhrase phrase)
      (h : sealed.unlock crates credential = .ok opened) : History phrase password opened
  | resetPassword {password vault password' state vault' state'}
      (hvault : History phrase password vault)
      (h : vault.resetPassword crates rng password' state = .ok (vault', state')) :
      History phrase password' vault'

end

end Urma.Identity
