import Urma.Core.Bytes
import Urma.Lib.Aes256
import Urma.Lib.Sha256

/-!
# The cryptographic primitives

The hash, the message authentication code, the key derivation and the stream cipher come from
other crates. They are parameters here: a `Crypto` gives one function for each, and
`Crypto.Lawful` says what the code relies on. The standard primitives satisfy it. The random
source of a caller is a parameter too.
-/

namespace Urma

/-- The primitives `urma_core::container` uses. -/
structure Crypto where
  /-- `Sha256::digest`. -/
  sha256 : Bytes → Bytes32
  /-- `Hmac::<Sha256>`: the code of a message under a 32-byte key. -/
  hmac : Bytes32 → Bytes → Bytes32
  /-- `Hkdf::<Sha256>::new(Some(salt), ikm).expand(info, output)`, for an output of `n` bytes. -/
  hkdf : Bytes → Bytes → Bytes → (n : ℕ) → Except Error (Vector UInt8 n)
  /-- `Ctr128BE::<Aes256>::new(key, iv).apply_keystream(data)`. -/
  ctr : Bytes32 → Vector UInt8 16 → Bytes → Bytes

/-- What the code relies on: a derived key of at most 255 blocks is never refused, and the
stream cipher keeps lengths and undoes itself under the same key and counter. -/
structure Crypto.Lawful (crypto : Crypto) : Prop where
  hkdf_expands : ∀ (salt ikm info : Bytes) (n : ℕ), n ≤ 255 * 32 →
    ∃ output, crypto.hkdf salt ikm info n = .ok output
  ctr_length : ∀ (key : Bytes32) (iv : Vector UInt8 16) (data : Bytes),
    (crypto.ctr key iv data).length = data.length
  ctr_involutive : ∀ (key : Bytes32) (iv : Vector UInt8 16) (data : Bytes),
    crypto.ctr key iv (crypto.ctr key iv data) = data

/-- The primitives the crate names. -/
def Crypto.standard : Crypto where
  sha256 := Lib.Sha256.hash
  hmac key message := Lib.Sha256.hmac key.toList message
  hkdf salt ikm info n :=
    if n ≤ 255 * 32 then .ok (Lib.Sha256.hkdf salt ikm info n) else .error .kdf
  ctr := Lib.Aes256.ctr

theorem Crypto.standard_lawful : Crypto.standard.Lawful where
  hkdf_expands _ _ _ _ h := ⟨_, if_pos h⟩
  ctr_length := Lib.Aes256.ctr_length
  ctr_involutive := Lib.Aes256.ctr_ctr

/-- `RngCore::try_fill_bytes` of a random source with states in `R`: the bytes it writes into a
buffer of `n` bytes, and the state it is left in. -/
structure Rng (R : Type) where
  tryFillBytes : R → (n : ℕ) → Except Error (Vector UInt8 n × R)

end Urma
