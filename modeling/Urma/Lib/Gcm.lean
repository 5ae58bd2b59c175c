import Urma.Lib.Aes256
import Urma.Lib.Layout

/-!
# AES-256-GCM

The authenticated encryption of the Galois/Counter Mode, for nonces of twelve bytes: the counter
mode under the nonce, and a tag over the associated data and the ciphertext. What was encrypted is
decrypted, and the tag takes sixteen bytes.
-/

namespace Urma.Lib.Gcm

open Layout

/-- A block as a number, the first byte on top. -/
def blockOf (bytes : List UInt8) : BitVec 128 :=
  BitVec.ofNat 128 (fromLe bytes.reverse)

/-- The bytes of a block. -/
def bytesOf (block : BitVec 128) : List UInt8 :=
  toBe 16 block.toNat

/-- One bit of the product: what is added so far, and the next multiple. -/
def mulStep (x : BitVec 128) (acc : BitVec 128 × BitVec 128) (i : ℕ) : BitVec 128 × BitVec 128 :=
  (if x.getMsbD i then acc.1 ^^^ acc.2 else acc.1,
    if acc.2.getLsbD 0 then (acc.2 >>> 1) ^^^ (0xe1#128 <<< 120) else acc.2 >>> 1)

/-- The product in the field of 2^128 elements, bits in the order of GCM. -/
def mul (x y : BitVec 128) : BitVec 128 :=
  ((List.range 128).foldl (mulStep x) (0, y)).1

/-- Zeros up to a whole number of blocks. -/
def padded (bytes : List UInt8) : List UInt8 :=
  bytes ++ List.replicate ((16 - bytes.length % 16) % 16) 0

/-- `GHASH` of the padded associated data, the padded ciphertext and their lengths in bits. -/
def ghash (h : BitVec 128) (aad ciphertext : List UInt8) : BitVec 128 :=
  (chunks 16 (padded aad ++ padded ciphertext ++ toBe 8 (8 * aad.length) ++
    toBe 8 (8 * ciphertext.length))).foldl (fun y block => mul (y ^^^ blockOf block) h) 0

/-- The counter block of a nonce, padded where the nonce is not twelve bytes. -/
def counterBlock (nonce : List UInt8) (count : UInt8) : Vector UInt8 16 :=
  Vector.ofFn fun i => (nonce.take 12 ++ [0, 0, 0, count]).getD i 0

/-- The tag of a ciphertext. -/
def tag (key : Vector UInt8 32) (nonce aad ciphertext : List UInt8) : List UInt8 :=
  let h := blockOf (Aes256.encrypt key (List.replicate 16 0))
  bytesOf (ghash h aad ciphertext ^^^ blockOf (Aes256.encrypt key (counterBlock nonce 1).toList))

/-- Encryption: the ciphertext, then the tag. -/
def encrypt (key : Vector UInt8 32) (nonce aad plaintext : List UInt8) : List UInt8 :=
  let ciphertext := Aes256.ctr key (counterBlock nonce 2) plaintext
  ciphertext ++ tag key nonce aad ciphertext

/-- Decryption, when the tag is right. -/
def decrypt (key : Vector UInt8 32) (nonce aad bytes : List UInt8) : Option (List UInt8) :=
  let ciphertext := bytes.take (bytes.length - 16)
  if bytes.drop (bytes.length - 16) = tag key nonce aad ciphertext then
    some (Aes256.ctr key (counterBlock nonce 2) ciphertext)
  else none

example : encrypt (Vector.replicate 32 0) (List.replicate 12 0) [] [] =
    [0x53, 0x0f, 0x8a, 0xfb, 0xc7, 0x45, 0x36, 0xb9, 0xa9, 0x63, 0xb4, 0xf1, 0xc4, 0xcb, 0x73,
      0x8b] := by decide +kernel

theorem tag_length (key : Vector UInt8 32) (nonce aad ciphertext : List UInt8) :
    (tag key nonce aad ciphertext).length = 16 := by
  simp only [tag, bytesOf, toBe_length]

theorem encrypt_length (key : Vector UInt8 32) (nonce aad plaintext : List UInt8) :
    (encrypt key nonce aad plaintext).length = plaintext.length + 16 := by
  rw [encrypt, List.length_append, tag_length, Aes256.ctr_length]

/-- **What was encrypted is decrypted** under the same key, nonce and associated data. -/
theorem decrypt_encrypt (key : Vector UInt8 32) (nonce aad plaintext : List UInt8) :
    decrypt key nonce aad (encrypt key nonce aad plaintext) = some plaintext := by
  have hlength : (Aes256.ctr key (counterBlock nonce 2) plaintext).length =
      (encrypt key nonce aad plaintext).length - 16 := by
    rw [encrypt_length, Aes256.ctr_length, Nat.add_sub_cancel]
  rw [decrypt, ← hlength, encrypt]
  simp only [List.take_left' rfl, List.drop_left' rfl, if_true, Aes256.ctr_ctr]

end Urma.Lib.Gcm
