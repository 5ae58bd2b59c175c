import Urma.Lib.Layout

/-!
# SHA-256, HMAC and HKDF

The standard hash over byte strings, the message authentication code built from it, and the key
derivation built from that. Outputs have their length in their type.
-/

namespace Urma.Lib.Sha256

open Layout

/-! ## The compression function -/

def roundConstants : List UInt32 :=
  [0x428a2f98, 0x71374491, 0xb5c0fbcf, 0xe9b5dba5, 0x3956c25b, 0x59f111f1, 0x923f82a4,
    0xab1c5ed5, 0xd807aa98, 0x12835b01, 0x243185be, 0x550c7dc3, 0x72be5d74, 0x80deb1fe,
    0x9bdc06a7, 0xc19bf174, 0xe49b69c1, 0xefbe4786, 0x0fc19dc6, 0x240ca1cc, 0x2de92c6f,
    0x4a7484aa, 0x5cb0a9dc, 0x76f988da, 0x983e5152, 0xa831c66d, 0xb00327c8, 0xbf597fc7,
    0xc6e00bf3, 0xd5a79147, 0x06ca6351, 0x14292967, 0x27b70a85, 0x2e1b2138, 0x4d2c6dfc,
    0x53380d13, 0x650a7354, 0x766a0abb, 0x81c2c92e, 0x92722c85, 0xa2bfe8a1, 0xa81a664b,
    0xc24b8b70, 0xc76c51a3, 0xd192e819, 0xd6990624, 0xf40e3585, 0x106aa070, 0x19a4c116,
    0x1e376c08, 0x2748774c, 0x34b0bcb5, 0x391c0cb3, 0x4ed8aa4a, 0x5b9cca4f, 0x682e6ff3,
    0x748f82ee, 0x78a5636f, 0x84c87814, 0x8cc70208, 0x90befffa, 0xa4506ceb, 0xbef9a3f7,
    0xc67178f2]

/-- The eight working words. -/
structure State where
  a : UInt32
  b : UInt32
  c : UInt32
  d : UInt32
  e : UInt32
  f : UInt32
  g : UInt32
  h : UInt32

def State.initial : State :=
  ⟨0x6a09e667, 0xbb67ae85, 0x3c6ef372, 0xa54ff53a, 0x510e527f, 0x9b05688c, 0x1f83d9ab,
    0x5be0cd19⟩

def rotr (x : UInt32) (n : UInt32) : UInt32 :=
  (x >>> n) ||| (x <<< (32 - n))

/-- The next `count` words of the schedule; the words so far, newest first. -/
def extendSchedule : ℕ → List UInt32 → List UInt32
  | 0, words => words
  | count + 1, words =>
      let w₂ := words.getD 1 0
      let w₁₅ := words.getD 14 0
      let s₀ := rotr w₁₅ 7 ^^^ rotr w₁₅ 18 ^^^ (w₁₅ >>> 3)
      let s₁ := rotr w₂ 17 ^^^ rotr w₂ 19 ^^^ (w₂ >>> 10)
      extendSchedule count ((words.getD 15 0 + s₀ + words.getD 6 0 + s₁) :: words)

/-- One round, on a round constant and a word of the schedule. -/
def round (s : State) (input : UInt32 × UInt32) : State :=
  let s₁ := rotr s.e 6 ^^^ rotr s.e 11 ^^^ rotr s.e 25
  let ch := (s.e &&& s.f) ^^^ (~~~s.e &&& s.g)
  let t₁ := s.h + s₁ + ch + input.1 + input.2
  let s₀ := rotr s.a 2 ^^^ rotr s.a 13 ^^^ rotr s.a 22
  let maj := (s.a &&& s.b) ^^^ (s.a &&& s.c) ^^^ (s.b &&& s.c)
  ⟨t₁ + (s₀ + maj), s.a, s.b, s.c, s.d + t₁, s.e, s.f, s.g⟩

/-- The word four bytes write, most significant first. -/
def word (bytes : List UInt8) : UInt32 :=
  UInt32.ofNat (fromLe bytes.reverse)

/-- One block of 64 bytes. -/
def compress (s : State) (block : List UInt8) : State :=
  let words := (blocks 4 16 block).map word
  let schedule := (extendSchedule 48 words.reverse).reverse
  let t := (roundConstants.zip schedule).foldl round s
  ⟨s.a + t.a, s.b + t.b, s.c + t.c, s.d + t.d, s.e + t.e, s.f + t.f, s.g + t.g, s.h + t.h⟩

/-! ## The hash -/

/-- The message, a one bit, zeros up to a whole number of blocks, and the length in bits. -/
def pad (message : List UInt8) : List UInt8 :=
  message ++ 0x80 :: List.replicate ((119 - message.length % 64) % 64) 0 ++
    toBe 8 (8 * message.length)

def State.digest (s : State) : Vector UInt8 32 :=
  ⟨(toBe 4 s.a.toNat ++ toBe 4 s.b.toNat ++ toBe 4 s.c.toNat ++ toBe 4 s.d.toNat ++
    toBe 4 s.e.toNat ++ toBe 4 s.f.toNat ++ toBe 4 s.g.toNat ++ toBe 4 s.h.toNat).toArray,
    by simp⟩

/-- SHA-256. -/
def hash (message : List UInt8) : Vector UInt8 32 :=
  ((asChunks 64 (pad message)).foldl compress State.initial).digest

example : (hash [97, 98, 99]).toList.take 4 = [0xba, 0x78, 0x16, 0xbf] := by decide +kernel

/-! ## Message authentication -/

/-- A key as one block: hashed first when it is longer than that. -/
def keyBlock (key : List UInt8) : List UInt8 :=
  let short := if key.length ≤ 64 then key else (hash key).toList
  short ++ List.replicate (64 - short.length) 0

/-- HMAC over SHA-256. -/
def hmac (key message : List UInt8) : Vector UInt8 32 :=
  let block := keyBlock key
  let inner := hash (block.map (· ^^^ 0x36) ++ message)
  hash (block.map (· ^^^ 0x5c) ++ inner.toList)

/-! ## Key derivation -/

/-- The blocks of the output, each the code of the one before it, the info and its number. -/
def expandBlock (key info : List UInt8) : ℕ → Vector UInt8 32
  | 0 => hmac key (info ++ [1])
  | i + 1 => hmac key ((expandBlock key info i).toList ++ info ++ [UInt8.ofNat (i + 2)])

/-- HKDF over SHA-256: the first `n` bytes of the blocks. -/
def hkdf (salt material info : List UInt8) (n : ℕ) : Vector UInt8 n :=
  let key := (hmac salt material).toList
  Vector.ofFn fun i : Fin n => (expandBlock key info (i / 32)).toList.getD (i % 32) 0

example : (hkdf ((List.range 13).map UInt8.ofNat) (List.replicate 22 0x0b)
    ((List.range 10).map fun i => UInt8.ofNat (0xf0 + i)) 4).toList =
    [0x3c, 0xb2, 0x5f, 0x25] := by decide +kernel

end Urma.Lib.Sha256
