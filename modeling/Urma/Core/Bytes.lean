import Std.Data.ExtTreeMap
import Urma.Core.Error
import Urma.Lib.Layout

/-!
# Byte strings, fixed arrays, transaction ids and keys

A byte string is a list of bytes; a fixed array is a vector, so its length is part of its type.
The conversions are the standard library's `try_into` and `try_from`, with the errors they
become under `?`. Fixed arrays are compared byte by byte, which is how the source's `BTreeMap`s
order them.
-/

namespace Urma

open Std

/-- A byte string (`&[u8]`, `Vec<u8>`). -/
abbrev Bytes := List UInt8

/-- `[u8; 32]`. -/
abbrev Bytes32 := Vector UInt8 32

instance : TransOrd Bytes32 := Vector.instTransOrd

/-- `bitcoin::Txid`, as its internal byte array. -/
structure Txid where
  bytes : Bytes32
  deriving DecidableEq

/-- `bitcoin::XOnlyPublicKey`, as its 32-byte serialization. -/
structure XOnlyPublicKey where
  serialize : Bytes32
  deriving DecidableEq

/-! ## Conversions -/

/-- `<[u8; n]>::try_from(&[u8])`. -/
def tryInto (n : ℕ) (bytes : Bytes) : Except Error (Vector UInt8 n) :=
  if h : bytes.length = n then .ok ⟨bytes.toArray, h⟩ else .error .slice

/-- `u8::try_from(usize)`, the byte itself. -/
def tryU8 (value : ℕ) : Except Error UInt8 :=
  if value ≤ u8Max then .ok (UInt8.ofNat value) else .error .integer

/-- `u32::try_from(usize)`. -/
def tryU32 (value : ℕ) : Except Error ℕ :=
  if value ≤ u32Max then .ok value else .error .integer

/-- `u16::try_from(usize)`. -/
def tryU16 (value : ℕ) : Except Error ℕ :=
  if value ≤ u16Max then .ok value else .error .integer

theorem tryInto_eq_ok {n : ℕ} {bytes : Bytes} {array : Vector UInt8 n} :
    tryInto n bytes = .ok array ↔ bytes = array.toList := by
  rw [tryInto]
  split
  · next h =>
      constructor
      · intro heq; cases heq; rfl
      · intro heq
        cases heq
        rfl
  · next h =>
      constructor
      · intro heq; cases heq
      · intro heq
        rw [heq, Vector.length_toList] at h
        exact absurd rfl h

@[simp] theorem tryInto_toList {n : ℕ} (array : Vector UInt8 n) :
    tryInto n array.toList = .ok array :=
  tryInto_eq_ok.mpr rfl

theorem tryInto_of_length {n : ℕ} {bytes : Bytes} (h : bytes.length = n) :
    ∃ array : Vector UInt8 n, tryInto n bytes = .ok array ∧ bytes = array.toList :=
  ⟨⟨bytes.toArray, h⟩, dif_pos h, rfl⟩

theorem tryU8_eq_ok {value : ℕ} {byte : UInt8} :
    tryU8 value = .ok byte ↔ byte.toNat = value := by
  rw [tryU8]
  split
  · next h =>
      have hbyte : (UInt8.ofNat value).toNat = value := UInt8.toNat_ofNat_of_lt' (by
        simp only [u8Max] at h
        show value < 256
        omega)
      constructor
      · intro heq
        cases heq
        exact hbyte
      · intro heq
        rw [← UInt8.toNat_inj.mp (hbyte.trans heq.symm)]
  · next h =>
      have hbyte := byte.toNat_lt
      simp only [u8Max] at h
      constructor
      · intro heq
        cases heq
      · intro heq
        omega

theorem tryU32_eq_ok {value result : ℕ} :
    tryU32 value = .ok result ↔ value ≤ u32Max ∧ result = value := by
  rw [tryU32]
  split
  · next h => simp [h, eq_comm]
  · next h => simp [h]

theorem tryU16_eq_ok {value result : ℕ} :
    tryU16 value = .ok result ↔ value ≤ u16Max ∧ result = value := by
  rw [tryU16]
  split
  · next h => simp [h, eq_comm]
  · next h => simp [h]

/-! ## Byte orders -/

section Order

instance : Ord Txid := ⟨fun a b => compare a.bytes b.bytes⟩

instance : LawfulEqOrd Txid where
  compare_self := ReflOrd.compare_self (α := Bytes32)
  eq_of_compare {a b} h := by
    have hb : a.bytes = b.bytes := LawfulEqOrd.eq_of_compare (α := Bytes32) h
    cases a; cases b; cases hb; rfl

instance : TransOrd Txid where
  eq_swap := OrientedOrd.eq_swap (α := Bytes32)
  isLE_trans h₁ h₂ := TransOrd.isLE_trans (α := Bytes32) h₁ h₂

end Order

end Urma
