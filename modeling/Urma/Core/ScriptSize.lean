import Urma.Core.EnvelopeExact

/-!
# The size of a script

The script of a record is as long as the record makes it, but for one byte: a record whose last
part is a single byte that an opcode stands for has a script that is one byte shorter.
-/

namespace Urma.Envelope

open Format Lib.Layout Lib.Script

/-! ## Parts -/

/-- The size of the push of a part. -/
def partSize (length : ℕ) : ℕ :=
  (pushPrefix length).length + length

/-- What a part saves when an opcode stands for it. -/
def partSaved (part : Bytes) : ℕ :=
  if isNumber part then 1 else 0

variable {crate : BitcoinCrate}

theorem isNumber_length {part : Bytes} (h : isNumber part = true) : part.length = 1 := by
  match part with
  | [] => cases h
  | [_] => rfl
  | _ :: _ :: _ => cases h

theorem pushPart_size (h : crate.Lawful) {part : Bytes} (hlength : part.length ≤ 520) :
    (pushPart crate part).length + partSaved part = partSize part.length := by
  rcases @part_cases crate part with ⟨value, rfl, hone, hmax, hpush, _⟩ | ⟨rfl, hpush, _⟩ |
    ⟨hnumber, hpush, _⟩
  · have hnumber : isNumber [value] = true := by
      rw [isNumber, decide_eq_true hone, decide_eq_true hmax, Bool.and_self, Bool.or_true]
    rw [hpush, h.pushInt_number value.toNat hone hmax, partSaved, if_pos hnumber]
    rfl
  · rw [hpush, h.pushInt_negOne]
    rfl
  · rw [hpush, h.pushSlice part hlength, partSaved, hnumber, push, List.length_append]
    rfl

/-! ## Records -/

/-- The size of a script by the length of its record, when nothing is saved. -/
def scriptSize (length : ℕ) : ℕ :=
  42 + length / 520 * 523 + if length % 520 = 0 then 0 else partSize (length % 520)

/-- What remains of a record after its whole parts. -/
def remainder (record : Bytes) : Bytes :=
  record.drop (record.length / 520 * 520)

theorem remainder_length (record : Bytes) : (remainder record).length = record.length % 520 := by
  rw [remainder, List.length_drop]
  omega

/-- What a record saves. -/
def saved (record : Bytes) : ℕ :=
  partSaved (remainder record)

theorem saved_le_one (record : Bytes) : saved record ≤ 1 := by
  rw [saved, partSaved]
  split
  · exact Nat.le_refl 1
  · exact Nat.zero_le 1

/-- Nothing is saved when more than one byte remains, or none. -/
theorem saved_of_length {record : Bytes} (h : record.length % 520 ≠ 1) : saved record = 0 := by
  rw [saved, partSaved, if_neg]
  intro hnumber
  apply h
  rw [← remainder_length, isNumber_length hnumber]

/-- The whole parts of a record. -/
theorem wholeParts_size (h : crate.Lawful) {parts : List Bytes}
    (hparts : ∀ part ∈ parts, part.length = 520) :
    (parts.flatMap (pushPart crate)).length = parts.length * 523 := by
  induction parts with
  | nil => rfl
  | cons part parts ih =>
      have hlength := hparts part List.mem_cons_self
      have hsaved : partSaved part = 0 := by
        rw [partSaved, if_neg]
        intro hnumber
        rw [isNumber_length hnumber] at hlength
        cases hlength
      have hpart := pushPart_size h (Nat.le_of_eq hlength)
      have hsize : partSize 520 = 523 := by decide
      rw [List.flatMap_cons, List.length_append, List.length_cons, Nat.succ_mul,
        ih fun part hmem => hparts part (List.mem_cons_of_mem _ hmem)]
      rw [hlength, hsize] at hpart
      omega

/-- **The size of a script.** -/
theorem recordScript_size (h : crate.Lawful) (record : Bytes) (author : XOnlyPublicKey) :
    (recordScript crate record author).length + saved record = scriptSize record.length := by
  have hkey : author.serialize.toList.length = 32 := Vector.length_toList
  have htotal : (recordScript crate record author).length =
      42 + ((chunks 520 record).flatMap (pushPart crate)).length := by
    rw [recordScript, scriptHead_eq h]
    simp only [List.length_append, List.length_cons, List.length_nil, hkey]
    omega
  have hwhole : ((blocks 520 (record.length / 520) record).flatMap (pushPart crate)).length =
      record.length / 520 * 523 := by
    rw [wholeParts_size h, blocks_length]
    intro part hmem
    exact length_of_mem_blocks (Nat.div_mul_le_self _ _) hmem
  rw [htotal, chunks_eq (by decide), List.flatMap_append, List.length_append, hwhole, scriptSize]
  split
  · next hzero =>
      rw [saved_of_length (by omega), List.flatMap_nil, List.length_nil, Nat.add_zero, Nat.add_zero,
        Nat.add_zero]
  · next hsome =>
      have hshort : (remainder record).length ≤ 520 := by
        rw [remainder_length]
        exact Nat.le_of_lt (Nat.mod_lt _ (by decide))
      have hpart := pushPart_size h hshort
      rw [remainder_length, ← saved] at hpart
      rw [← remainder, ← hpart, List.flatMap_singleton]
      generalize record.length / 520 * 523 = whole
      omega

end Urma.Envelope
