import Urma.Core.Text
import Urma.Lib.Utf8

/-!
# Parts of texts

Texts are put together, and cut at ASCII bytes, without leaving valid UTF-8.
-/

namespace Urma.Text

open Lib

/-- The text of ASCII bytes. -/
def ofAscii (bytes : Bytes) (h : ∀ byte ∈ bytes, byte < 128) : Text :=
  ⟨bytes, Utf8.valid_of_ascii h⟩

/-- `format!("{first}{second}")`. -/
def append (first second : Text) : Text :=
  ⟨first.bytes ++ second.bytes, Utf8.Valid.append first.utf8 second.utf8⟩

/-- `str::split_at`, at the first of some ASCII bytes, or at the end. -/
def cutAt (text : Text) (stop : UInt8 → Bool) (h : ∀ byte, stop byte = true → byte < 128) :
    Text × Text :=
  (⟨text.bytes.takeWhile (!stop ·), (Utf8.Valid.span text.utf8 h).1⟩,
    ⟨text.bytes.dropWhile (!stop ·), (Utf8.Valid.span text.utf8 h).2⟩)

theorem ext_bytes {first second : Text} (h : first.bytes = second.bytes) : first = second := by
  cases first
  cases second
  cases h
  rfl

@[simp] theorem bytes_append (first second : Text) :
    (first.append second).bytes = first.bytes ++ second.bytes := rfl

@[simp] theorem bytes_ofAscii (bytes : Bytes) (h : ∀ byte ∈ bytes, byte < 128) :
    (ofAscii bytes h).bytes = bytes := rfl

section Cut

variable {text first second : Text} {stop : UInt8 → Bool} {h : ∀ byte, stop byte = true → byte < 128}

/-- A text is its two parts. -/
theorem cutAt_append : (text.cutAt stop h).1.append (text.cutAt stop h).2 = text :=
  ext_bytes List.takeWhile_append_dropWhile

/-- The first part has no stop in it. -/
theorem not_stop_of_mem_cutAt {byte : UInt8} (hmem : byte ∈ (text.cutAt stop h).1.bytes) :
    stop byte = false := by
  have hnot := List.all_eq_true.mp List.all_takeWhile byte hmem
  rwa [Bool.not_eq_true'] at hnot

/-- A text is cut after a part with no stop in it, before a part that starts with one. -/
theorem cutAt_eq_of_append (hfirst : ∀ byte ∈ first.bytes, stop byte = false)
    (hsecond : ∀ byte, second.bytes.head? = some byte → stop byte = true) :
    (first.append second).cutAt stop h = (first, second) := by
  have hpass : ∀ byte ∈ first.bytes, (!stop byte) = true := by
    intro byte hmem
    rw [hfirst byte hmem]
    rfl
  have hstop : second.bytes.takeWhile (!stop ·) = [] ∧
      second.bytes.dropWhile (!stop ·) = second.bytes := by
    cases hbytes : second.bytes with
    | nil => exact ⟨rfl, rfl⟩
    | cons byte rest =>
        have hbyte := hsecond byte (by rw [hbytes]; rfl)
        rw [List.takeWhile_cons, List.dropWhile_cons, hbyte]
        exact ⟨rfl, rfl⟩
  refine Prod.ext (ext_bytes ?_) (ext_bytes ?_)
  · show (first.bytes ++ second.bytes).takeWhile (!stop ·) = first.bytes
    rw [List.takeWhile_append_of_pos hpass, hstop.1, List.append_nil]
  · show (first.bytes ++ second.bytes).dropWhile (!stop ·) = second.bytes
    rw [List.dropWhile_append_of_pos hpass, hstop.2]

end Cut

end Urma.Text
