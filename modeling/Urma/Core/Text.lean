import Urma.Core.Bytes

/-!
# Texts

A `String` of the source is a byte string that is valid UTF-8, and is measured and compared by
its bytes.
-/

namespace Urma

open Std

/-- `String`. -/
structure Text where
  bytes : Bytes
  utf8 : ByteArray.IsValidUTF8 ⟨bytes.toArray⟩
  deriving DecidableEq

namespace Text

/-- `str::len`. -/
def len (text : Text) : ℕ :=
  text.bytes.length

/-- `std::str::from_utf8`. -/
def fromUtf8 (bytes : Bytes) : Except Error Text :=
  if h : ByteArray.IsValidUTF8 ⟨bytes.toArray⟩ then .ok ⟨bytes, h⟩ else .error .utf8

/-- `a < b` on `String`: byte by byte. -/
def below (a b : Text) : Bool :=
  (compare a.bytes b.bytes).isLT

/-- **A text is read from exactly its bytes.** -/
theorem fromUtf8_eq_ok {bytes : Bytes} {text : Text} :
    fromUtf8 bytes = .ok text ↔ bytes = text.bytes := by
  constructor
  · intro h
    rw [fromUtf8] at h
    split at h
    · cases h
      rfl
    · cases h
  · rintro rfl
    exact dif_pos text.utf8

end Text

end Urma
