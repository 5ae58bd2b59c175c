import Urma.Core.Bytes

/-!
# Names

The names the registry is indexed by. A name is a wrapper around its bytes, compared byte by
byte, which is how the source's `BTreeMap`s order them.
-/

namespace Urma

open Std

namespace Names

/-! ## The grammar of a name -/

/-- A byte a name may carry: `a-z`, `0-9` or a hyphen. -/
def isNameByte (byte : UInt8) : Bool :=
  (97 ≤ byte && byte ≤ 122) || (48 ≤ byte && byte ≤ 57) || byte == 45

/-- `Name::MAX_BYTES`. -/
def Name.maxBytes : Nat := 63

/-- The four checks of `Name::parse`, in its order. -/
def Name.check (bytes : Bytes) : Except Error Unit := do
  ensure (1 ≤ bytes.length && bytes.length ≤ Name.maxBytes) "name must be 1..63 bytes"
  ensure (bytes.all isNameByte) "name bytes must be a-z, 0-9 or hyphen"
  ensure (bytes.head? != some 45 && bytes.getLast? != some 45)
    "name cannot start or end with a hyphen"
  ensure (bytes.length < 4 || (bytes.drop 2).take 2 != [45, 45])
    "name cannot carry a double hyphen at bytes 3-4"

/-- The shortest name, of one letter. -/
theorem Name.check_letter : Name.check [97] = .ok () := rfl

/-- `urma_names::name::Name`. The source's field is private and only `parse`
builds it, so every name that exists passed the checks. -/
structure Name where
  bytes : Bytes
  parsed : Name.check bytes = .ok ()
  deriving DecidableEq

/-- `Name::parse`. -/
def Name.parse (bytes : Bytes) : Except Error Name :=
  match h : Name.check bytes with
  | .ok () => .ok ⟨bytes, h⟩
  | .error error => .error error

theorem Name.ext_bytes {a b : Name} (h : a.bytes = b.bytes) : a = b := by
  cases a; cases b; cases h; rfl

end Names

/-! ## The order of names

Comparing two names compares their bytes; the order laws are those of byte strings. -/

section Order

instance : Ord Names.Name := ⟨fun a b => compare a.bytes b.bytes⟩

instance : LawfulEqOrd Names.Name where
  compare_self := ReflOrd.compare_self (α := Bytes)
  eq_of_compare h := Names.Name.ext_bytes (LawfulEqOrd.eq_of_compare (α := Bytes) h)

instance : TransOrd Names.Name where
  eq_swap := OrientedOrd.eq_swap (α := Bytes)
  isLE_trans h₁ h₂ := TransOrd.isLE_trans (α := Bytes) h₁ h₂

end Order

end Urma
