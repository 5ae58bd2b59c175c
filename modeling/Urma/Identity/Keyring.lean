import Urma.Core.Text

/-!
# Identity keyrings

`urma_identity::keyring`: the identities of a phrase by name, each in the slot of its place, and the
active one. Keys are derived from the phrase; what is derived with other crates is a parameter.
-/

namespace Urma.Identity

open Lib Lib.Layout

/-! ## Slots and errors -/

/-- `IdentitySlot::CAPACITY`. -/
def slotCapacity : ℕ := 64

/-- `IdentitySlot`. -/
structure IdentitySlot where
  index : ℕ
  lt : index < slotCapacity
  deriving DecidableEq

/-- `IdentityError`, as far as keyrings and vaults produce it. -/
inductive IdentityError where
  | phrase
  | kdf
  | hkdf
  | cipherKey
  | aead
  | integer
  | slice
  | utf8
  | bip32
  | invalidSlot (slot : IdentitySlot)
  | invalidPassword
  | invalidName
  | duplicateName
  | missingIdentity
  | capacity
  | invalidVault
  | unsupportedVersion
  | authentication
  | derivation
  | random
  | signing
  deriving DecidableEq

/-- `IdentitySlot::new`. -/
def IdentitySlot.new (value : ℕ) : Except IdentityError IdentitySlot :=
  if h : value < slotCapacity then .ok ⟨value, h⟩ else .error .capacity

/-- `u16::try_from(usize)`. -/
def tryU16 (value : ℕ) : Except IdentityError ℕ :=
  if value ≤ u16Max then .ok value else .error .integer

/-! ## Keys -/

/-- `IdentityPhrase`: the entropy of the words. -/
abbrev IdentityPhrase := Vector UInt8 16

/-- `bip32::Xpriv`, as far as keys are derived from it. -/
structure Xpriv where
  privateKey : Bytes32
  chainCode : Bytes32
  depth : ℕ

/-- `secp256k1::Error`, as far as it is told apart. -/
inductive SecpError where
  | invalidSecretKey
  | other
  deriving DecidableEq

/-- `IdentityKey`. -/
structure IdentityKey where
  secret : Bytes32

/-- What the code takes from other crates to derive keys. -/
structure KeyCrates where
  /-- `Mnemonic::from_entropy_in` and `to_seed_normalized`. -/
  seed : IdentityPhrase → Except IdentityError (Vector UInt8 64)
  /-- `Xpriv::new_master`. -/
  newMaster : Vector UInt8 64 → Except IdentityError Xpriv
  /-- `Hmac::<sha512::Hash>`, of a key and a message. -/
  hmac : Bytes → Bytes → Vector UInt8 64
  /-- `Scalar::from_be_bytes`. -/
  scalar : Bytes32 → Option Bytes32
  /-- `SecretKey::add_tweak`. -/
  addTweak : Bytes32 → Bytes32 → Option Bytes32
  /-- `Keypair::from_seckey_slice`. -/
  keypair : Bytes32 → Except SecpError Unit

section

variable (crates : KeyCrates)

/-- `ckd::hardened_child` with `ckd::child`. -/
def hardenedChild (parent : Xpriv) (index : ℕ) : Except IdentityError Xpriv :=
  if 2 ^ 31 ≤ index then .error .bip32
  else
    let mac := crates.hmac parent.chainCode.toList
      (0 :: parent.privateKey.toList ++ toBe 4 (index + 2 ^ 31))
    match crates.scalar (mac.take 32) with
    | none => .error .derivation
    | some tweak =>
        match crates.addTweak parent.privateKey tweak with
        | none => .error .derivation
        | some privateKey =>
            if parent.depth + 1 ≤ u8Max then
              .ok { privateKey, chainCode := mac.drop 32, depth := parent.depth + 1 }
            else .error .derivation

/-- `ckd::derive_hardened`. -/
def deriveHardened (parent : Xpriv) : List ℕ → Except IdentityError Xpriv
  | [] => .ok parent
  | index :: path => do
      let child ← hardenedChild crates parent index
      deriveHardened child path

/-- `bip85::entropy`. -/
def entropy (master : Xpriv) (path : List ℕ) : Except IdentityError (Vector UInt8 64) := do
  let node ← deriveHardened crates master path
  .ok (crates.hmac "bip-entropy-from-k".toUTF8.data.toList node.privateKey.toList)

/-- `bip85::hex`. -/
def hex (master : Xpriv) (length index : ℕ) : Except IdentityError Bytes :=
  if 16 ≤ length ∧ length ≤ 64 then do
    let full ← entropy crates master [83696968, 128169, length, index]
    .ok (full.toList.take length)
  else .error .derivation

/-- `IdentityKey::derive`. -/
def IdentityKey.derive (master : Xpriv) (slot : IdentitySlot) : Except IdentityError IdentityKey :=
  match hex crates master 32 slot.index with
  | .error .derivation => .error (.invalidSlot slot)
  | .error other => .error other
  | .ok entropy =>
      if h : entropy.length = 32 then
        let secret : Bytes32 := ⟨entropy.toArray, h⟩
        match crates.keypair secret with
        | .ok () => .ok ⟨secret⟩
        | .error .invalidSecretKey => .error (.invalidSlot slot)
        | .error .other => .error .signing
      else .error .slice

/-- `Root::from_phrase`. -/
def fromPhrase (phrase : IdentityPhrase) : Except IdentityError Xpriv := do
  let seed ← crates.seed phrase
  crates.newMaster seed

end

/-! ## Names -/

/-- The characters of a text. -/
def chars (text : Text) : List Char :=
  (String.fromUTF8 ⟨text.bytes.toArray⟩ text.utf8).toList

/-- `char::is_whitespace`: the property `White_Space`. -/
def isWhitespace (c : Char) : Bool :=
  (9 ≤ c.toNat && c.toNat ≤ 13) || c.toNat == 0x20 || c.toNat == 0x85 || c.toNat == 0xa0 ||
    c.toNat == 0x1680 || (0x2000 ≤ c.toNat && c.toNat ≤ 0x200a) || c.toNat == 0x2028 ||
    c.toNat == 0x2029 || c.toNat == 0x202f || c.toNat == 0x205f || c.toNat == 0x3000

/-- `char::is_control`: the category `Cc`. -/
def isControl (c : Char) : Bool :=
  c.toNat < 0x20 || (0x7f ≤ c.toNat && c.toNat < 0xa0)

/-- `str::trim`. -/
def trim (chars : List Char) : List Char :=
  ((chars.dropWhile isWhitespace).reverse.dropWhile isWhitespace).reverse

/-- `validate_name`. -/
def validateName (name : Text) : Except IdentityError Unit :=
  if name.bytes.isEmpty || 64 < name.len || trim (chars name) ≠ chars name ||
      (chars name).any isControl then .error .invalidName
  else .ok ()

/-! ## Keyrings -/

/-- `NamedIdentity`. -/
structure NamedIdentity where
  slot : IdentitySlot
  name : Text
  deriving DecidableEq

/-- `Keyring`. -/
structure Keyring where
  phrase : IdentityPhrase
  root : Xpriv
  entries : List NamedIdentity
  active : IdentitySlot

/-- The text of a string. -/
def textOf (string : String) : Text where
  bytes := string.toUTF8.data.toList
  utf8 := by
    rw [Array.toArray_toList]
    exact string.isValidUTF8

/-- `format!("identity-{index}")`. -/
def identityName (index : ℕ) : Text :=
  textOf s!"identity-{index}"

section

variable (crates : KeyCrates)

namespace Keyring

/-- `Keyring::empty`. -/
def empty (phrase : IdentityPhrase) : Except IdentityError Keyring := do
  let root ← fromPhrase crates phrase
  let active ← IdentitySlot.new 0
  .ok { phrase, root, entries := [], active }

/-- `Keyring::next_slot`. -/
def nextSlot (keyring : Keyring) : Except IdentityError IdentitySlot := do
  let length ← tryU16 keyring.entries.length
  IdentitySlot.new length

/-- `Keyring::push`. -/
def push (keyring : Keyring) (name : Text) : Except IdentityError Keyring := do
  validateName name
  if keyring.entries.any (fun entry => entry.name = name) then .error .duplicateName
  else do
    let slot ← keyring.nextSlot
    .ok { keyring with entries := keyring.entries ++ [⟨slot, name⟩] }

/-- `Keyring::identity`. -/
def identity (keyring : Keyring) (slot : IdentitySlot) : Except IdentityError IdentityKey :=
  if keyring.entries.any (fun entry => entry.slot = slot) then
    IdentityKey.derive crates keyring.root slot
  else .error .missingIdentity

/-- `Keyring::add`. -/
def add (keyring : Keyring) (name : Text) : Except IdentityError Keyring := do
  validateName name
  let slot ← keyring.nextSlot
  let _ ← IdentityKey.derive crates keyring.root slot
  keyring.push name

/-- `Keyring::select`. -/
def select (keyring : Keyring) (slot : IdentitySlot) : Except IdentityError Keyring := do
  let _ ← keyring.identity crates slot
  .ok { keyring with active := slot }

/-- `Iterator::find` on the entries, with the entry changed where it is found. -/
def renameFirst (slot : IdentitySlot) (name : Text) :
    List NamedIdentity → Option (List NamedIdentity)
  | [] => none
  | entry :: entries =>
      if entry.slot = slot then some ({ entry with name } :: entries)
      else (renameFirst slot name entries).map (entry :: ·)

/-- `Keyring::rename`. -/
def rename (keyring : Keyring) (slot : IdentitySlot) (name : Text) :
    Except IdentityError Keyring := do
  validateName name
  if keyring.entries.any (fun entry => entry.slot ≠ slot ∧ entry.name = name) then
    .error .duplicateName
  else
    match renameFirst slot name keyring.entries with
    | none => .error .missingIdentity
    | some entries => .ok { keyring with entries }

/-- `Keyring::create`. -/
def create (phrase : IdentityPhrase) (name : Text) : Except IdentityError Keyring := do
  let keyring ← empty crates phrase
  keyring.add crates name

/-- The loop of `Keyring::recover`. -/
def recoverFrom (keyring : Keyring) : List ℕ → Except IdentityError Keyring
  | [] => .ok keyring
  | index :: indices => do
      let keyring ← keyring.push (identityName index)
      keyring.recoverFrom indices

/-- `Keyring::recover`. -/
def recover (phrase : IdentityPhrase) : Except IdentityError Keyring := do
  let keyring ← empty crates phrase
  keyring.recoverFrom (List.range slotCapacity)

end Keyring

/-! ## Edits -/

/-- What is done to a keyring. -/
inductive Edit where
  | add (name : Text)
  | rename (slot : IdentitySlot) (name : Text)
  | select (slot : IdentitySlot)

/-- One edit. -/
def Keyring.tryEdit (keyring : Keyring) : Edit → Except IdentityError Keyring
  | .add name => keyring.add crates name
  | .rename slot name => keyring.rename slot name
  | .select slot => keyring.select crates slot

/-- The keyring after an edit, which a failed edit leaves alone. -/
def Keyring.edit (keyring : Keyring) (edit : Edit) : Keyring :=
  match keyring.tryEdit crates edit with
  | .ok edited => edited
  | .error _ => keyring

/-- The keyrings of a phrase that edits reach. -/
inductive Keyring.Reachable (phrase : IdentityPhrase) : Keyring → Prop where
  | create {keyring} (name : Text) (h : Keyring.create crates phrase name = .ok keyring) :
      Reachable phrase keyring
  | recover {keyring} (h : Keyring.recover crates phrase = .ok keyring) :
      Reachable phrase keyring
  | edit {keyring} (edit : Edit) (hreach : Reachable phrase keyring) :
      Reachable phrase (keyring.edit crates edit)

end

end Urma.Identity
