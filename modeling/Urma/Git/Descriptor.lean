import Urma.Lib.Layout
import Urma.Web.Grammar

/-!
# The descriptor of a snapshot

`urma_git::descriptor` and `urma_profiles::git::GitProfile`: the payload of a snapshot starts with
a descriptor, 108 bytes of a fixed layout and then the head, the branch and the name of the
repository, and the rest of it is the pack.
-/

namespace Urma.Git

open Lib.Layout
open Web (ascii isAlphanumeric)

/-! ## Errors -/

/-- `urma_git::error::Error`, the variants of the descriptor. -/
inductive DescriptorError where
  | protocol (cause : Error)
  | io (message : String)
  | conversion
  | utf8
  | invalid (message : String)
  deriving DecidableEq

/-- `if !condition { return Err(Error::Invalid(message)); }`. -/
def ensureDescriptor (condition : Bool) (message : String) : Except DescriptorError Unit :=
  if condition then .ok () else .error (.invalid message)

@[simp] theorem ensureDescriptor_eq_ok {condition : Bool} {message : String} {u : Unit} :
    ensureDescriptor condition message = .ok u ↔ condition = true := by
  cases condition <;> simp [ensureDescriptor]

/-! ## The file of a payload -/

/-- A file that is read and sought in. Its length is a `u64`. -/
structure Stream where
  bytes : Bytes
  position : ℕ
  bounded : bytes.length ≤ u64Max

namespace Stream

/-- What is still to be read. -/
def remaining (input : Stream) : Bytes :=
  input.bytes.drop input.position

/-- The stream with so many bytes read. -/
def advance (input : Stream) (length : ℕ) : Stream :=
  { input with position := input.position + length }

/-- `Read::read_exact`, into a buffer of this length. -/
def readExact (input : Stream) (length : ℕ) : Except DescriptorError (Bytes × Stream) :=
  if length ≤ input.remaining.length then
    .ok (input.remaining.take length, input.advance length)
  else .error (.io "failed to fill whole buffer")

/-- `Seek::seek(SeekFrom::End(0))`. -/
def seekEnd (input : Stream) : ℕ × Stream :=
  (input.bytes.length, { input with position := input.bytes.length })

/-- `Seek::seek(SeekFrom::Start(offset))`. -/
def seekStart (input : Stream) (offset : ℕ) : Stream :=
  { input with position := offset }

end Stream

/-! ## Profiles -/

/-- `GitProfile`. -/
inductive GitProfile where
  | unnamed
  | named
  deriving DecidableEq

namespace GitProfile

/-- `GitProfile::UNNAMED_IDENTIFIER`. -/
def unnamedIdentifier : Vector UInt8 8 := #v[85, 82, 77, 65, 71, 73, 84, 48]

/-- `GitProfile::NAMED_IDENTIFIER`. -/
def namedIdentifier : Vector UInt8 8 := #v[85, 82, 77, 65, 71, 73, 84, 49]

/-- `GitProfile::for_name`. -/
def forName (name : Text) : GitProfile :=
  if name.bytes.isEmpty then unnamed else named

/-- `GitProfile::identifier`. -/
def identifier : GitProfile → Vector UInt8 8
  | unnamed => unnamedIdentifier
  | named => namedIdentifier

/-- `GitProfile::revision`. -/
def revision : GitProfile → UInt8
  | unnamed => 0
  | named => 1

/-- `GitProfile::from_revision`. -/
def fromRevision (revision : UInt8) : Except DescriptorError GitProfile :=
  if revision = 0 then .ok unnamed
  else if revision = 1 then .ok named
  else .error (.protocol (.unsupported s!"Git descriptor revision {revision.toNat}"))

end GitProfile

/-! ## Names -/

/-- `u8::to_ascii_uppercase`. -/
def toUppercase (byte : UInt8) : UInt8 :=
  if 97 ≤ byte ∧ byte ≤ 122 then byte - 32 else byte

/-- The device names that `validate_name` reserves. -/
def reservedNames : List Bytes :=
  ["CON", "PRN", "AUX", "NUL", "COM1", "COM2", "COM3", "COM4", "COM5", "COM6", "COM7", "COM8",
    "COM9", "LPT1", "LPT2", "LPT3", "LPT4", "LPT5", "LPT6", "LPT7", "LPT8", "LPT9"].map ascii

/-- `validate_name`. The first part of a split always exists. -/
def validateName (name : Text) : Except DescriptorError Unit :=
  match name.bytes with
  | [] => .error (.invalid "repository name must not be empty")
  | first :: _ =>
      let stem := name.bytes.takeWhile (· != 46)
      ensureDescriptor (name.len ≤ 100 && isAlphanumeric first &&
          name.bytes.getLast? != some 46 &&
          (name.bytes.all fun byte => isAlphanumeric byte || (ascii "-_.").contains byte) &&
          !reservedNames.contains (stem.map toUppercase))
        ("unsafe repository name; use --name with 1..100 ASCII letters, digits, '-', '_' or '.', " ++
          "starting with a letter/digit; no trailing dot or reserved device names")

/-- `String::new`. -/
def emptyText : Text := ⟨[], by decide⟩

/-- `read_name`. -/
def readName (input : Stream) (revision : UInt8) : Except DescriptorError (Text × Stream) := do
  if revision = 0 then .ok (emptyText, input)
  else
    let (length, input) ← input.readExact 2
    let length := fromLe length
    ensureDescriptor (length != 0 && length ≤ 100) "repository name length must be 1..100 bytes"
    let (name, input) ← input.readExact length
    match Text.fromUtf8 name with
    | .error _ => .error .utf8
    | .ok name => do
        validateName name
        .ok (name, input)

/-! ## Descriptors -/

/-- `Descriptor`. -/
structure Descriptor where
  repositoryName : Text
  objectFormat : UInt8
  head : Bytes
  branch : Bytes
  packLength : UInt64
  packSha256 : Bytes32
  firstRoot : Bytes32
  previousRoot : Bytes32
  deriving DecidableEq

/-- `copy_from_slice` into a fresh array, from a slice of its length. -/
def copyFromSlice (n : ℕ) (bytes : Bytes) : Vector UInt8 n :=
  Vector.ofFn fun i => bytes.getD i 0

/-- The length of an object id, by the number of its format. -/
def headLength (objectFormat : UInt8) : Except DescriptorError ℕ :=
  if objectFormat = 1 then .ok 20
  else if objectFormat = 2 then .ok 32
  else .error (.invalid s!"object format {objectFormat.toNat}")

/-- `u16::try_from(usize)`, as its bytes. -/
def u16Bytes (length : ℕ) : Except DescriptorError Bytes :=
  if length ≤ u16Max then .ok (toLe 2 length) else .error .conversion

namespace Descriptor

/-- `Descriptor::MAX_PREFIX_BYTES`. -/
def maxPrefixBytes : ℕ := 65777

/-- `Descriptor::profile`. -/
def profile (descriptor : Descriptor) : Vector UInt8 8 :=
  (GitProfile.forName descriptor.repositoryName).identifier

/-- The name, at the start of `validate`: an unnamed descriptor has an empty one. -/
def validateRepositoryName (name : Text) : Except DescriptorError Unit :=
  if name.bytes.isEmpty then .ok () else validateName name

/-- `Descriptor::validate`. -/
def validate (descriptor : Descriptor) : Except DescriptorError Unit := do
  validateRepositoryName descriptor.repositoryName
  let expected ← headLength descriptor.objectFormat
  ensureDescriptor (descriptor.head.length == expected && !descriptor.branch.isEmpty &&
      descriptor.branch.length ≤ u16Max && (ascii "refs/heads/").isPrefixOf descriptor.branch &&
      12 + expected ≤ descriptor.packLength.toNat &&
      (descriptor.firstRoot == Vector.replicate 32 0) ==
        (descriptor.previousRoot == Vector.replicate 32 0))
    "descriptor fields"

/-- The name after the branch, in `encode`. -/
def encodeName (name : Text) : Except DescriptorError Bytes := do
  if name.bytes.isEmpty then .ok []
  else
    let length ← u16Bytes name.len
    .ok (length ++ name.bytes)

/-- `Descriptor::encode`. -/
def encode (descriptor : Descriptor) : Except DescriptorError Bytes := do
  descriptor.validate
  let branchLength ← u16Bytes descriptor.branch.length
  let name ← encodeName descriptor.repositoryName
  .ok ([descriptor.objectFormat, (GitProfile.forName descriptor.repositoryName).revision] ++
    branchLength ++ toLe 8 descriptor.packLength.toNat ++ descriptor.packSha256.toList ++
    descriptor.firstRoot.toList ++ descriptor.previousRoot.toList ++ descriptor.head ++
    descriptor.branch ++ name)

/-- `Descriptor::decode`. -/
def decode (input : Stream) : Except DescriptorError (Descriptor × Stream) := do
  let (fixed, input) ← input.readExact 108
  let objectFormat := fixed.getD 0 0
  let revision := fixed.getD 1 0
  let headLength ← headLength objectFormat
  let _ ← GitProfile.fromRevision revision
  let branchLength := fromLe (slice fixed 2 4)
  let (head, input) ← input.readExact headLength
  let (branch, input) ← input.readExact branchLength
  let (repositoryName, input) ← readName input revision
  let descriptor : Descriptor := {
    repositoryName
    objectFormat
    head
    branch
    packLength := UInt64.ofNat (fromLe (slice fixed 4 12))
    packSha256 := copyFromSlice 32 (slice fixed 12 44)
    firstRoot := copyFromSlice 32 (slice fixed 44 76)
    previousRoot := copyFromSlice 32 (slice fixed 76 108) }
  descriptor.validate
  let offset := input.position
  let (length, input) := input.seekEnd
  match checkedAdd descriptor.packLength.toNat offset with
  | none => .error (.invalid "descriptor length overflow")
  | some total => do
      ensureDescriptor (total == length) "descriptor length or trailing bytes"
      .ok (descriptor, input.seekStart offset)

end Descriptor

end Urma.Git
