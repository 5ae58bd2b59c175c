import Urma.Core.Proof
import Urma.Web.Package

/-!
# The store of a gateway

`urma_web::store`: a directory with the objects, the transactions and the pointers of the
publications that were fetched. Nothing in it is trusted: whatever is read is verified again, up to
the chain of the hashes. What the files hold is a parameter; so are the parsers of other crates.
-/

namespace Urma.Web

open Chain Lib.Layout

/-! ## Data -/

/-- `AcquisitionSource`. -/
inductive AcquisitionSource where
  | localNodeOperator
  deriving DecidableEq

/-- `Pointer`. -/
structure Pointer where
  format : String
  network : String
  root : String
  commit : String
  tipHeight : Option ℕ
  tipHash : Option String
  source : Option AcquisitionSource
  deriving DecidableEq

/-- `Verified`. -/
structure Verified where
  pointer : Pointer
  author : String
  payloadSha256 : String
  package : Package
  pinnedLengths : List ℕ
  deriving DecidableEq

/-- `Served`. -/
inductive Served where
  | resource (mime : Text) (sha256 : String) (bytes : Bytes)
  | undeclared
  deriving DecidableEq

/-- What the files of the directory hold: the bytes, or why a file cannot be opened. -/
structure StoreFiles where
  /-- `objects/{sha256}`. -/
  object : String → Except String Bytes
  /-- `try_exists` of an object. -/
  objectExists : String → Except String Bool
  /-- `tx/{txid}.bin`. -/
  transaction : String → Except String Bytes
  /-- `publications/{network}/{root}.json`. -/
  publication : String → String → Except String Bytes

/-- What the store takes from other crates. -/
structure StoreCrates where
  sha256 : Bytes → Bytes32
  reveal : RevealCrate
  /-- `consensus::deserialize`. -/
  deserialize : Bytes → Except String Transaction
  /-- `serde_json::from_slice` of a pointer. -/
  parsePointer : Bytes → Except String Pointer
  /-- `Display` of a txid. -/
  displayTxid : Txid → String
  /-- `str::parse` of a txid. -/
  parseTxid : String → Except String Txid
  /-- `Display` of an x-only public key. -/
  displayKey : XOnlyPublicKey → String

/-! ## Hexadecimal -/

/-- A digit of `hex::encode`. -/
def hexDigit (value : ℕ) : Char :=
  if value < 10 then Char.ofNat (48 + value) else Char.ofNat (87 + value)

/-- `hex::encode`, as characters. -/
def hexChars (bytes : Bytes) : List Char :=
  bytes.flatMap fun byte => [hexDigit (byte.toNat / 16), hexDigit (byte.toNat % 16)]

/-- `hex::encode`. -/
def hexEncode (bytes : Bytes) : String :=
  String.ofList (hexChars bytes)

/-- `char::to_ascii_lowercase`. -/
def lowerChar (char : Char) : Char :=
  if 65 ≤ char.toNat ∧ char.toNat ≤ 90 then Char.ofNat (char.toNat + 32) else char

/-- `str::to_ascii_lowercase`. -/
def toAsciiLowercase (text : String) : String :=
  String.ofList (text.toList.map lowerChar)

/-- `is_hex64`. A text of hexadecimal digits has as many bytes as characters. -/
def isHex64 (text : String) : Bool :=
  text.toList.length == 64 && text.toList.all fun char =>
    (48 ≤ char.toNat && char.toNat ≤ 57) || (65 ≤ char.toNat && char.toNat ≤ 70) ||
      (97 ≤ char.toNat && char.toNat ≤ 102)

namespace Store

/-! ## Bounds -/

def format : String := "URMA-WEB-STORE-2"
def operatorFormat : String := "URMA-WEB-STORE-3"
def maxPointerBytes : ℕ := 64 * 1024
def maxTransactionBytes : ℕ := 4 * 1024 * 1024
def maxObjectBytes : ℕ := 256 * 1024 * 1024

variable (crates : StoreCrates) (files : StoreFiles)

/-! ## Files -/

/-- `urma_io::read_bounded`. -/
def readBounded (file : Except String Bytes) (limit : ℕ) : Except WebError Bytes :=
  match file with
  | .error message => .error (.files (.open message))
  | .ok bytes =>
      if u64Max < limit + 1 then .error (.files .limitOverflow)
      else if limit < bytes.length then .error (.files (.tooLarge limit))
      else .ok bytes

/-- `map_err`, into an error of this crate. -/
def orWeb {α : Type} (error : String → WebError) (result : Except String α) : Except WebError α :=
  match result with
  | .ok value => .ok value
  | .error message => .error (error message)

@[simp] theorem orWeb_eq_ok {α : Type} {error : String → WebError} {result : Except String α}
    {value : α} : orWeb error result = .ok value ↔ result = .ok value := by
  cases result <;> simp [orWeb]

/-- `Store::object`. -/
def object (sha256 : String) (limit : ℕ) : Except WebError Bytes := do
  ensureWeb (isHex64 sha256) (.invalid "store object key must be 64 hex digits")
  let bytes ← readBounded (files.object sha256) limit
  ensureWeb (hexEncode (crates.sha256 bytes).toList == toAsciiLowercase sha256)
    (.invalid s!"store object {sha256} failed re-verification")
  .ok bytes

/-- `Store::has_object`. -/
def hasObject (sha256 : String) : Except WebError Bool := do
  ensureWeb (isHex64 sha256) (.invalid "store object key must be 64 hex digits")
  orWeb .io (files.objectExists sha256)

/-- `Store::transaction`. -/
def transaction (txid : String) : Except WebError Transaction := do
  ensureWeb (isHex64 txid) (.invalid "store transaction key must be a 64 hex digit TXID")
  let bytes ← readBounded (files.transaction txid) maxTransactionBytes
  let transaction ← orWeb .transaction (crates.deserialize bytes)
  ensureWeb (crates.displayTxid (crates.reveal.consensus.computeTxid transaction) == txid)
    (.invalid s!"stored transaction {txid} failed re-verification")
  .ok transaction

/-! ## Pointers -/

/-- `check_component`. -/
def checkComponent (text : String) : Except WebError Unit :=
  ensureWeb (!text.toList.isEmpty && text.toList.length ≤ 64 && text.toList.all fun char =>
      (48 ≤ char.toNat && char.toNat ≤ 57) || (65 ≤ char.toNat && char.toNat ≤ 90) ||
        (97 ≤ char.toNat && char.toNat ≤ 122) || char == '-')
    (.invalidKey "store key must be alphanumeric or hyphen: " text)

/-- `check_acquisition`. -/
def checkAcquisition (pointer : Pointer) : Except WebError Unit :=
  if pointer.format = format then
    ensureWeb (pointer.source.isNone && pointer.tipHeight.isSome && pointer.tipHash.isSome)
      (.invalid "legacy store metadata requires both tips and no acquisition source")
  else if pointer.format = operatorFormat then
    ensureWeb (pointer.source == some .localNodeOperator && pointer.tipHeight.isNone &&
        pointer.tipHash.isNone)
      (.invalid "operator store metadata requires its acquisition source and no claimed tip")
  else .error (.invalid "unsupported store format")

/-- `Store::pointer`. -/
def pointer (network root : String) : Except WebError Pointer := do
  checkComponent network
  ensureWeb (isHex64 root) (.invalid "publication root must be a 64 hex digit TXID")
  let bytes ← readBounded (files.publication network root) maxPointerBytes
  let pointer ← orWeb .json (crates.parsePointer bytes)
  checkAcquisition pointer
  ensureWeb (pointer.network == network && pointer.root == root)
    (.invalid "stored pointer names another network or root")
  .ok pointer

/-! ## Publications -/

/-- The loop of `verify_pins`. -/
def verifyPins : List PinnedEntry → Except WebError (List ℕ)
  | [] => .ok []
  | pin :: pins => do
      let sha256 := hexEncode pin.payloadSha256.toList
      let found ← hasObject files sha256
      ensureWeb found (.pinMissing pin.path pin.rootTxid)
      let bytes ← match object crates files sha256 maxObjectBytes with
        | .ok bytes => .ok bytes
        | .error cause => .error (.pinCorrupt pin.path pin.rootTxid cause)
      let lengths ← verifyPins pins
      .ok (bytes.length :: lengths)

/-- `Store::publication`. -/
def publication (network root : String) (maxPayloadBytes : ℕ) : Except WebError Verified := do
  let pointer ← pointer crates files network root
  let reveal ← transaction crates files root
  match reveal.input with
  | [input] => do
      let commitTxid := crates.displayTxid input.previousOutput.txid
      ensureWeb (commitTxid == pointer.commit)
        (.invalid "pointer commit differs from the reveal's commit")
      let commit ← transaction crates files commitTxid
      let txid ← orWeb .hash (crates.parseTxid root)
      let verified ← protocol (VerifiedRecord.verify crates.sha256 crates.reveal txid reveal commit)
      match ← protocol verified.decode with
      | .root manifest => do
          ensureWeb (manifest.profile == Package.profile)
            (.invalid s!"{root} is not an URMAWEB1 publication")
          let payloadSha256 := hexEncode manifest.payloadHash.toList
          let payload ← object crates files payloadSha256 maxPayloadBytes
          ensureWeb (payload.length == manifest.length)
            (.invalid "package length differs from the root manifest")
          let package ← Package.decode crates.sha256 payload
          let pinnedLengths ← verifyPins crates files package.pinned
          .ok {
            pointer, payloadSha256, package, pinnedLengths
            author := crates.displayKey verified.author }
      | _ => .error (.invalid s!"{root} is not a root manifest")
  | _ => .error (.invalid "root reveal must spend one commit")

/-- `Store::serve`. -/
def serve (verified : Verified) (urlPath : Text) : Except WebError Served :=
  match verified.package.resolve urlPath with
  | .file file => .ok (.resource file.mime (hexEncode file.sha256.toList) file.bytes)
  | .pinned pin => do
      let sha256 := hexEncode pin.payloadSha256.toList
      let bytes ← object crates files sha256 maxObjectBytes
      .ok (.resource pin.mime sha256 bytes)
  | .undeclared => .ok .undeclared

end Store

end Urma.Web
