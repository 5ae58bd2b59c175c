import Urma.Core.Crypto
import Urma.Core.Format

/-!
# Sealed containers

`urma_core::container`: a private file is cut into chunks, each sealed into a record of its own;
records are opened, collected into an object and put together again, either strictly (`open`)
or from an offline container in which other records may lie around (`recover_container`).

A host with 64-bit `usize` is assumed and a failed allocation is not modelled, so a length is
never refused for the host's sake. An array of one, two, four or eight bytes cut from a string
of sufficient length is read without the conversion, which cannot fail.
-/

namespace Urma

open Std Lib.Layout Format

namespace Container

variable (crypto : Crypto)

/-! ## Keys -/

/-- `random_secret`. -/
def randomSecret {R : Type} (source : Rng R) (rng : R) : Except Error (Bytes32 × R) :=
  source.tryFillBytes rng 32

/-- `derive`. -/
def derive (root id : Bytes32) (purpose : Bytes) (n : ℕ) : Except Error (Vector UInt8 n) :=
  crypto.hkdf id.toList root.toList purpose n

/-- `discovery_tag`. -/
def discoveryTag (root id : Bytes32) : Except Error (Vector UInt8 16) :=
  derive crypto root id discoveryDomain 16

/-- `cipher(root, id, iv)` applied to a body. -/
def applyKeystream (root id : Bytes32) (iv : Vector UInt8 16) (body : Bytes) :
    Except Error Bytes := do
  let key ← derive crypto root id contentDomain 32
  .ok (crypto.ctr key iv body)

/-- `nonce`: the index as eight big-endian bytes, then a zero counter. -/
def nonce (index : ℕ) : Vector UInt8 16 :=
  ⟨(toBe 8 index ++ List.replicate 8 0).toArray, by simp⟩

/-- `authenticator(root, id)` over a message. -/
def authenticate (root id : Bytes32) (message : Bytes) : Except Error Bytes32 := do
  let key ← derive crypto root id authenticationDomain 32
  .ok (crypto.hmac key message)

/-! ## Sealing -/

/-- What the records of one file have in common. -/
structure Sealing where
  id : Bytes32
  tag : Vector UInt8 16
  count : ℕ
  digest : Bytes32
  total : ℕ
  contentType : ContentType

/-- The cleartext header of a record, its IV not included. -/
def Sealing.header (sealing : Sealing) (index : ℕ) : Bytes :=
  RecordKind.privateRecord.prefixOf ++
    (sealing.id.toList ++ (sealing.tag.toList ++ (toLe 4 index ++ toLe 4 sealing.count)))

/-- The body of a record before it is encrypted. -/
def Sealing.body (sealing : Sealing) (chunk padding : Bytes) : Bytes :=
  sealing.digest.toList ++ (toLe 8 sealing.total ++ (toLe 4 sealing.contentType.code ++
    ([0, 0, 0, 0] ++ (chunk ++ padding))))

/-- The body of the loop of `seal`: the record of one chunk. -/
def sealChunk {R : Type} (root : Bytes32) (sealing : Sealing) (source : Rng R) (index : ℕ)
    (chunk : Bytes) (rng : R) : Except Error (Bytes × R) := do
  let iv := nonce index
  let (padding, rng) ← source.tryFillBytes rng (bodyBytes - (metadataBytes + chunk.length))
  let body ← applyKeystream crypto root sealing.id iv (sealing.body chunk padding.toList)
  let record := sealing.header index ++ (iv.toList ++ body)
  let mac ← authenticate crypto root sealing.id record
  .ok (record ++ mac.toList, rng)

/-- The loop of `seal` from a position on. -/
def sealFrom {R : Type} (root : Bytes32) (sealing : Sealing) (source : Rng R) :
    ℕ → List Bytes → R → Except Error (List Bytes × R)
  | _, [], rng => .ok ([], rng)
  | position, chunk :: chunks, rng => do
      let index ← tryU32 position
      let (record, rng) ← sealChunk crypto root sealing source index chunk rng
      let (records, rng) ← sealFrom root sealing source (position + 1) chunks rng
      .ok (record :: records, rng)

/-- `seal`. -/
def sealRecords {R : Type} (root : Bytes32) (plaintext : Bytes) (contentType : ContentType)
    (source : Rng R) (rng : R) : Except Error (List Bytes × R) := do
  let count ← chunkCount plaintext.length
  let (id, rng) ← randomSecret source rng
  let tag ← discoveryTag crypto root id
  let sealing : Sealing := {
    id, tag, count, contentType
    digest := crypto.sha256 plaintext
    total := plaintext.length }
  sealFrom crypto root sealing source 0 (chunks chunkBytes plaintext) rng

/-! ## Opening a record -/

/-- `PrivateChunk`. -/
structure PrivateChunk where
  id : Bytes32
  index : ℕ
  count : ℕ
  total : ℕ
  digest : Bytes32
  contentType : ContentType
  bytes : Bytes
  recordDigest : Bytes32
  deriving DecidableEq

/-- `PrivateRecordHeader`. -/
structure PrivateRecordHeader where
  id : Bytes32
  discoveryTag : Vector UInt8 16
  index : ℕ
  count : ℕ
  deriving DecidableEq

/-- `RecordMatch`. -/
inductive RecordMatch where
  | unrelated
  | authenticated (chunk : PrivateChunk)
  deriving DecidableEq

/-- `inspect_header`. -/
def inspectHeader (record : Bytes) : Except Error PrivateRecordHeader := do
  ensure (record.length == privateRecordBytes) "invalid private record length"
  let kind ← RecordKind.parse record
  ensure (kind == .privateRecord) "not a private record"
  let id ← tryInto 32 (slice record 8 40)
  let discoveryTag ← tryInto 16 (slice record 40 56)
  let index := fromLe (slice record 56 60)
  let count := fromLe (slice record 60 64)
  ensure (0 < count && index < count) "invalid chunk bounds"
  .ok { id, discoveryTag, index, count }

/-- What an accepted header says of its record. -/
theorem inspectHeader_bounds {record : Bytes} {header : PrivateRecordHeader}
    (h : inspectHeader record = .ok header) :
    record.length = privateRecordBytes ∧ header.index < header.count := by
  simp only [inspectHeader, Except.bind_eq_ok, ensure_eq_ok, beq_iff_eq, Bool.and_eq_true,
    decide_eq_true_eq] at h
  obtain ⟨_, hlength, _, _, _, _, _, _, _, _, _, hbounds, hheader⟩ := h
  cases hheader
  exact ⟨hlength, hbounds.2⟩

/-- The second half of `open_record`: a record whose discovery tag is that of the root key. -/
def openBody (root : Bytes32) (record : Bytes) (header : PrivateRecordHeader) :
    Except Error RecordMatch := do
  let mac ← authenticate crypto root header.id (record.take macOffset)
  ensure (record.drop macOffset == mac.toList) "record authentication failed: MAC tag mismatch"
  let iv := nonce header.index
  ensure (slice record privateHeaderBytes bodyOffset == iv.toList) "noncanonical counter IV"
  let body ← applyKeystream crypto root header.id iv (slice record bodyOffset macOffset)
  let total := fromLe (slice body 32 40)
  let count ← chunkCount total
  ensure (count == header.count) "chunk count does not match encrypted file length"
  let contentType ← ContentType.fromCode (fromLe (slice body 40 44))
  ensureSupported (slice body 44 48 == [0, 0, 0, 0]) "unsupported private metadata flags"
  let remaining ← context (checkedSub total (header.index * chunkBytes))
    "chunk offset exceeds original length"
  let size := min remaining chunkBytes
  let digest ← tryInto 32 (body.take 32)
  .ok (.authenticated {
    id := header.id
    index := header.index
    count := header.count
    total, digest, contentType
    bytes := slice body metadataBytes (metadataBytes + size)
    recordDigest := crypto.sha256 record })

/-- `open_record`. -/
def openRecord (root : Bytes32) (record : Bytes) : Except Error RecordMatch :=
  if record.take 4 = magic then do
    let kind ← RecordKind.parse record
    if kind = .privateRecord then do
      let header ← inspectHeader record
      let tag ← discoveryTag crypto root header.id
      if header.discoveryTag = tag then openBody crypto root record header
      else .ok .unrelated
    else .ok .unrelated
  else .ok .unrelated

/-! ## Objects -/

/-- `PrivateObject`. -/
structure PrivateObject where
  id : Bytes32
  count : ℕ
  total : ℕ
  contentType : ContentType
  digest : Bytes32
  chunks : ExtTreeMap ℕ PrivateChunk
  conflict : Bool

/-- `PrivateObject::new`. -/
def PrivateObject.new (chunk : PrivateChunk) : PrivateObject where
  id := chunk.id
  count := chunk.count
  total := chunk.total
  contentType := chunk.contentType
  digest := chunk.digest
  chunks := (∅ : ExtTreeMap ℕ PrivateChunk).insert chunk.index chunk
  conflict := false

/-- `PrivateObject::insert`. The object is left as it is, but for its conflict flag, when the
chunk is refused. -/
def PrivateObject.insert (object : PrivateObject) (chunk : PrivateChunk) :
    PrivateObject × Except Error Unit :=
  if object.id ≠ chunk.id ∨ object.count ≠ chunk.count ∨ object.total ≠ chunk.total ∨
      object.digest ≠ chunk.digest ∨ object.contentType ≠ chunk.contentType then
    ({ object with conflict := true },
      .error (.invalid "conflicting authenticated object metadata"))
  else
    match object.chunks[chunk.index]? with
    | some previous =>
        if previous.recordDigest ≠ chunk.recordDigest then
          ({ object with conflict := true },
            .error (.invalid "conflicting authenticated record"))
        else (object, .ok ())
    | none => ({ object with chunks := object.chunks.insert chunk.index chunk }, .ok ())

/-- The loop of `PrivateObject::finish`: the chunks in index order. -/
def PrivateObject.collect (object : PrivateObject) : Except Error Bytes :=
  (List.range object.count).foldlM (fun bytes index => do
    let chunk ← context object.chunks[index]? "missing chunk"
    .ok (bytes ++ chunk.bytes)) []

/-- `PrivateObject::finish`. -/
def PrivateObject.finish (object : PrivateObject) : Except Error Bytes := do
  ensure (!object.conflict) "conflicting authenticated object"
  let received ← tryU32 object.chunks.size
  ensure (received == object.count)
    s!"incomplete object: {object.chunks.size} of {object.count} chunks"
  let bytes ← object.collect
  ensure (bytes.length == object.total && crypto.sha256 bytes == object.digest)
    "whole-file integrity failed"
  .ok bytes

/-! ## Strict opening -/

/-- `required_chunk`. -/
def requiredChunk (root : Bytes32) (record : Bytes) : Except Error PrivateChunk := do
  match ← openRecord crypto root record with
  | .authenticated chunk => .ok chunk
  | .unrelated => .error (.invalid "wrong key or unrelated record")

/-- The loop of `open`. -/
def openRest (root : Bytes32) : PrivateObject → List Bytes → Except Error PrivateObject
  | object, [] => .ok object
  | object, record :: records => do
      let chunk ← requiredChunk crypto root record
      let (object, inserted) := object.insert chunk
      inserted
      openRest root object records

/-- `open`. -/
def openRecords (root : Bytes32) (records : List Bytes) : Except Error Bytes :=
  match records with
  | [] => .error (.missing "no records")
  | first :: rest => do
      let chunk ← requiredChunk crypto root first
      let object ← openRest crypto root (PrivateObject.new chunk) rest
      object.finish crypto

/-! ## Framing -/

/-- The bytes of a container of `count` records, header included. -/
def containerSize (count : ℕ) : Except Error ℕ :=
  context (do
    let n ← checkedMul count (privateRecordBytes + 4)
    checkedAdd n containerHeaderBytes) "container size overflow"

/-- The loop of `pack`: every record of one object, each after its length. -/
def packEntries (first : Bytes32) : List Bytes → Except Error Bytes
  | [] => .ok []
  | record :: records => do
      let header ← inspectHeader record
      ensure (header.id == first) "mixed objects"
      let length ← tryU32 record.length
      let entries ← packEntries first records
      .ok (toLe 4 length ++ record ++ entries)

/-- `pack`. -/
def pack (records : List Bytes) : Except Error Bytes := do
  let count ← tryU32 records.length
  ensure (0 < count) "empty container"
  let first ← inspectHeader (records.headD [])
  let _capacity ← containerSize records.length
  let entries ← packEntries first.id records
  .ok (RecordKind.container.prefixOf ++ (toLe 4 count ++ entries))

/-- `framed_records`. -/
def framedRecords (bytes : Bytes) : Except Error (List Bytes) := do
  let kind ← RecordKind.parse bytes
  ensure (kind == .container) "not an offline container"
  ensure (containerHeaderBytes ≤ bytes.length) "truncated container"
  let count := fromLe (slice bytes 8 12)
  ensure (0 < count) "empty container"
  let size ← containerSize count
  ensure (bytes.length == size) "truncated or trailing container data"
  .ok (asChunks (privateRecordBytes + 4) (bytes.drop containerHeaderBytes))

/-- `framed_record`. -/
def framedRecord (entry : Bytes) : Except Error Bytes := do
  ensure (fromLe (entry.take 4) == privateRecordBytes) "invalid container record length"
  .ok (entry.drop 4)

/-- `unpack`. -/
def unpack (bytes : Bytes) : Except Error (List Bytes) := do
  let entries ← framedRecords bytes
  let records ← entries.mapM fun entry => do
    let record ← framedRecord entry
    let _ ← inspectHeader record
    .ok record
  let first ← inspectHeader (records.headD [])
  records.forM fun record => do
    let header ← inspectHeader record
    ensure (header.id == first.id) "mixed objects"
  .ok records

/-! ## Recovery -/

/-- `ContainerRecovery`. -/
structure ContainerRecovery where
  id : Bytes32
  count : ℕ
  total : ℕ
  digest : Bytes32
  contentType : ContentType
  bytes : Bytes
  skippedUnrelated : ℕ
  rejectedRecords : ℕ

/-- `RecoveryRecord`. -/
inductive RecoveryRecord where
  | matched (record : RecordMatch)
  | rejected (reason : String)

/-- `classify_rejection`. -/
def classifyRejection : Error → Except Error RecoveryRecord
  | .invalid reason => .ok (.rejected reason)
  | .unsupported reason => .ok (.rejected reason)
  | fatal => .error fatal

/-- `recovery_record`. -/
def recoveryRecord (root : Bytes32) (record : Bytes) : Except Error RecoveryRecord :=
  match openRecord crypto root record with
  | .ok found => .ok (.matched found)
  | .error error => classifyRejection error

/-- The local variables of `recover_container`. -/
structure Recovery where
  objects : ExtTreeMap Bytes32 PrivateObject
  skippedUnrelated : ℕ
  rejectedRecords : ℕ

/-- What an authenticated chunk does to the objects seen so far. -/
def insertChunk (objects : ExtTreeMap Bytes32 PrivateObject) (chunk : PrivateChunk) :
    Except Error (ExtTreeMap Bytes32 PrivateObject) :=
  match objects[chunk.id]? with
  | none => .ok (objects.insert chunk.id (PrivateObject.new chunk))
  | some object => do
      let (object, inserted) := object.insert chunk
      inserted
      .ok (objects.insert chunk.id object)

/-- The body of the loop of `recover_container`. -/
def recoverEntry (root : Bytes32) (state : Recovery) (entry : Bytes) : Except Error Recovery := do
  match ← recoveryRecord crypto root (entry.drop 4) with
  | .matched .unrelated => .ok { state with skippedUnrelated := state.skippedUnrelated + 1 }
  | .rejected _ => .ok { state with rejectedRecords := state.rejectedRecords + 1 }
  | .matched (.authenticated chunk) =>
      let objects ← insertChunk state.objects chunk
      ensure (objects.size == 1) "multiple authenticated objects"
      .ok { state with objects }

/-- `recover_container`. -/
def recoverContainer (root : Bytes32) (bytes : Bytes) : Except Error ContainerRecovery := do
  let entries ← framedRecords bytes
  entries.forM fun entry => do
    let _ ← framedRecord entry
  let state ← entries.foldlM (recoverEntry crypto root) ⟨∅, 0, 0⟩
  match state.objects.toList.head? with
  | none => .error (.invalid "no authenticated object")
  | some (_, object) =>
      let bytes ← object.finish crypto
      .ok {
        bytes
        id := object.id
        count := object.count
        total := object.total
        digest := object.digest
        contentType := object.contentType
        skippedUnrelated := state.skippedUnrelated
        rejectedRecords := state.rejectedRecords }

end Container

end Urma
