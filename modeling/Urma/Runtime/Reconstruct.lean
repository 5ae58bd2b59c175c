import Urma.Core.Inventory
import Urma.Core.Proof
import Urma.Runtime.Publish

/-!
# Recovering a multipart object

`urma_runtime::multipart::recovery`: the leaves a root names and the data parts they name are
fetched from a source that may answer anything, and the payloads are written one after another.
The source, the clock and the storage are asked; the two scratch files are what has been written
to them.
-/

namespace Urma.Runtime

open Lib Lib.Layout

/-! ## Data -/

/-- `recovery::Candidate`. -/
structure Candidate (sha256 : Bytes → Bytes32) where
  origin : String
  record : VerifiedRecord sha256

/-- `recovery::FetchError`. -/
inductive FetchError where
  | unavailable
  | rejected (origin : String) (cause : Error)
  | source (cause : ServiceError)

/-- `recovery::RecoveryLimits`, without the timeout, which the clock is asked about. -/
structure RecoveryLimits where
  maxPayloadBytes : ℕ
  maxNodes : ℕ
  attempts : ℕ
  deriving DecidableEq

/-- `recovery::RecoveryError`. -/
inductive RecoveryError where
  | invalidObject (cause : Error)
  | invalidCandidate (txid : Txid) (cause : Error)
  | incomplete (txid : Txid)
  | source (txid : Txid) (cause : ServiceError)
  | capacity (message : String)
  | storage (message : String)
  deriving DecidableEq

/-- `recovery::RecoveredObject`, with the bytes of its payload file. -/
structure RecoveredObject where
  root : Txid
  author : XOnlyPublicKey
  manifest : RootManifest
  payload : Bytes
  deriving DecidableEq

namespace Reconstruct

/-! ## What is asked -/

/-- The source is asked for a record or told of the next ones, the clock whether the deadline has
passed, and the storage to create, write, read or rewind a file. -/
inductive Request where
  | fetch (request : RecordRequest) (rejected : List String)
  | prefetch (requests : List RecordRequest)
  | expired
  | storage
  deriving DecidableEq

variable (sha256 : Bytes → Bytes32)

/-- What each call answers. -/
abbrev Answer : Request → Type
  | .fetch _ _ => Except FetchError (Candidate sha256)
  | .prefetch _ => Unit
  | .expired => Bool
  | .storage => Except String Unit

/-- A program of the recovery. -/
abbrev Recovering (α : Type) := Program Request (Answer sha256) RecoveryError α

/-- The calls of a run, with their answers. -/
abbrev Calls := List (Call Request (Answer sha256))

/-- One step of the storage. -/
def storage : Recovering sha256 Unit := do
  let answer ← (Program.call Request.storage : Recovering sha256 (Answer sha256 .storage))
  match answer with
  | .ok () => pure ()
  | .error message => Program.fail (.storage message)

/-- `?` on an error of `urma_core`. -/
def orInvalid {α : Type} (result : Except Error α) : Except RecoveryError α :=
  match result with
  | .ok value => .ok value
  | .error cause => .error (.invalidObject cause)

@[simp] theorem orInvalid_eq_ok {α : Type} {result : Except Error α} {value : α} :
    orInvalid result = .ok value ↔ result = .ok value := by
  cases result <;> simp [orInvalid]

/-! ## One record -/

/-- `Attempted`. -/
inductive Attempted where
  | nothing
  | rejected (cause : Error)
  | failed (cause : ServiceError)

/-- `given_up`. -/
def givenUp (txid : Txid) : Attempted → RecoveryError
  | .nothing => .source txid (.message "recovery deadline passed")
  | .rejected cause => .invalidCandidate txid cause
  | .failed cause => .source txid cause

/-- `unavailable`. -/
def unavailable (txid : Txid) : Attempted → RecoveryError
  | .nothing => .incomplete txid
  | .rejected cause => .invalidCandidate txid cause
  | .failed _ => .incomplete txid

/-- The loop of `fetch_candidate`, by the attempts that are left. -/
def fetchCandidate (request : RecordRequest) :
    ℕ → List String → Attempted → Recovering sha256 (VerifiedRecord sha256)
  | 0, _, attempted => Program.fail (givenUp request.reference.txid attempted)
  | attempts + 1, rejected, attempted => do
      let expired ← (Program.call Request.expired : Recovering sha256 (Answer sha256 .expired))
      if expired then Program.fail (givenUp request.reference.txid attempted)
      else do
        let refuse (origin : String) (cause : Error) :
            Recovering sha256 (VerifiedRecord sha256) :=
          if rejected.contains origin then
            Program.fail (.invalidCandidate request.reference.txid cause)
          else fetchCandidate request attempts (rejected ++ [origin]) (.rejected cause)
        let answer ← (Program.call (Request.fetch request rejected) :
          Recovering sha256 (Answer sha256 (.fetch request rejected)))
        match answer with
        | .ok candidate =>
            if candidate.record.txid = request.reference.txid then return candidate.record
            else refuse candidate.origin (.invalid "candidate TXID mismatch")
        | .error (.rejected origin cause) => refuse origin cause
        | .error (.source cause) => fetchCandidate request attempts rejected (.failed cause)
        | .error .unavailable =>
            Program.fail (unavailable request.reference.txid attempted)

variable {sha256} in
/-- `accept`. -/
def accept (request : RecordRequest) (record : VerifiedRecord sha256) (author : XOnlyPublicKey) :
    Except RecoveryError (VerifiedRecord sha256) := do
  orInvalid (request.checkHash record)
  if record.author ≠ author then
    .error (.invalidObject (.invalid "referenced child author differs from root"))
  else .ok record

/-- `fetch`, with `Budget::attempts`. -/
def fetch (reference : ChildReference) (author : XOnlyPublicKey) (limits : RecoveryLimits) :
    Recovering sha256 (VerifiedRecord sha256) := do
  let record ← fetchCandidate sha256 ⟨reference⟩ (max limits.attempts 1) [] .nothing
  accept ⟨reference⟩ record author

/-! ## The manifests -/

/-- The references of a leaf are written to the scratch file. -/
def writeReferences : List ChildReference → Bytes → Recovering sha256 Bytes
  | [], file => pure file
  | reference :: references, file => do
      storage sha256
      storage sha256
      writeReferences references
        (file ++ (reference.txid.bytes.toList ++ reference.recordHash.toList))

/-- The inner loop of `inventory`, over a batch. -/
def inventoryBatch (author : XOnlyPublicKey) (limits : RecoveryLimits) :
    List ChildReference → ManifestInventory → Bytes →
      Recovering sha256 (ManifestInventory × Bytes)
  | [], inventory, file => return (inventory, file)
  | entry :: batch, inventory, file => do
      let verified ← fetch sha256 entry author limits
      let record ← orInvalid verified.decode
      match record with
      | .leaf leaf => do
          let inventory ← orInvalid (inventory.acceptLeaf leaf)
          let file ← writeReferences sha256 leaf.entries file
          inventoryBatch author limits batch inventory file
      | _ => Program.fail (.invalidObject (.invalid "root must reference leaf manifests"))

/-- The outer loop of `inventory`. -/
def inventoryBatches (author : XOnlyPublicKey) (limits : RecoveryLimits) :
    List (List ChildReference) → ManifestInventory → Bytes →
      Recovering sha256 (ManifestInventory × Bytes)
  | [], inventory, file => return (inventory, file)
  | batch :: batches, inventory, file => do
      (Program.call (Request.prefetch (batch.map RecordRequest.mk)) : Recovering sha256 Unit)
      let (inventory, file) ← inventoryBatch sha256 author limits batch inventory file
      inventoryBatches author limits batches inventory file

/-- `inventory`: what has been written to the scratch file, rewound. -/
def inventory (root : VerifiedRecord sha256) (manifest : RootManifest) (limits : RecoveryLimits) :
    Recovering sha256 Bytes := do
  let inventory ← orInvalid (ManifestInventory.new root.txid manifest)
  let (_, file) ← inventoryBatches sha256 root.author limits (chunks 8 manifest.entries)
    inventory []
  storage sha256
  return file

/-! ## The data parts -/

/-- `read_requests`: the requests, and the rest of the file. -/
def readRequests : ℕ → Bytes → Recovering sha256 (List RecordRequest × Bytes)
  | 0, file => return ([], file)
  | count + 1, file => do
      storage sha256
      storage sha256
      let reference ← match tryInto 32 (file.take 32), tryInto 32 ((file.drop 32).take 32) with
        | .ok txid, .ok recordHash =>
            (pure { txid := ⟨txid⟩, recordHash } : Recovering sha256 ChildReference)
        | _, _ => Program.fail (.storage "failed to fill whole buffer")
      let (requests, rest) ← readRequests count (file.drop 64)
      return (⟨reference⟩ :: requests, rest)

/-- The inner loop of `reconstruct_parts`: index, length so far and payload file. -/
def partsBatch (author : XOnlyPublicKey) (geometry : Geometry) (limits : RecoveryLimits) :
    List RecordRequest → ℕ → ℕ → Bytes → Recovering sha256 (ℕ × Bytes)
  | [], _, length, payload => return (length, payload)
  | request :: requests, index, length, payload => do
      let verified ← fetch sha256 request.reference author limits
      let record ← orInvalid verified.decode
      match record with
      | .data part => do
          let expected ← orInvalid (geometry.partLength index)
          if part.index ≠ index ∨ part.payload.length ≠ expected then
            Program.fail (.invalidObject (.invalid "data position or length disagrees with root"))
          else do
            let length ← match checkedAdd length part.payload.length with
              | some length => (pure length : Recovering sha256 ℕ)
              | none => Program.fail (.invalidObject (.invalid "reconstruction length overflow"))
            storage sha256
            partsBatch author geometry limits requests (index + 1) length
              (payload ++ part.payload)
      | _ => Program.fail (.invalidObject (.invalid "leaf must reference data parts"))

/-- The outer loop of `reconstruct_parts`, over the starts of the batches. -/
def partsBatches (author : XOnlyPublicKey) (geometry : Geometry) (limits : RecoveryLimits) :
    List ℕ → Bytes → ℕ → Bytes → Recovering sha256 (ℕ × Bytes)
  | [], _, length, payload => return (length, payload)
  | start :: starts, file, length, payload => do
      let count := min (geometry.parts - start) 8
      let (requests, file) ← readRequests sha256 count file
      (Program.call (Request.prefetch requests) : Recovering sha256 Unit)
      let (length, payload) ← partsBatch sha256 author geometry limits requests start length payload
      partsBatches author geometry limits starts file length payload

/-- `(0..parts).step_by(8)`. -/
def starts (parts : ℕ) : List ℕ :=
  (List.range ((parts + 7) / 8)).map (· * 8)

/-- `reconstruct_parts`: the payload file, rewound. The digest is that of what is written to it. -/
def reconstructParts (author : XOnlyPublicKey) (manifest : RootManifest) (geometry : Geometry)
    (limits : RecoveryLimits) (file : Bytes) : Recovering sha256 Bytes := do
  let (length, payload) ← partsBatches sha256 author geometry limits (starts geometry.parts) file
    0 []
  if length ≠ manifest.length ∨ sha256 payload ≠ manifest.payloadHash then
    Program.fail (.invalidObject (.invalid "complete payload length or digest mismatch"))
  else do
    storage sha256
    return payload

/-- `reconstruct`. -/
def reconstruct (root : VerifiedRecord sha256) (limits : RecoveryLimits) :
    Recovering sha256 RecoveredObject := do
  let record ← orInvalid root.decode
  match record with
  | .root manifest => do
      let geometry ← orInvalid manifest.geometry
      if geometry.length > limits.maxPayloadBytes ∨ geometry.nodes > limits.maxNodes then
        Program.fail (.capacity "object exceeds caller's byte/node budget")
      else do
        storage sha256
        let file ← inventory sha256 root manifest limits
        storage sha256
        let payload ← reconstructParts sha256 root.author manifest geometry limits file
        return { root := root.txid, author := root.author, manifest, payload }
  | _ => Program.fail (.invalidObject (.invalid "recovery locator must name a root manifest"))

end Reconstruct

end Urma.Runtime
