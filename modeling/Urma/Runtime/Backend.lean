import Urma.Core.Recovery
import Urma.Runtime.Publish

/-!
# Recovering many objects

`urma_runtime::backend`: records of any origin are opened one after another, and what authenticates
is collected by object. A record that is refused is counted, a conflict is kept with the object,
and only the number of objects can end a recovery. `export` then judges every object on its own.
-/

namespace Urma.Runtime

open Std Container Format

/-! ## Collecting -/

namespace Backend

variable (crypto : Crypto)

/-- `config::MAX_OBJECTS`. -/
def maxObjects : ℕ := 64

/-- The objects of a recovery, by their id. -/
abbrev Objects := ExtTreeMap Bytes32 PrivateObject

/-- The `match` of `accept_record` on the entry of an authenticated chunk. What `insert` returns is
only logged. -/
def keep (objects : Objects) (chunk : PrivateChunk) : Objects :=
  match objects[chunk.id]? with
  | some object => objects.insert chunk.id (object.insert chunk).1
  | none => objects.insert chunk.id (PrivateObject.new chunk)

/-- `accept_record`. -/
def acceptRecord (root : Bytes32) (record : Bytes) (objects : Objects) :
    Except ServiceError (ℕ × Objects) :=
  match openRecord crypto root record with
  | .error _ => .ok (1, objects)
  | .ok .unrelated => .ok (0, objects)
  | .ok (.authenticated chunk) => do
      let objects := keep objects chunk
      ensureService (objects.size ≤ maxObjects) "client object capacity exceeded"
      .ok (0, objects)

/-- A counter that is raised by what `accept_record` returns. -/
def countRejected (rejected more : ℕ) (message : String) : Except ServiceError ℕ :=
  contextService (checkedAdd rejected more) message

/-- The closure of `recover`, on one record after another. -/
def acceptAll (root : Bytes32) : List Bytes → ℕ → Objects → Except ServiceError (ℕ × Objects)
  | [], rejected, objects => .ok (rejected, objects)
  | record :: records, rejected, objects => do
      let (more, objects) ← acceptRecord crypto root record objects
      let rejected ← countRejected rejected more "rejected record count overflow"
      acceptAll root records rejected objects

/-! ## Sources -/

/-- `Family`. -/
inductive Family where
  | litecoin
  | bitcoin
  | directory
  | ethereum
  | storj
  | googleDrive
  | s3
  deriving DecidableEq

/-- `Locator`. -/
inductive Locator where
  | blockRange (network : String) (startHeight tipHeight : ℕ) (tipHash : String)
  | directory (path : String)
  deriving DecidableEq

/-- `Evidence`. -/
inductive Evidence where
  | litecoinCoreTrusted
  | localBytes
  | commitmentsAndCoreChain
  | commitmentsAndProviderChain
  deriving DecidableEq

/-- `Observation`. -/
structure Observation where
  backend : Family
  locator : Locator
  evidence : Evidence
  scannedBytes : ℕ
  deriving DecidableEq

/-- A `RecordSource`: the records it emits, and what it returns after them. -/
structure RecordSource where
  records : List Bytes
  finish : Except ServiceError Observation

/-- `Recovery`. -/
structure Recovery where
  objects : Objects
  rejectedRecords : ℕ
  observation : Observation

/-- `recover`. -/
def recover (source : RecordSource) (root : Bytes32) : Except ServiceError Recovery := do
  let (rejectedRecords, objects) ← acceptAll crypto root source.records 0 ∅
  let observation ← source.finish
  .ok { objects, rejectedRecords, observation }

/-! ## Export -/

/-- What `export` reports of an object, with the bytes it writes. -/
inductive ObjectStatus where
  | conflicted
  | incomplete (received expected total : ℕ)
  | invalid (reason : Error)
  | complete (bytes : Bytes) (contentType : ContentType) (chunks : ℕ) (digest : Bytes32)
  deriving DecidableEq

/-- `PrivateObject::is_complete`. An index is a `u32`, so the number of chunks is one too. -/
def isComplete (object : PrivateObject) : Bool :=
  !object.conflict && object.chunks.size == object.count

/-- The body of the loop of `export`. -/
def objectStatus (object : PrivateObject) : ObjectStatus :=
  if object.conflict then .conflicted
  else if !isComplete object then
    .incomplete object.chunks.size object.count object.total
  else
    match object.finish crypto with
    | .error error => .invalid error
    | .ok bytes => .complete bytes object.contentType object.count (crypto.sha256 bytes)

/-- `ObjectStatus::complete`, without its data. -/
def ObjectStatus.isComplete : ObjectStatus → Bool
  | .complete .. => true
  | _ => false

/-- The `status` of a report. -/
inductive ReportStatus where
  | complete
  | notFound
  | partialObjects
  deriving DecidableEq

/-- `ExportReport`, with the fields of its report. -/
structure ExportReport where
  complete : Bool
  status : ReportStatus
  objects : List (Bytes32 × ObjectStatus)
  rejectedRecords : ℕ
  observation : Observation

/-- `export` to a new directory that can be written. -/
def exportReport (recovery : Recovery) : ExportReport :=
  let objects := recovery.objects.toList.map fun (_, object) =>
    (object.id, objectStatus crypto object)
  let complete := objects.countP fun (_, status) => status.isComplete
  let success := 0 < complete && complete == recovery.objects.size
  { complete := success
    status := if success then .complete
      else if recovery.objects.isEmpty then .notFound else .partialObjects
    objects
    rejectedRecords := recovery.rejectedRecords
    observation := recovery.observation }

end Backend

end Urma.Runtime
