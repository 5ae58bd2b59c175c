import Urma.Runtime.Planner

/-!
# The quote of a multipart publication

`urma_runtime::quote` prices a payload by its length: a sample record stands for each record, and
a commit of one input for each commit. `disk_writer` and `plan` prepare the records of a payload,
the parts first, then the leaf manifests that list them, then the root manifest.
-/

namespace Urma.Runtime

open Chain Lib Lib.Layout

variable (crates : PrepareCrates)

/-- `publication::quote_record`. -/
def quoteRecord (record : Bytes) (author : XOnlyPublicKey) (returnScript : Bytes) (feeRate : ℕ) :
    Except ServiceError ℕ := do
  ensureService (1 ≤ feeRate && feeRate ≤ 100) "invalid fee rate"
  ensureService (crates.reveal.isP2wpkh returnScript) "funding requires native P2WPKH"
  let output : TxOut := ⟨1000, returnScript⟩
  let draft ← draft crates record author output
  let commit := commitOf [OutPoint.null] ⟨1000, crates.newP2trTweaked draft.info⟩ output
  let bytes ← contextService
    (checkedAdd (signedVsize crates commit) (crates.vsize draft.reveal)) "quote fee overflow"
  contextService (checkedMul bytes feeRate) "quote fee overflow"

/-- `quote::Quote`. -/
structure Quote where
  records : ℕ
  payloadBytes : ℕ
  parts : ℕ
  leaves : ℕ
  retainedValue : ℕ
  maximumFee : ℕ
  funding : ℕ
  deriving DecidableEq

namespace Quote

/-- A reference of `quote::references`. -/
def reference (index : ℕ) : ChildReference where
  txid := ⟨⟨(toLe 8 (index + 1) ++ List.replicate 24 0).toArray, by simp⟩⟩
  recordHash := zeroHash

/-- `quote::references`. -/
def references (count : ℕ) : List ChildReference :=
  (List.range count).map reference

/-- `quote::sample`. -/
def sample (geometry : Geometry) (index : ℕ) : Except Error MultipartRecord :=
  if index < geometry.parts then do
    let length ← geometry.partLength index
    .ok (.data { index := 0, payload := List.replicate length 0 })
  else if index - geometry.parts < geometry.leaves then do
    let leaf ← tryU16 (index - geometry.parts)
    let count ← geometry.leafEntries leaf
    .ok (.leaf { index := leaf, entries := references count })
  else
    .ok (.root
      { length := geometry.length
        payloadHash := zeroHash
        profile := Vector.replicate 8 0
        entries := references geometry.leaves })

/-- The fee of a record, which is quoted once for every length. -/
def cached (author : XOnlyPublicKey) (script : Bytes) (rate : ℕ) (fees : List (ℕ × ℕ))
    (record : Bytes) : Except ServiceError (ℕ × List (ℕ × ℕ)) :=
  match fees.lookup record.length with
  | some fee => .ok (fee, fees)
  | none => do
      let fee ← quoteRecord crates record author script rate
      .ok (fee, (record.length, fee) :: fees)

/-- The loop of `quote::multipart` over the records. -/
def total (geometry : Geometry) (author : XOnlyPublicKey) (script : Bytes) (rate : ℕ) :
    List ℕ → List (ℕ × ℕ) → ℕ → Except ServiceError ℕ
  | [], _, sum => .ok sum
  | index :: rest, fees, sum => do
      let record ← crates.protocol (sample geometry index)
      let record ← crates.protocol record.encode
      let (fee, fees) ← cached crates author script rate fees record
      let sum ← contextService (checkedAdd sum fee) "quote overflow"
      total geometry author script rate rest fees sum

/-- `quote::multipart`. -/
def multipart (length : ℕ) (author : XOnlyPublicKey) (funder : Account crates.PrivateKey)
    (rate : ℕ) : Except ServiceError Quote := do
  let geometry ← crates.protocol (Geometry.new length)
  let script ← funder.receiveScript crates
  let total ← total crates geometry author script rate (List.range geometry.nodes) [] 0
  let funding ← contextService
    (checkedAdd total ((geometry.nodes + 1) * publicationReturn funder.chain))
    "quote funding overflow"
  .ok
    { records := geometry.nodes
      payloadBytes := length
      parts := geometry.parts
      leaves := geometry.leaves
      retainedValue := publicationReturn funder.chain
      maximumFee := total
      funding }

end Quote

/-! ## Preparing a payload -/

namespace Planner

/-- How preparing a payload fails: in `prepare_record`, with the planner and the record it was
called with, or elsewhere. -/
inductive Failure where
  | preparing (planner : Planner) (record : Bytes) (error : ServiceError)
  | other (error : ServiceError)

/-- An error from elsewhere. -/
def elsewhere {α : Type} : Except ServiceError α → Except Failure α
  | .ok value => .ok value
  | .error error => .error (.other error)

variable (author : Author) (funder : Account crates.PrivateKey)
  (store : PublicPlan → Except ServiceError Unit)

/-- `append`, of a writer that stores what is prepared in memory or on disk. -/
def write (record : Bytes) (planner : Planner) : Except Failure (ChildReference × Planner) :=
  match planner.prepareRecord crates author funder record with
  | .error error => .error (.preparing planner record error)
  | .ok (reference, pair, next) => do
      elsewhere (store pair)
      .ok (reference, next)

/-- The loop of `prepare` over the data parts. -/
def writeParts (geometry : Geometry) (payload : Bytes) :
    List ℕ → Planner → Except Failure (List ChildReference × Planner)
  | [], planner => .ok ([], planner)
  | index :: rest, planner => do
      let length ← elsewhere (crates.protocol (geometry.partLength index))
      let start := index * Geometry.dataBytes
      let part : MultipartRecord := .data { index, payload := slice payload start (start + length) }
      let record ← elsewhere (crates.protocol part.encode)
      let (reference, planner) ← write crates author funder store record planner
      let (references, planner) ← writeParts geometry payload rest planner
      .ok (reference :: references, planner)

/-- The loop of `prepare` over the leaf manifests. -/
def writeLeaves : ℕ → List (List ChildReference) → Planner →
    Except Failure (List ChildReference × Planner)
  | _, [], planner => .ok ([], planner)
  | index, entries :: rest, planner => do
      let position ← elsewhere (crates.protocol (tryU16 index))
      let leaf : MultipartRecord := .leaf { index := position, entries }
      let record ← elsewhere (crates.protocol leaf.encode)
      let (reference, planner) ← write crates author funder store record planner
      let (references, planner) ← writeLeaves (index + 1) rest planner
      .ok (reference :: references, planner)

/-- The root manifest, at the end of `prepare`. -/
def writeRoot (payload : Bytes) (profile : Vector UInt8 8) (leaves : List ChildReference)
    (planner : Planner) : Except Failure Planner := do
  let root : MultipartRecord := .root
    { length := payload.length, payloadHash := crates.sha256 payload, profile, entries := leaves }
  let record ← elsewhere (crates.protocol root.encode)
  let (_, planner) ← write crates author funder store record planner
  .ok planner

/-- `prepare`, of the records of a payload. -/
def writeMultipart (geometry : Geometry) (payload : Bytes) (profile : Vector UInt8 8)
    (planner : Planner) : Except Failure Planner := do
  let (parts, planner) ←
    writeParts crates author funder store geometry payload (List.range geometry.parts) planner
  let (leaves, planner) ←
    writeLeaves crates author funder store 0 (chunks Geometry.fanout parts) planner
  writeRoot crates author funder store payload profile leaves planner

/-- `prepare_multipart`, with the coins that `Planner::streaming` selects. -/
def prepareMultipart (limits : PlanLimits) (inputs : List FundingInput) (payload : Bytes)
    (profile : Vector UInt8 8) : Except Failure Planner := do
  let geometry ← elsewhere (crates.protocol (Geometry.new payload.length))
  let _ ← elsewhere (minimum funder.chain limits geometry.nodes)
  let planner ← elsewhere (funded crates author funder funder.chain limits inputs)
  writeMultipart crates author funder store geometry payload profile planner

end Planner

end Urma.Runtime
