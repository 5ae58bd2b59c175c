import Urma.Core.Container
import Urma.Runtime.Prepare

/-!
# Transparent journals

`urma_runtime::journal`: a journal holds one commit with an output for every record of an object,
and the reveals that spend them. It is validated before anything of it is published.
-/

namespace Urma.Runtime

open Chain Lib

/-! ## Data -/

/-- `config::BITCOIN_RETURN_SATS`. -/
def bitcoinReturnSats : ℕ := 1000

/-- `config::BITCOIN_MAX_FEE_SATS`. -/
def bitcoinMaxFeeSats : ℕ := 500000

/-- `config::BITCOIN_MAX_FEE_RATE`. -/
def bitcoinMaxFeeRate : ℕ := 100

/-- `Limits::INPUT_BYTES`. -/
def limitInputBytes : ℕ := 16 * 1024 * 1024

/-- `Limits::RECORDS`. -/
def limitRecords : ℕ := limitInputBytes / Format.chunkBytes

namespace Journal

/-- `journal::Plan`. -/
structure Plan where
  version : ℕ
  network : String
  objectId : String
  startHeight : ℕ
  inputBytes : ℕ
  feeSats : ℕ
  commitFeeSats : ℕ
  revealFeeSats : ℕ
  feeRateSatVb : ℕ
  funding : Funding
  commit : String
  reveals : List String
  miningAddress : String
  deriving DecidableEq

/-- What validating a journal takes from other crates beyond a plan. -/
structure Crates extends PlanCrates where
  /-- `PublicKey::from_slice`, a key being held as its bytes. -/
  publicFromSlice : Bytes → Except ServiceError Bytes
  /-- `CompressedPublicKey::try_from`. -/
  compressedTryFrom : Bytes → Except ServiceError Bytes

/-- The report on a valid journal. -/
structure Report where
  network : String
  objectId : String
  inputBytes : ℕ
  startHeight : ℕ
  totalChunks : ℕ
  feeRateSatVb : ℕ
  feeSats : ℕ
  commitFeeSats : ℕ
  revealFeeSats : ℕ
  commitTxid : String
  revealTxids : List String
  commitVsize : ℕ
  revealVsizes : List ℕ
  fundingTxid : String
  fundingVout : ℕ
  fundingSats : ℕ
  changeSats : ℕ
  payoutAddress : String
  deriving DecidableEq

variable (crates : Crates) (plan : Plan) (payout : Bytes)

/-! ## The commit -/

/-- `decode_transaction`. -/
def decodeTransaction (raw : String) : Except ServiceError Transaction :=
  decodeBounded crates.toPublishCrates raw 8000000

/-- `validate_shape`. -/
def validateShape (tx : Transaction) : Except ServiceError Unit := do
  ensureService (tx.version == 2 && tx.lockTime == 0) "unexpected transaction version or locktime"
  ensureService (match tx.input with
    | [input] => input.scriptSig.isEmpty && input.sequence == enableRbfNoLocktime
    | _ => false) "unexpected transaction input structure"
  ensureService (crates.weight tx ≤ standardTxWeight) "transaction exceeds standard weight"

/-- `validate_metadata`. -/
def validateMetadata : Except ServiceError Unit := do
  ensureService (plan.inputBytes ≤ limitInputBytes) "client input capacity exceeded"
  ensureService (plan.version == Format.version.toNat) "unsupported publication journal"
  ensureService (1 ≤ plan.reveals.length && plan.reveals.length ≤ limitRecords)
    "invalid reveal count"
  ensureService (1 ≤ plan.inputBytes && plan.inputBytes ≤ limitInputBytes) "invalid input length"
  ensureService ((plan.inputBytes + Format.chunkBytes - 1) / Format.chunkBytes ==
    plan.reveals.length) "journal input length disagrees with reveal count"
  ensureService (1 ≤ plan.feeRateSatVb && plan.feeRateSatVb ≤ bitcoinMaxFeeRate)
    "invalid journal fee rate"
  ensureService (plan.feeSats ≤ bitcoinMaxFeeSats) "journal exceeds client fee cap"
  let objectId ← crates.hexDecode plan.objectId
  ensureService (objectId.length == 32) "invalid journal object ID"

/-- `signing::verify_p2wpkh_signature`, its errors as the journal turns them. -/
def verifyP2wpkhSignature (transaction : Transaction) (previous : TxOut)
    (signature : EcdsaSignature) (key : Bytes) : Except ServiceError Unit := do
  ensureService (signature.sighashType == .all) "commit must sign all outputs"
  ensureService (previous.scriptPubkey == crates.newP2wpkh key)
    "funding key does not match previous output"
  let hash ← crates.p2wpkhSignatureHash transaction 0 previous.scriptPubkey previous.value
    signature.sighashType
  match crates.verifyEcdsa hash signature.signature key with
  | .ok () => .ok ()
  | .error cause => .error (.message s!"invalid commit signature: {cause.text}")

/-- `verify_funding_signature`. -/
def verifyFundingSignature (commit : Transaction) (previous : TxOut)
    (requireSignedCommit : Bool) : Except ServiceError Unit := do
  let input ← contextService commit.input[0]? "index out of bounds"
  match requireSignedCommit with
  | true => do
      ensureService (input.witness.length == 2) "invalid P2WPKH signature witness"
      let first ← contextService input.witness[0]? "index out of bounds"
      let signature ← crates.ecdsaFromSlice first
      ensureService (signature.sighashType == .all) "commit must sign all outputs"
      let second ← contextService input.witness[1]? "index out of bounds"
      let key ← crates.publicFromSlice second
      let compressed ← crates.compressedTryFrom key
      verifyP2wpkhSignature crates commit previous signature compressed
  | false => ensureService input.witness.isEmpty "draft commit must be unsigned"

/-- The sum of `try_fold` over the values of some outputs. -/
def outputSats : List TxOut → ℕ → Option ℕ
  | [], total => some total
  | output :: outputs, total =>
      (checkedAdd total output.value.toNat).bind (outputSats outputs)

/-- `validate_commit`. -/
def validateCommit (commit : Transaction) (outpoint : OutPoint) (previous : TxOut)
    (requireSignedCommit : Bool) : Except ServiceError ℕ := do
  validateShape crates commit
  let input ← contextService commit.input[0]? "index out of bounds"
  ensureService (input.previousOutput == outpoint) "commit does not spend supplied funding"
  ensureService (commit.output.length == plan.reveals.length + 1) "commit has unexpected outputs"
  let change ← contextService commit.output.getLast? "commit change missing"
  ensureService (change.scriptPubkey == payout && bitcoinReturnSats ≤ change.value.toNat)
    "invalid commit change destination or value"
  let outputs ← contextService (outputSats commit.output 0) "commit output sum overflow"
  let commitFee ← contextService (checkedSub previous.value.toNat outputs)
    "commit spends more than funding"
  ensureService (commitFee == plan.commitFeeSats)
    "journal commit fee differs from signed transaction"
  let worstCase := withWitnesses commit [List.replicate 73 0, List.replicate 33 0]
  ensureService (commitFee == crates.vsize worstCase * plan.feeRateSatVb &&
    crates.vsize commit * plan.feeRateSatVb ≤ commitFee)
    "commit fee is inconsistent with selected rate"
  verifyFundingSignature crates commit previous requireSignedCommit
  .ok commitFee

/-! ## The reveals -/

/-- The variables of the loop of `validate_reveals`. -/
structure Scan where
  seen : List ℕ
  seenChunks : List ℕ
  discoveryTag : Option (Vector UInt8 16)
  revealFee : ℕ
  revealIds : List String
  revealSizes : List ℕ
  deriving DecidableEq

/-- The variables at the start of the loop. -/
def Scan.new : Scan where
  seen := []
  seenChunks := []
  discoveryTag := none
  revealFee := 0
  revealIds := []
  revealSizes := []

/-- The output of a reveal. -/
def isPayout (payout : Bytes) (outputs : List TxOut) : Bool :=
  match outputs with
  | [output] => output.value.toNat == bitcoinReturnSats && output.scriptPubkey == payout
  | _ => false

/-- The body of the loop of `validate_reveals`. -/
def Scan.append (commit : Transaction) (scan : Scan) (raw : String) :
    Except ServiceError Scan := do
  let reveal ← decodeTransaction crates raw
  validateShape crates reveal
  let input ← contextService reveal.input[0]? "index out of bounds"
  let source := input.previousOutput
  ensureService (source.txid == crates.reveal.consensus.computeTxid commit &&
    source.vout.toNat < plan.reveals.length) "reveal does not spend a commit media output"
  ensureService (!scan.seen.contains source.vout.toNat)
    "duplicate reveal spends the same commit output"
  ensureService (isPayout payout reveal.output) "invalid reveal payout"
  let prevout ← contextService commit.output[source.vout.toNat]? "index out of bounds"
  ensureService (crates.reveal.isP2tr prevout.scriptPubkey) "commit media output is not Taproot"
  let fee ← contextService (checkedSub prevout.value.toNat bitcoinReturnSats)
    "reveal spends more than commit output"
  ensureService (fee == crates.vsize reveal * plan.feeRateSatVb)
    "reveal fee differs from selected rate"
  let revealFee ← contextService (checkedAdd scan.revealFee fee) "reveal fee sum overflow"
  let parsed ← crates.protocol (Envelope.verifyReveal crates.reveal reveal commit)
  let header ← crates.protocol (Container.inspectHeader parsed.record)
  let objectId ← crates.hexDecode plan.objectId
  ensureService (header.id.toList == objectId && header.count == plan.reveals.length)
    "reveal metadata differs from journal"
  ensureService (!scan.seenChunks.contains header.index) "duplicate record index"
  ensureService (scan.discoveryTag.all (· == header.discoveryTag)) "inconsistent discovery tags"
  .ok {
    seen := source.vout.toNat :: scan.seen
    seenChunks := header.index :: scan.seenChunks
    discoveryTag := some header.discoveryTag
    revealFee
    revealIds := scan.revealIds ++
      [crates.displayTxid (crates.reveal.consensus.computeTxid reveal)]
    revealSizes := scan.revealSizes ++ [crates.vsize reveal] }

/-- The loop of `validate_reveals`. -/
def Scan.appendAll (commit : Transaction) : Scan → List String → Except ServiceError Scan
  | scan, [] => .ok scan
  | scan, raw :: raws => do
      let scan ← scan.append crates plan payout commit raw
      Scan.appendAll commit scan raws

/-- `validate_reveals`. -/
def validateReveals (commit : Transaction) : Except ServiceError (ℕ × List String × List ℕ) := do
  let scan ← Scan.new.appendAll crates plan payout commit plan.reveals
  .ok (scan.revealFee, scan.revealIds, scan.revealSizes)

/-! ## Validating -/

/-- `validate_transparent_plan`. -/
def validateTransparentPlan (requireSignedCommit : Bool) : Except ServiceError Report := do
  validateMetadata crates plan
  let (outpoint, previous) ← plan.funding.prevout crates.toPlanCrates
  let commit ← decodeTransaction crates plan.commit
  let commitFee ← validateCommit crates plan payout commit outpoint previous requireSignedCommit
  let change ← contextService commit.output.getLast? "commit change missing"
  let (revealFee, revealIds, revealSizes) ← validateReveals crates plan payout commit
  ensureService (revealFee == plan.revealFeeSats &&
    checkedAdd commitFee revealFee == some plan.feeSats)
    "journal total fees differ from signed transactions"
  .ok {
    network := plan.network
    objectId := plan.objectId
    inputBytes := plan.inputBytes
    startHeight := plan.startHeight
    totalChunks := plan.reveals.length
    feeRateSatVb := plan.feeRateSatVb
    feeSats := plan.feeSats
    commitFeeSats := commitFee
    revealFeeSats := revealFee
    commitTxid := crates.displayTxid (crates.reveal.consensus.computeTxid commit)
    revealTxids := revealIds
    commitVsize := crates.vsize commit
    revealVsizes := revealSizes
    fundingTxid := crates.displayTxid outpoint.txid
    fundingVout := outpoint.vout.toNat
    fundingSats := previous.value.toNat
    changeSats := change.value.toNat
    payoutAddress := plan.miningAddress }

end Journal

end Urma.Runtime
