import Urma.Runtime.DiskPublish

/-!
# Validating a plan

`urma_runtime::validation`: the records of a plan are validated in their order. The first one is
funded by coins of the wallet, every later one by the change of the commit before it, and the fee
of a record is what its funding holds beyond the change of its commit and the output of its
reveal. Keys, signatures and signature hashes are those of the `bitcoin` crate.
-/

namespace Urma.Runtime

open Chain Lib

/-! ## Data -/

/-- `plan::PublicationPlan`. -/
structure PublicationPlan where
  version : ℕ
  chain : Chain
  author : String
  returnScript : String
  rootTxid : String
  totalFee : ℕ
  maximumFee : ℕ
  records : List PublicPlan
  deriving DecidableEq

/-- `PublicationPlan::MAX_RECORDS`. -/
def PublicationPlan.maxRecords : ℕ := 1024

/-- `bitcoin::EcdsaSighashType`. -/
inductive EcdsaSighashType where
  | all
  | none
  | single
  | allPlusAnyoneCanPay
  | nonePlusAnyoneCanPay
  | singlePlusAnyoneCanPay
  deriving DecidableEq, Repr

/-- `bitcoin::ecdsa::Signature`. -/
structure EcdsaSignature where
  signature : Bytes
  sighashType : EcdsaSighashType
  deriving DecidableEq

/-- What validating a plan takes from other crates. -/
structure PlanCrates extends PublishCrates where
  /-- `Display` of an error of `urma_core`. -/
  display : Error → String
  /-- `hex::decode`. -/
  hexDecode : String → Except ServiceError Bytes
  /-- `Display` of a transaction id. -/
  displayTxid : Txid → String
  /-- `Display` of an x-only key. -/
  displayKey : XOnlyPublicKey → String
  /-- `ecdsa::Signature::from_slice`. -/
  ecdsaFromSlice : Bytes → Except ServiceError EcdsaSignature
  /-- `CompressedPublicKey::from_slice`, a key being held as its bytes. -/
  compressedFromSlice : Bytes → Except ServiceError Bytes
  /-- `ScriptBuf::new_p2wpkh` of the hash of a key. -/
  newP2wpkh : Bytes → Bytes
  /-- `SighashCache::p2wpkh_signature_hash` of an input. -/
  p2wpkhSignatureHash : Transaction → ℕ → Bytes → UInt64 → EcdsaSighashType →
    Except ServiceError Bytes32
  /-- `Secp256k1::verify_ecdsa`. -/
  verifyEcdsa : Bytes32 → Bytes → Bytes → Except ServiceError Unit

/-- `config::WALLET_MAX_INPUTS`. -/
def walletMaxInputs : ℕ := 50

/-- `config::LITECOIN_DUST_RELAY_FEE`. -/
def litecoinDustRelayFee : ℕ := 30000

/-- `config::publication_return`. -/
def publicationReturn : Chain → ℕ
  | .litecoinTestnet | .litecoinMainnet => 110 * litecoinDustRelayFee / 1000
  | .bitcoinMainnet | .bitcoinRegtest | .bitcoinTestnet4 => 1000

variable (crates : PlanCrates)

/-- `Error::Protocol`. -/
def PlanCrates.protocol {α : Type} (result : Except Error α) : Except ServiceError α :=
  match result with
  | .ok value => .ok value
  | .error cause => .error (.message (crates.display cause))

@[simp] theorem PlanCrates.protocol_eq_ok {α : Type} {result : Except Error α} {value : α} :
    crates.protocol result = .ok value ↔ result = .ok value := by
  cases result <;> simp [protocol]

/-! ## Funding -/

/-- `Funding::prevout`. -/
def Funding.prevout (funding : Funding) : Except ServiceError (OutPoint × TxOut) := do
  let transaction ← decodeBounded crates.toPublishCrates funding.rawTransaction 8000000
  let output ← contextService transaction.output[funding.vout]? "funding vout is absent"
  ensureService (crates.reveal.isP2wpkh output.scriptPubkey)
    "funding requires a native P2WPKH output"
  ensureService (output.value.toNat ≤ 21000000 * 100000000) "invalid funding amount"
  .ok (⟨crates.reveal.consensus.computeTxid transaction, UInt32.ofNat funding.vout⟩, output)

namespace Validation

/-- `transaction`. -/
def transaction (raw : String) : Except ServiceError Transaction :=
  decodeBounded crates.toPublishCrates raw usizeMax

/-- `return_script`. -/
def returnScript (hexScript : String) : Except ServiceError Bytes := do
  let script ← crates.hexDecode hexScript
  ensureService (crates.reveal.isP2wpkh script) "publication return requires native P2WPKH"
  .ok script

/-- `signing::verify_p2wpkh_signature`, its errors as `funding_error` turns them. -/
def verifyP2wpkhSignature (transaction : Transaction) (inputIndex : ℕ) (previous : TxOut)
    (signature : EcdsaSignature) (key : Bytes) : Except ServiceError Unit := do
  ensureService (signature.sighashType == .all) "funding signature must commit all outputs"
  ensureService (previous.scriptPubkey == crates.newP2wpkh key) "funding public key mismatch"
  let hash ← crates.p2wpkhSignatureHash transaction inputIndex previous.scriptPubkey
    previous.value signature.sighashType
  crates.verifyEcdsa hash signature.signature key

/-- `verify_input`. -/
def verifyInput (commit : Transaction) (index : ℕ) (input : TxIn) (previous : TxOut) :
    Except ServiceError Unit := do
  ensureService (input.scriptSig.isEmpty && input.witness.length == 2)
    "funding must be signed native P2WPKH"
  let signature ← contextService input.witness[0]? "missing funding signature"
  let signature ← crates.ecdsaFromSlice signature
  let key ← contextService input.witness[1]? "missing funding public key"
  ensureService (key.length == 33) "funding public key must be compressed"
  let key ← crates.compressedFromSlice key
  verifyP2wpkhSignature crates commit index previous signature key

/-- The loop of `verify_commit` over the inputs and what they are said to spend. -/
def verifyInputs (commit : Transaction) :
    ℕ → List OutPoint → List (TxIn × OutPoint × TxOut) → Except ServiceError Unit
  | _, _, [] => .ok ()
  | index, seen, (input, outpoint, previous) :: rest => do
      ensureService (input.previousOutput == outpoint && !seen.contains outpoint)
        "commit does not spend declared funding"
      verifyInput crates commit index input previous
      verifyInputs commit (index + 1) (outpoint :: seen) rest

/-- `verify_commit`. -/
def verifyCommit (commit : Transaction) (prevouts : List (OutPoint × TxOut)) :
    Except ServiceError Unit := do
  ensureService (commit.input.length == prevouts.length && commit.output.length == 2)
    "invalid commit transaction shape"
  verifyInputs crates commit 0 [] (commit.input.zip prevouts)

/-- `verify_first_funding`. -/
def verifyFirstFunding (pair : PublicPlan) : Except ServiceError Unit :=
  ensureService (1 ≤ pair.funding.length && pair.funding.length ≤ walletMaxInputs)
    s!"first publication record needs 1..{walletMaxInputs} funding inputs"

/-- `verify_chained_funding`. -/
def verifyChainedFunding (pair : PublicPlan) (previousCommit : String) :
    Except ServiceError Unit :=
  match pair.funding with
  | [chained] =>
      ensureService (chained.rawTransaction == previousCommit && chained.vout == 1)
        "broken publication funding chain"
  | _ => .error (.message "broken publication funding chain")

/-- `declared_funding`. -/
def declaredFunding (pair : PublicPlan) : Except ServiceError (List (OutPoint × TxOut)) :=
  pair.funding.mapM (Funding.prevout crates)

/-- The checked sum of the values of some outputs. -/
def sumValues (message : String) : List TxOut → ℕ → Except ServiceError ℕ
  | [], total => .ok total
  | output :: outputs, total => do
      let total ← contextService (checkedAdd total output.value.toNat) message
      sumValues message outputs total

/-- `verify_policy`, of a commit of two outputs and a reveal of one. -/
def verifyPolicy (commit reveal : Transaction) (chain : Chain) : Except ServiceError Unit := do
  ensureService (crates.weight commit ≤ standardTxWeight &&
    crates.weight reveal ≤ standardTxWeight) "publication exceeds standard transaction weight"
  let retained := publicationReturn chain
  let published ← contextService commit.output[0]? "index out of bounds"
  let change ← contextService commit.output[1]? "index out of bounds"
  let returned ← contextService reveal.output[0]? "index out of bounds"
  ensureService (retained ≤ published.value.toNat && retained ≤ change.value.toNat &&
    retained ≤ returned.value.toNat)
    "publication output below configured dust-safe retained value"

end Validation

/-! ## Validating records one after another -/

/-- `Validation`. -/
structure Validation where
  count : ℕ
  total : ℕ
  previousCommit : String
  last : String
  deriving DecidableEq

namespace Validation

/-- `Validation::new`. -/
def new : Validation where
  count := 0
  total := 0
  previousCommit := ""
  last := ""

/-- The sums at the end of `append`: what the funding holds beyond the change of the commit and
the output of the reveal. -/
def recordFee (prevouts : List (OutPoint × TxOut)) (commit reveal : Transaction) :
    Except ServiceError ℕ := do
  let available ← sumValues "funding sum overflow" (prevouts.map Prod.snd) 0
  let published ← contextService commit.output[0]? "index out of bounds"
  let change ← contextService commit.output[1]? "index out of bounds"
  let returned ← contextService reveal.output[0]? "index out of bounds"
  let committed ← contextService (checkedAdd published.value.toNat change.value.toNat)
    "commit output sum overflow"
  ensureService (committed ≤ available) "commit spends more than declared funding"
  let outputs ← contextService (checkedAdd change.value.toNat returned.value.toNat)
    "output sum overflow"
  contextService (checkedSub available outputs) "negative publication fee"

/-- What `append` demands of the funding of a record: coins first, then the change before it. -/
def verifyFunding (state : Validation) (pair : PublicPlan) : Except ServiceError Unit :=
  if state.count = 0 then verifyFirstFunding pair
  else verifyChainedFunding pair state.previousCommit

/-- `Validation::append`. -/
def append (state : Validation) (pair : PublicPlan) (chain : Chain) (author : String)
    (returnScript : Bytes) : Except ServiceError (Bytes × Validation) := do
  let pairGenesis ← crates.genesis pair.chain
  let genesis ← crates.genesis chain
  ensureService (pairGenesis == genesis && pair.version == Format.version.toNat)
    "plan record network or version mismatch"
  ensureService (1 ≤ pair.feeRate && pair.feeRate ≤ 100) "invalid record fee rate"
  state.verifyFunding pair
  let prevouts ← declaredFunding crates pair
  let commit ← transaction crates pair.commit
  let reveal ← transaction crates pair.reveal
  verifyCommit crates commit prevouts
  let parsed ← crates.protocol (Envelope.verifyReveal crates.reveal reveal commit)
  verifyPolicy crates commit reveal chain
  ensureService (crates.displayKey parsed.author == author) "record author mismatch"
  ensureService ((commit.output[1]?.map TxOut.scriptPubkey) == some returnScript &&
    (reveal.output[0]?.map TxOut.scriptPubkey) == some returnScript)
    "publication return destination mismatch"
  let fee ← recordFee prevouts commit reveal
  let total ← contextService (checkedAdd state.total fee) "fee sum overflow"
  let count ← contextService (MultipartConsistency.checkedAdd32 state.count 1) "record count overflow"
  .ok (parsed.record,
    { count
      total
      previousCommit := pair.commit
      last := crates.displayTxid (crates.reveal.consensus.computeTxid reveal) })

/-- The records of a plan, one after another. -/
def appendAll (chain : Chain) (author : String) (returnScript : Bytes) :
    List PublicPlan → Validation → Except ServiceError Validation
  | [], state => .ok state
  | pair :: pairs, state => do
      let (_, state) ← state.append crates pair chain author returnScript
      appendAll chain author returnScript pairs state

/-- `Validation::finish`. -/
def finish (state : Validation) (totalFee : ℕ) (rootTxid : String) : Except ServiceError Unit :=
  ensureService (state.total == totalFee && state.last == rootTxid)
    "plan fee or locator mismatch"

end Validation

/-- `validate`. -/
def PublicationPlan.validate (plan : PublicationPlan) : Except ServiceError Unit := do
  ensureService (plan.version == 1 && !plan.records.isEmpty &&
    plan.records.length ≤ PublicationPlan.maxRecords) "invalid publication plan version or size"
  ensureService (plan.totalFee ≤ plan.maximumFee && 0 < plan.maximumFee)
    "plan fee budget exceeded"
  let script ← Validation.returnScript crates plan.returnScript
  let state ← Validation.appendAll crates plan.chain plan.author script plan.records .new
  state.finish plan.totalFee plan.rootTxid

/-- What validating a plan on disk checks of its records. A record is appended to the validation
of those before it; the digests of the files, and the id of a plan, stay parameters. -/
def PlanCrates.checks (crates : PlanCrates) (id : DiskPlan → Except ServiceError String)
    (digests : DiskPlan → Except ServiceError Unit) : PlanChecks where
  id := id
  display := crates.display
  files plan := do
    digests plan
    let _ ← Validation.returnScript crates plan.returnScript
    .ok ()
  pair plan before pair := do
    let script ← Validation.returnScript crates plan.returnScript
    let state ← Validation.appendAll crates plan.chain plan.author script before .new
    let _ ← state.append crates pair plan.chain plan.author script
    .ok ()
  finish plan := do
    let script ← Validation.returnScript crates plan.returnScript
    let state ← Validation.appendAll crates plan.chain plan.author script plan.records .new
    state.finish plan.totalFee plan.rootTxid

end Urma.Runtime
