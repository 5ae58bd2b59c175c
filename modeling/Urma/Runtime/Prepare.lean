import Urma.Runtime.PlanValidation

/-!
# Preparing a record

`urma_runtime::publication`, `reveal` and `transaction`, and the signing of `urma_wallet`: a record
is put into a reveal, the commit it spends is paid from the funding, and what is left of the
funding after the fees is the change of the commit.
-/

namespace Urma.Runtime

open Chain Lib

/-! ## Data -/

/-- `root::Branch`. -/
inductive Branch where
  | external
  | internal
  deriving DecidableEq, Repr

/-- `account::KeyPath`. -/
structure KeyPath where
  branch : Branch
  index : ℕ
  deriving DecidableEq, Repr

/-- `KeyPath::RECEIVE`. -/
def KeyPath.receive : KeyPath :=
  ⟨.external, 0⟩

/-- `account::Account`: the keys it derives, public and private. -/
structure Account (PrivateKey : Type) where
  chain : Chain
  publicKey : KeyPath → Except ServiceError Bytes
  privateKey : KeyPath → Except ServiceError PrivateKey

/-- An `IdentitySigner`. -/
structure Author where
  key : XOnlyPublicKey
  signAuthor : Bytes32 → Except ServiceError Bytes

/-- `wallet::FundingInput`. -/
structure FundingInput where
  funding : Funding
  path : KeyPath
  deriving DecidableEq

/-- `wallet::FeeBudget`. -/
structure FeeBudget where
  chain : Bytes32
  rate : ℕ
  maximumBaseUnits : ℕ
  deriving DecidableEq

/-- `publication::SignedPublicPair`. -/
structure SignedPublicPair where
  plan : PublicPlan
  fee : ℕ
  deriving DecidableEq

/-- What preparing a plan takes from other crates. -/
structure PrepareCrates extends PlanCrates where
  /-- `secp256k1::SecretKey`. -/
  PrivateKey : Type
  /-- `hex::encode` of `consensus::serialize`. -/
  encodeTransaction : Transaction → String
  /-- `hex::encode`. -/
  hexEncode : Bytes → String
  /-- `ScriptBuf::new_p2tr_tweaked` of the output key of a tree. -/
  newP2trTweaked : reveal.script.SpendInfo → Bytes
  /-- `PrivateKey::public_key`. -/
  publicKey : PrivateKey → Bytes
  /-- `Secp256k1::sign_ecdsa`. -/
  signEcdsa : Bytes32 → PrivateKey → Bytes
  /-- `ecdsa::Signature::serialize`. -/
  ecdsaSerialize : EcdsaSignature → Bytes

/-- `WalletError::InvalidFunding` and the other errors of the wallet. -/
def walletError (name : String) : ServiceError :=
  .message ("wallet: " ++ name)

variable (crates : PrepareCrates)

/-! ## Transactions -/

/-- `Sequence::ENABLE_RBF_NO_LOCKTIME`. -/
def enableRbfNoLocktime : UInt32 := 0xfffffffd

/-- `transaction::spending`. -/
def spending (outpoints : List OutPoint) (output : TxOut) : Transaction where
  version := 2
  lockTime := 0
  input := outpoints.map fun outpoint => ⟨outpoint, [], enableRbfNoLocktime, []⟩
  output := [output]

/-- `Transaction::vsize`. -/
def PublishCrates.vsize (crates : PublishCrates) (transaction : Transaction) : ℕ :=
  (crates.weight transaction + 3) / 4

/-- The transaction with this witness for every input. -/
def withWitnesses (transaction : Transaction) (witness : List Bytes) : Transaction :=
  { transaction with input := transaction.input.map fun input => { input with witness } }

/-- `transaction::signed_vsize`. -/
def signedVsize (unsigned : Transaction) : ℕ :=
  crates.vsize (withWitnesses unsigned [List.replicate 73 0, List.replicate 33 0])

/-! ## The reveal -/

/-- The reveal of a script, spending an output with a witness. -/
def revealOf (outpoint : OutPoint) (output : TxOut) (witness : List Bytes) : Transaction :=
  withWitnesses (spending [outpoint] output) witness

/-- `reveal::preview`. -/
def preview (output : TxOut) (script : Bytes) (info : crates.reveal.script.SpendInfo) :
    Except ServiceError Transaction := do
  let witness ← crates.protocol
    (Envelope.witness crates.reveal.script (List.replicate 64 0) script info)
  let reveal := revealOf OutPoint.null output witness
  ensureService (crates.weight reveal ≤ standardTxWeight)
    "reveal exceeds standard transaction weight"
  .ok reveal

/-- `reveal::fee`. -/
def revealFee (reveal : Transaction) (rate : ℕ) : Except ServiceError ℕ :=
  contextService (checkedMul (crates.vsize reveal) rate) "reveal fee overflow"

/-- What a record is revealed by: the script and its tree, and the preview of the reveal. -/
structure Draft (crates : PrepareCrates) where
  script : Bytes
  info : crates.reveal.script.SpendInfo
  reveal : Transaction

/-- `build_for_author`, then `preview`. -/
def draft (record : Bytes) (author : XOnlyPublicKey) (returnOutput : TxOut) :
    Except ServiceError (Draft crates) := do
  let (script, info) ← crates.protocol
    (Envelope.buildForAuthor crates.reveal.script record author)
  let reveal ← preview crates returnOutput script info
  .ok { script, info, reveal }

/-! ## The commit -/

/-- `publication::prevouts`. -/
def prevoutsFrom : List Funding → List OutPoint → List TxOut → ℕ →
    Except ServiceError (List OutPoint × List TxOut × ℕ)
  | [], outpoints, outputs, total => .ok (outpoints, outputs, total)
  | source :: sources, outpoints, outputs, total => do
      let (outpoint, previous) ← source.prevout crates.toPlanCrates
      let total ← contextService (checkedAdd total previous.value.toNat) "funding sum overflow"
      prevoutsFrom sources (outpoints ++ [outpoint]) (outputs ++ [previous]) total

/-- `publication::prevouts`. -/
def prevouts (funding : List Funding) :
    Except ServiceError (List OutPoint × List TxOut × ℕ) :=
  prevoutsFrom crates funding [] [] 0

/-- The commit, which pays for the reveal and leaves change. -/
def commitOf (outpoints : List OutPoint) (published change : TxOut) : Transaction :=
  { spending outpoints published with output := [published, change] }

/-- The fees of a record, and what is left of the funding: the middle of `prepare_bytes`. -/
def settle (draft : Draft crates) (outpoints : List OutPoint) (available : ℕ)
    (returnOutput : TxOut) (retained feeRate : ℕ) : Except ServiceError (Transaction × TxOut) := do
  let paid ← revealFee crates draft.reveal feeRate
  let published : TxOut := ⟨UInt64.ofNat (retained + paid), crates.newP2trTweaked draft.info⟩
  let commitFee ← contextService
    (checkedMul (signedVsize crates (commitOf outpoints published returnOutput)) feeRate)
    "fee overflow"
  let totalFee ← contextService (checkedAdd commitFee paid) "fee overflow"
  ensureService (totalFee ≤ 500000) "client publication fee capacity exceeded"
  let change ← contextService (checkedSub available (totalFee + retained)) "insufficient funding"
  ensureService (retained ≤ change) "funding must leave native change"
  .ok (commitOf outpoints published { returnOutput with value := UInt64.ofNat change }, published)

/-- The reveal, signed by the author: the end of `prepare_bytes`. -/
def signReveal (draft : Draft crates) (author : Author) (commit : Transaction) (published : TxOut)
    (returnOutput : TxOut) : Except ServiceError Transaction := do
  let outpoint : OutPoint := ⟨crates.reveal.consensus.computeTxid commit, 0⟩
  let witness := (draft.reveal.input.map TxIn.witness).headD []
  let digest ← crates.protocol
    (crates.reveal.signatureHash (revealOf outpoint returnOutput witness) published draft.script)
  let signature ← author.signAuthor digest
  let witness ← crates.protocol
    (Envelope.witness crates.reveal.script signature draft.script draft.info)
  let reveal := revealOf outpoint returnOutput witness
  let _ ← crates.protocol (Envelope.verifyReveal crates.reveal reveal commit)
  .ok reveal

/-- `publication::prepare_bytes`. -/
def prepareBytes (record : Bytes) (author : Author) (funding : List Funding)
    (returnScript : Bytes) (chain : Chain) (feeRate : ℕ) : Except ServiceError PublicPlan := do
  ensureService (1 ≤ feeRate && feeRate ≤ 100) "client fee rate must be 1..100 base units/vB"
  ensureService (1 ≤ funding.length && funding.length ≤ walletMaxInputs)
    s!"publication funding needs 1..{walletMaxInputs} inputs"
  ensureService (crates.reveal.isP2wpkh returnScript)
    "publication return requires native P2WPKH"
  let (outpoints, _, available) ← prevouts crates funding
  let retained := publicationReturn chain
  let returnOutput : TxOut := ⟨UInt64.ofNat retained, returnScript⟩
  let draft ← draft crates record author.key returnOutput
  let (commit, published) ← settle crates draft outpoints available returnOutput retained feeRate
  let reveal ← signReveal crates draft author commit published returnOutput
  .ok
    { version := Format.version.toNat
      chain
      funding
      commit := crates.encodeTransaction commit
      reveal := crates.encodeTransaction reveal
      feeRate }

/-! ## Signing -/

namespace Account

variable (account : Account crates.PrivateKey)

/-- `Account::script`. -/
def script (path : KeyPath) : Except ServiceError Bytes := do
  let key ← account.publicKey path
  .ok (crates.newP2wpkh key)

/-- `Account::receive_script`. -/
def receiveScript : Except ServiceError Bytes :=
  account.script crates .receive

/-- A checked sum of the wallet. -/
def sumOf : List TxOut → ℕ → Except ServiceError ℕ
  | [], total => .ok total
  | output :: outputs, total =>
      match checkedAdd total output.value.toNat with
      | some total => sumOf outputs total
      | none => .error (walletError "Overflow")

/-- `budget`. -/
def budget (transaction : Transaction) (prevouts : List TxOut) (maximumBaseUnits : ℕ) :
    Except ServiceError Unit := do
  let inputs ← sumOf prevouts 0
  let outputs ← sumOf transaction.output 0
  match checkedSub inputs outputs with
  | none => .error (walletError "InsufficientFunds")
  | some fee => if fee > maximumBaseUnits then .error (walletError "BudgetExceeded") else .ok ()

/-- The loop of `sign`, over the inputs with what they spend and the paths of their keys. -/
def signInputs (transaction : Transaction) :
    ℕ → List (TxIn × TxOut × KeyPath) → Except ServiceError (List TxIn)
  | _, [] => .ok []
  | index, (input, previous, path) :: rest => do
      let expected ← account.script crates path
      if previous.scriptPubkey ≠ expected then .error (walletError "WrongIdentity")
      else do
        let digest ← crates.p2wpkhSignatureHash transaction index expected previous.value .all
        let child ← account.privateKey path
        let signature := crates.signEcdsa digest child
        crates.verifyEcdsa digest signature (crates.publicKey child)
        let inputs ← signInputs transaction (index + 1) rest
        .ok ({ input with
          witness := [crates.ecdsaSerialize ⟨signature, .all⟩, crates.publicKey child] } :: inputs)

/-- `Account::sign`. -/
def sign (transaction : Transaction) (prevouts : List TxOut)
    (maximumBaseUnits : ℕ) (paths : List KeyPath) : Except ServiceError Transaction := do
  if transaction.input.isEmpty || transaction.input.length ≠ prevouts.length ||
      transaction.input.length ≠ paths.length then
    .error (walletError "InvalidFunding")
  else if ¬ (transaction.input.map TxIn.previousOutput).Nodup ∨
      transaction.input.any (fun input => !input.scriptSig.isEmpty) then
    .error (walletError "InvalidFunding")
  else do
    budget transaction prevouts maximumBaseUnits
    let inputs ← account.signInputs crates transaction 0
      (transaction.input.zip (prevouts.zip paths))
    .ok { transaction with input := inputs }

end Account

/-- The end of `prepare_signed_bytes`: what the funding holds beyond change and return is the fee,
and is within the budget. -/
def feeWithin (available : ℕ) (signed reveal : Transaction) (maximumBaseUnits : ℕ) :
    Except ServiceError ℕ := do
  let change ← contextService signed.output[1]? "index out of bounds"
  let returned ← contextService reveal.output[0]? "index out of bounds"
  match checkedAdd change.value.toNat returned.value.toNat with
  | none => .error (walletError "Overflow")
  | some outputs =>
      match checkedSub available outputs with
      | none => .error (walletError "InsufficientFunds")
      | some fee =>
          if fee > maximumBaseUnits then .error (walletError "BudgetExceeded") else .ok fee

/-- `publication::prepare_signed_bytes`. -/
def prepareSignedBytes (record : Bytes) (author : Author) (funder : Account crates.PrivateKey)
    (inputs : List FundingInput) (budget : FeeBudget) : Except ServiceError SignedPublicPair := do
  let genesis ← crates.genesis funder.chain
  ensureService (budget.chain == genesis) "funding budget chain mismatch"
  let funding := inputs.map FundingInput.funding
  let (_, previous, available) ← prevouts crates funding
  let returnScript ← funder.receiveScript crates
  let plan ← prepareBytes crates record author funding returnScript funder.chain budget.rate
  let commit ← decodeStandard crates.toPublishCrates plan.commit
  let signed ← funder.sign crates commit previous budget.maximumBaseUnits
    (inputs.map FundingInput.path)
  let reveal ← decodeStandard crates.toPublishCrates plan.reveal
  let fee ← feeWithin available signed reveal budget.maximumBaseUnits
  .ok ⟨{ plan with commit := crates.encodeTransaction signed }, fee⟩

end Urma.Runtime
