import Urma.Lib.Stateful
import Urma.Runtime.Journal
import Urma.Web.Store

/-!
# The relay

`urma_runtime::relay` and what it asks of `urma_runtime::source`: the status of every transaction of
a journal, as a provider reports it, decides what is submitted: the commit, the reveals that the
provider does not know, or nothing. What the provider answers is a parameter; so is the state that
its answers depend on, which only a submission changes.
-/

namespace Urma.Runtime

open Chain Lib

/-- `config::RELAY_MAX_BUDGET_SATS`. -/
def relayMaxBudgetSats : ℕ := 500000

/-- `bitcoin::Network`. -/
inductive Network where
  | bitcoin
  | testnet
  | testnet4
  | signet
  | regtest
  deriving DecidableEq

/-- `Display` of a network. -/
def Network.display : Network → String
  | .bitcoin => "bitcoin"
  | .testnet => "testnet"
  | .testnet4 => "testnet4"
  | .signet => "signet"
  | .regtest => "regtest"

/-- `bitcoin_rpc::supported_network`. -/
def supportedNetwork (network : String) : Except ServiceError Network :=
  if network = "regtest" then .ok .regtest
  else if network = "testnet4" then .ok .testnet4
  else .error (.message "only regtest and testnet4 are supported")

namespace Relay

open Journal (Plan)

/-- What the relay takes from other crates beyond a journal. -/
structure Crates extends Journal.Crates where
  /-- `bitcoin::consensus::deserialize` of a transaction. -/
  deserialize : Bytes → Except ServiceError Transaction
  /-- `Address::from_str`, `require_network` and `script_pubkey`. -/
  addressScript : Network → String → Except ServiceError Bytes
  /-- The hash of `genesis_block`. -/
  genesisBlock : Network → Bytes32
  /-- `Display` of a block hash. -/
  displayHash : Bytes32 → String

/-! ## The provider -/

/-- `source::TxStatus`. -/
structure TxStatus where
  confirmed : Bool
  blockHeight : Option ℕ
  blockHash : Option Bytes32
  deriving DecidableEq

/-- The response to a POST: its code, its body, and the body read as a txid. -/
structure PostReply where
  statusCode : ℕ
  body : Bytes
  txid : Except ServiceError Txid

/-- What a provider answers in a state, as far as its responses can be read. -/
structure Provider (σ : Type) where
  /-- `checked_url` of the URL. -/
  endpoint : Except ServiceError String
  /-- `/blocks/tip/height`. -/
  height : σ → Except ServiceError ℕ
  /-- `/block-height/{height}`. -/
  blockHash : σ → ℕ → Except ServiceError Bytes32
  /-- `Source::block`: the transactions of a block that was validated. -/
  block : σ → Bytes32 → Except ServiceError (List Transaction)
  /-- `/tx/{txid}/raw`; nothing is status 404. -/
  raw : σ → Txid → Except ServiceError (Option Bytes)
  /-- `/tx/{txid}/status`. -/
  status : σ → Txid → Except ServiceError TxStatus
  /-- `/tx/{txid}/outspend/{vout}`, its `spent` as a bool. -/
  spent : σ → Txid → ℕ → Except ServiceError (Option Bool)
  /-- A POST to `/tx`. -/
  post : σ → String → Except ServiceError PostReply × σ

/-- What the relay does, for the statements only: an output is asked for, for the sake of a reveal or
of the commit, and a transaction is submitted. -/
inductive Event where
  | asked (reveal : Option ℕ) (txid : Txid) (vout : ℕ) (spent : Option Bool)
  | posted (reveal : Option ℕ) (raw : String)
  deriving DecidableEq

/-- The state of the provider, and what has been done. -/
structure World (σ : Type) where
  state : σ
  log : List Event

/-- Programs of the relay. -/
abbrev Relaying (σ : Type) : Type → Type := Stateful (World σ) ServiceError

variable {σ : Type} (crates : Crates) (provider : Provider σ)

/-- An answer that depends on the state of the provider. -/
def asking {α : Type} (answer : σ → Except ServiceError α) : Relaying σ α :=
  Stateful.ofOutcome fun world => (answer world.state, world)

/-! ## `urma_runtime::source` -/

/-- `Source::connect`. -/
def connect (network : Network) (state : σ) : Except ServiceError String := do
  ensureService (network = .regtest || network = .testnet4)
    "only regtest and testnet4 are supported"
  let url ← provider.endpoint
  let hash ← provider.blockHash state 0
  ensureService (hash = crates.genesisBlock network)
    "source genesis differs from requested network"
  .ok url

/-- `Source::transaction_optional`. -/
def transactionOptional (txid : Txid) (state : σ) :
    Except ServiceError (Option (Transaction × Bytes)) := do
  match ← provider.raw state txid with
  | none => .ok none
  | some bytes => do
      let tx ← crates.deserialize bytes
      ensureService (crates.reveal.consensus.computeTxid tx = txid)
        "source transaction ID mismatch"
      .ok (some (tx, bytes))

/-- `Source::transaction`. -/
def transaction (txid : Txid) (state : σ) : Except ServiceError (Transaction × Bytes) := do
  let found ← transactionOptional crates provider txid state
  contextService found s!"source transaction {crates.displayTxid txid}: not found"

/-- `TxStatus::validate`. -/
def TxStatus.validate (self : TxStatus) : Except ServiceError Unit :=
  match self.blockHash, self.blockHeight with
  | some hash, some height => ensureService self.confirmed
      s!"unconfirmed transaction includes block {crates.displayHash hash} at {height}"
  | none, none => ensureService (!self.confirmed) "confirmed transaction lacks block location"
  | some hash, none => .error (.message s!"block {crates.displayHash hash} lacks height")
  | none, some height => .error (.message s!"block at height {height} lacks hash")

/-- `Source::verify_confirmation`. -/
def verifyConfirmation (tx : Transaction) (status : TxStatus) (tip : ℕ) (state : σ) :
    Except ServiceError ℕ :=
  if !status.confirmed then do
    status.validate crates
    .ok 0
  else do
    let height ← contextService status.blockHeight "confirmed source status lacks block height"
    let hash ← contextService status.blockHash "confirmed source status lacks block hash"
    ensureService (height ≤ tip) "confirmation is beyond source tip snapshot"
    let active ← provider.blockHash state height
    ensureService (active = hash) "source confirmation block is not active"
    let txdata ← provider.block state hash
    ensureService (txdata.contains tx) "source transaction or witness absent from claimed block"
    .ok (tip - height + 1)

/-- The `state` of an observed transaction. -/
inductive TxState where
  | unknown
  | pending
  | confirmed
  deriving DecidableEq

/-- What `observe_transaction` reports. -/
structure Observed where
  txid : String
  state : TxState
  confirmations : ℕ
  blockHeight : Option ℕ
  blockHash : Option String
  deriving DecidableEq

/-- `Source::observe_transaction`. -/
def observeTransaction (tx : Transaction) (raw : Bytes) (tip : ℕ) (state : σ) :
    Except ServiceError Observed := do
  let txid := crates.reveal.consensus.computeTxid tx
  match ← transactionOptional crates provider txid state with
  | none => .ok ⟨crates.displayTxid txid, .unknown, 0, none, none⟩
  | some (found, foundRaw) => do
      ensureService (found = tx && foundRaw = raw)
        "source transaction witness differs from prepared plan"
      let status ← provider.status state txid
      let confirmations ← verifyConfirmation crates provider found status tip state
      .ok ⟨crates.displayTxid txid, if status.confirmed then .confirmed else .pending,
        confirmations, status.blockHeight, status.blockHash.map crates.displayHash⟩

/-- One round of the loop of `status_plan`. -/
def observeEncoded (tip : ℕ) (state : σ) (encoded : String) : Except ServiceError Observed := do
  let raw ← crates.hexDecode encoded
  let tx ← crates.deserialize raw
  observeTransaction crates provider tx raw tip state

/-- The `status` of a plan. -/
inductive PlanPhase where
  | prepared
  | commitPending
  | confirmed
  | awaitingReveals
  | confirming
  deriving DecidableEq

/-- What `status_plan` reports. -/
structure PlanStatus where
  report : Journal.Report
  status : PlanPhase
  provider : String
  tipHeight : ℕ
  tipHash : String
  commitStatus : Observed
  revealStatuses : List Observed
  verifiedTransactionCount : ℕ
  verifiedConfirmedTransactionCount : ℕ
  verification : String
  deriving DecidableEq

/-- The `status` that follows from those of the commit and of the reveals. -/
def planPhase (commit : Observed) (reveals : List Observed) : Except ServiceError PlanPhase :=
  match commit.state with
  | .unknown => do
      ensureService (reveals.all fun s => s.state = .unknown)
        "source knows reveal while commit is absent"
      .ok .prepared
  | .pending => do
      ensureService (reveals.all fun s => s.state ≠ .confirmed)
        "source confirms reveal while commit is pending"
      .ok .commitPending
  | .confirmed =>
      if reveals.all fun s => s.state = .confirmed then .ok .confirmed
      else if reveals.any fun s => s.state = .unknown then .ok .awaitingReveals
      else .ok .confirming

/-- `journal::validate_plan`. -/
def validatePlan (plan : Plan) : Except ServiceError Journal.Report := do
  let network ← supportedNetwork plan.network
  let payout ← crates.addressScript network plan.miningAddress
  ensureService (crates.reveal.isP2tr payout) "journal payout must be Taproot"
  Journal.validateTransparentPlan crates.toCrates plan payout true

/-- The report of `status_plan`. -/
def planStatus (report : Journal.Report) (status : PlanPhase) (url : String) (tipHeight : ℕ)
    (tipHash : Bytes32) (commit : Observed) (reveals : List Observed) : PlanStatus :=
  let known := ((commit :: reveals).filter fun s => s.state ≠ .unknown).length
  let confirmed := ((commit :: reveals).filter fun s => s.state = .confirmed).length
  { report, status, provider := url, tipHeight
    tipHash := crates.displayHash tipHash
    commitStatus := commit
    revealStatuses := reveals
    verifiedTransactionCount := known
    verifiedConfirmedTransactionCount := confirmed
    verification := s!"{known} source transactions matched prepared bytes and witnesses; {confirmed} confirmed transactions verified inside blocks; provider trusted for chain selection; header-chain difficulty transitions are not independently validated" }

/-- `Source::status_plan`. -/
def statusPlan (network : Network) (url : String) (plan : Plan) (state : σ) :
    Except ServiceError PlanStatus := do
  let report ← validatePlan crates plan
  ensureService (plan.network = network.display) "source network differs from plan network"
  let tipHeight ← provider.height state
  let tipHash ← provider.blockHash state tipHeight
  let commit ← observeEncoded crates provider tipHeight state plan.commit
  let reveals ← plan.reveals.mapM (observeEncoded crates provider tipHeight state)
  let again ← provider.blockHash state tipHeight
  ensureService (again = tipHash) "source chain changed during status lookup; retry"
  let status ← planPhase commit reveals
  .ok (planStatus crates report status url tipHeight tipHash commit reveals)

/-- `Source::require_unspent`, for the sake of a reveal or of the commit. -/
def requireUnspent (reveal : Option ℕ) (txid : Txid) (vout : ℕ) : Relaying σ Unit := do
  let spent ← asking fun state => provider.spent state txid vout
  modify fun world => { world with log := world.log ++ [.asked reveal txid vout spent] }
  Stateful.lift (ensureService (spent = some false)
    "relay input is spent or unspentness is unknown")

/-- `Source::confirmed_funding`. -/
def confirmedFunding (network : Network) (plan : Plan) : Relaying σ Unit := do
  Stateful.lift (ensureService (plan.network = network.display) "funding network mismatch")
  let raw ← Stateful.lift (crates.hexDecode plan.funding.rawTransaction)
  let expected ← Stateful.lift (crates.deserialize raw)
  let txid := crates.reveal.consensus.computeTxid expected
  let tip ← asking provider.height
  let tipHash ← asking fun state => provider.blockHash state tip
  let (found, foundRaw) ← asking (transaction crates provider txid)
  Stateful.lift (ensureService (found = expected && foundRaw = raw)
    "funding transaction/witness differs from journal")
  Stateful.lift (ensureService (plan.funding.vout < found.output.length) "funding vout absent")
  let status ← asking fun state => provider.status state txid
  let confirmations ← asking (verifyConfirmation crates provider found status tip)
  Stateful.lift (ensureService (1 ≤ confirmations) "funding must be confirmed before relay")
  requireUnspent provider none txid plan.funding.vout
  let again ← asking fun state => provider.blockHash state tip
  Stateful.lift (ensureService (again = tipHash) "source chain changed during relay preflight")

/-! ## `urma_runtime::relay` -/

/-- `relay::Step`. -/
inductive Step where
  | commit
  | reveals (missing : List ℕ)
  | wait
  | complete
  deriving DecidableEq

/-- `authorize`. -/
def authorize (network : Network) (plannedFee budget : ℕ) (acceptProviderTrust : Bool) :
    Except ServiceError Unit := do
  ensureService (network = .testnet4 || network = .regtest)
    "relay supports only testnet4/regtest, never mainnet"
  ensureService acceptProviderTrust
    "relay requires explicit acceptance of provider chain-selection/unspentness trust"
  ensureService (1 ≤ budget && budget ≤ relayMaxBudgetSats && plannedFee ≤ budget)
    "journal exceeds explicit relay fee budget"

/-- `missing_reveals`. -/
def missingReveals (status : PlanStatus) : Except ServiceError (List ℕ) := do
  ensureService (!status.revealStatuses.isEmpty && status.revealStatuses.length ≤ limitRecords)
    "invalid reveal status count"
  .ok ((List.range status.revealStatuses.length).filter fun index =>
    status.revealStatuses[index]?.any fun reveal => reveal.state = .unknown)

/-- `next_step`. -/
def nextStep (status : PlanStatus) (allowUnconfirmedCommit : Bool) : Except ServiceError Step :=
  match status.status with
  | .prepared => .ok .commit
  | .commitPending =>
      if allowUnconfirmedCommit then do
        ensureService (status.commitStatus.state = .pending)
          "unconfirmed reveal requires a known pending commit"
        let missing ← missingReveals status
        .ok (if missing.isEmpty then .wait else .reveals missing)
      else .ok .wait
  | .confirming => .ok .wait
  | .confirmed => .ok .complete
  | .awaitingReveals => do
      ensureService (status.commitStatus.state = .confirmed)
        "cannot reveal before commit confirmation"
      let missing ← missingReveals status
      .ok (.reveals missing)

/-- `post_transaction`, of a reveal or of the commit. -/
def postTransaction (reveal : Option ℕ) (raw : String) : Relaying σ String := do
  Stateful.lift (ensureService (raw.utf8ByteSize ≤ 8000000) "transaction exceeds relay byte limit")
  let tx ← Stateful.lift (decodeBounded crates.toPublishCrates raw 8000000)
  let expected := crates.reveal.consensus.computeTxid tx
  let response ← Stateful.ofOutcome fun world =>
    let (response, state) := provider.post world.state raw
    (response, ⟨state, world.log ++ [.posted reveal raw]⟩)
  Stateful.lift (ensureService (response.body.length ≤ 1024)
    "relay response exceeds byte limit; check transaction status")
  Stateful.lift (ensureService (response.statusCode = 200)
    s!"relay HTTP {response.statusCode}: {Web.hexEncode response.body}")
  let returned ← Stateful.lift response.txid
  Stateful.lift (ensureService (returned = expected)
    "relay returned a different txid; check transaction status")
  pure (crates.displayTxid expected)

/-- One round of the loop over the missing reveals: the output that is asked for is that at the
reveal's place in the journal. -/
def submitReveal (plan : Plan) (commit : Transaction) (index : ℕ) : Relaying σ String := do
  let raw ← Stateful.lift (contextService plan.reveals[index]? "source reveal index out of range")
  Stateful.lift (ensureService (index ≤ u32Max) "out of range integral type conversion attempted")
  requireUnspent provider (some index) (crates.reveal.consensus.computeTxid commit) index
  postTransaction crates provider (some index) raw

/-- The loop over the missing reveals. -/
def submitReveals (plan : Plan) (commit : Transaction) : List ℕ → Relaying σ (List String)
  | [] => pure []
  | index :: indices => do
      let txid ← submitReveal crates provider plan commit index
      let txids ← submitReveals plan commit indices
      pure (txid :: txids)

/-- What `broadcast_plan` reports. -/
structure Relayed where
  action : String
  submittedTxids : List String
  network : String
  feeBudgetSats : ℕ
  plannedFeeSats : ℕ
  before : PlanStatus
  allowUnconfirmedCommit : Bool
  note : String
  deriving DecidableEq

/-- The options of `broadcast_plan`. -/
structure Options where
  network : Network
  budget : ℕ
  acceptProviderTrust : Bool
  allowUnconfirmedCommit : Bool
  deriving DecidableEq

/-- What `broadcast_plan` does in a step. -/
def takeStep (options : Options) (plan : Plan) : Step → Relaying σ (String × List String)
  | .commit => do
      confirmedFunding crates provider options.network plan
      let txid ← postTransaction crates provider none plan.commit
      pure ("commit_submitted", [txid])
  | .reveals indices => do
      let commit ← Stateful.lift
        (decodeBounded crates.toPublishCrates plan.commit plan.commit.utf8ByteSize)
      let txids ← submitReveals crates provider plan commit indices
      pure ("reveals_submitted", txids)
  | .wait => pure ("waiting_for_confirmation", [])
  | .complete => pure ("already_confirmed", [])

/-- What `broadcast_plan` checks and asks before its step. -/
def prepareStep (options : Options) (plan : Plan) (state : σ) :
    Except ServiceError (PlanStatus × Step) := do
  authorize options.network plan.feeSats options.budget options.acceptProviderTrust
  let _ ← validatePlan crates plan
  ensureService (plan.network = options.network.display) "relay network differs from journal"
  let url ← connect crates provider options.network state
  let before ← statusPlan crates provider options.network url plan state
  let step ← nextStep before options.allowUnconfirmedCommit
  .ok (before, step)

/-- `broadcast_plan`. -/
def broadcastPlan (options : Options) (plan : Plan) : Relaying σ Relayed := do
  let (before, step) ← asking (prepareStep crates provider options plan)
  let (action, submittedTxids) ← takeStep crates provider options plan step
  pure {
    action, submittedTxids
    network := options.network.display
    feeBudgetSats := options.budget
    plannedFeeSats := plan.feeSats
    before
    allowUnconfirmedCommit := options.allowUnconfirmedCommit
    note := "POST acceptance is not confirmation. Query status before advancing. Provider trusted for chain selection and unspentness." }

end Relay

end Urma.Runtime
