import Urma.Chain.Config
import Urma.Core.Proof
import Urma.Lib.Program

/-!
# Publishing one transaction

`urma_runtime::publish`, `publication_progress` and the part of `node` they call. A publication is
a program that asks a node, a journal and whoever watches; each of these may answer anything, also
an error. What a node makes of its providers, its caches and its clock is part of the answer.
-/

namespace Urma.Runtime

open Chain Lib

/-! ## Errors -/

/-- `urma_runtime::error::Error`, as far as publishing reads it: the text it is displayed with,
and code and message where it is the refusal of a JSON-RPC server. -/
structure ServiceError where
  text : String
  rejection : Option (Int × String)
  deriving DecidableEq, Repr

/-- `Error::Invalid` or `Error::Missing`. -/
def ServiceError.message (text : String) : ServiceError :=
  ⟨text, none⟩

/-- `ensure!` of the runtime. -/
def ensureService (condition : Bool) (message : String) : Except ServiceError Unit :=
  if condition then .ok () else .error (.message message)

@[simp] theorem ensureService_eq_ok {condition : Bool} {message : String} {u : Unit} :
    ensureService condition message = .ok u ↔ condition = true := by
  cases condition <;> simp [ensureService]

/-- `Context::context` of the runtime. -/
def contextService {α : Type} (value : Option α) (message : String) : Except ServiceError α :=
  match value with
  | some value => .ok value
  | none => .error (.message message)

@[simp] theorem contextService_eq_ok {α : Type} {value : Option α} {message : String} {a : α} :
    contextService value message = .ok a ↔ value = some a := by
  cases value <;> simp [contextService]

/-! ## Data -/

/-- `node::Presence`. -/
inductive Presence where
  | missing
  | mempool
  | confirmed (height : ℕ) (blockHash : String)
  deriving DecidableEq, Repr

/-- `publish::TransactionStatus`. -/
structure TransactionStatus where
  txid : Txid
  presence : Presence
  deriving DecidableEq

/-- `publish::PublishReport`. -/
structure PublishReport where
  planId : String
  rootTxid : String
  complete : Bool
  confirmed : Bool
  blockedReason : String
  transactions : List TransactionStatus
  deriving DecidableEq

/-- `publication_progress::State`. -/
inductive State where
  | prepared
  | missing
  | mempool
  | confirmed
  | sourceUnavailable (reason : String)
  deriving DecidableEq, Repr

/-- The role of a transaction in a publication. -/
inductive Role where
  | commit
  | data
  | leaf
  | root
  deriving DecidableEq, Repr

/-- `publication_progress::Observation`. -/
structure Observation where
  txid : Txid
  role : Role
  state : State
  deriving DecidableEq

/-- `publication_progress::Progress`. -/
structure Progress where
  report : PublishReport
  total : ℕ
  observations : List Observation
  retryable : Bool
  deriving DecidableEq

/-- `publication_progress::Target`. -/
inductive Target where
  | mempool
  | confirmed
  deriving DecidableEq, Repr

/-- `Progress::reached`. -/
def Progress.reached (progress : Progress) (target : Target) : Bool :=
  progress.observations.length == progress.total &&
    progress.observations.all fun observation =>
      match target with
      | .confirmed => observation.state == .confirmed
      | .mempool => observation.state == .mempool || observation.state == .confirmed

/-- `publication_progress::state`. -/
def state (presence : Presence) (attempted : Bool) : State :=
  match presence with
  | .confirmed _ _ => .confirmed
  | .mempool => .mempool
  | .missing => if attempted then .missing else .prepared

/-- What the journal knows: the last presence of each transaction. -/
abbrev History := Std.ExtTreeMap Txid Presence

/-! ## What is asked -/

/-- A row of the answer to `testmempoolaccept`, by the fields that are read. -/
structure AcceptRow where
  txid : Option Txid
  allowed : Option Bool
  rejectReason : Option String
  deriving DecidableEq

/-- The calls of a publication: to the node, to the journal and to whoever watches. -/
inductive Request where
  | verifyNetwork
  | requireTxindex
  | tip
  | blockHash (height : ℕ)
  /-- `Node::presence_cached`, with the cache of the session. -/
  | presenceCached (txid : Txid)
  | presence (txid : Txid)
  | testMempoolAccept (raw : String)
  | sendRawTransaction (raw : String)
  /-- `disk_journal::guard`. -/
  | guardJournal
  /-- `disk_journal::history`. -/
  | history (id : String)
  /-- `disk_journal::observe`. -/
  | observe (report : PublishReport)
  /-- `publish::store`. -/
  | store (report : PublishReport)
  | notify (progress : Progress)
  deriving DecidableEq

/-- What each call answers when it does not fail. -/
abbrev Request.Value : Request → Type
  | verifyNetwork | requireTxindex | guardJournal | observe _ | store _ | notify _ => Unit
  | tip => ℕ × String
  | blockHash _ => String
  | presenceCached _ | presence _ => Presence
  -- nothing where the answer is no array
  | testMempoolAccept _ => Option (List AcceptRow)
  -- nothing where the answer is no transaction id
  | sendRawTransaction _ => Option Txid
  | history _ => History

/-- Every call may fail. -/
abbrev Request.Answer (request : Request) : Type :=
  Except ServiceError request.Value

/-- A program of the publication. -/
abbrev Publishing (α : Type) := Program Request Request.Answer ServiceError α

/-- The calls of a run, with their answers. -/
abbrev Calls := List (Call Request Request.Answer)

/-- A call whose failure is the failure of the caller. -/
def ask (request : Request) : Publishing request.Value := do
  let answer ← (Program.call request : Publishing request.Answer)
  (liftM answer : Publishing request.Value)

/-- What holds of a call holds of each of its values. -/
theorem holds_ask {rely : Calls → Prop} {guard : Calls → Request → Prop} {calls : Calls}
    {request : Request} {post : Calls → request.Value → Prop} :
    Program.Holds rely guard calls (ask request) (Program.returning post) ↔
      guard calls request ∧ ∀ value, rely (calls ++ [⟨request, .ok value⟩]) →
        post (calls ++ [⟨request, .ok value⟩]) value := by
  rw [ask, Program.holds_bind, Program.holds_call]
  apply and_congr_right
  intro _
  constructor
  · intro h value hrely
    exact h (.ok value) hrely
  · intro h answer hrely
    cases answer with
    | ok value => exact h value hrely
    | error error => trivial

/-! ## Transactions -/

/-- What publishing takes from other crates. -/
structure PublishCrates where
  reveal : RevealCrate
  sha256 : Bytes → Bytes32
  /-- `hex::decode` and `bitcoin::consensus::deserialize`, with their errors. -/
  decodeHex : String → Except ServiceError Transaction
  /-- `Transaction::weight`. -/
  weight : Transaction → ℕ
  /-- `Chain::genesis`. -/
  genesis : Chain → Except ServiceError Bytes32

/-- `node::Node`, as far as it is not asked. -/
structure Node where
  chain : Chain
  isPublic : Bool
  deriving DecidableEq

/-- `config::STANDARD_TX_WEIGHT`. -/
def standardTxWeight : ℕ := 400000

/-- `config::AWAITING_PARENT`. -/
def awaitingParent : String := "awaiting parent propagation across sources"

/-- `config::MISSING_INPUT_REJECTIONS`. -/
def missingInputRejections : List String :=
  ["missing-inputs", "bad-txns-inputs-missingorspent"]

variable (crates : PublishCrates) (node : Node)

/-- `decode_bounded`. -/
def decodeBounded (raw : String) (maxHexBytes : ℕ) : Except ServiceError Transaction := do
  ensureService (raw.utf8ByteSize ≤ maxHexBytes) "raw transaction exceeds byte limit"
  crates.decodeHex raw

/-- `transaction::decode` with the limit that publishing puts on it. -/
def decodeStandard (raw : String) : Except ServiceError Transaction :=
  decodeBounded crates raw (standardTxWeight * 2)

/-- `publish::MempoolCheck`. -/
inductive MempoolCheck where
  | allowed
  | rejected (reason : String)
  | unavailable (reason : String)
  deriving DecidableEq, Repr

/-- What `test_accept` makes of the answer to `testmempoolaccept`. -/
def mempoolCheck (txid : Txid) :
    Except ServiceError (Option (List AcceptRow)) → Except ServiceError MempoolCheck
  | .error cause => if node.isPublic then .ok (.unavailable cause.text) else .error cause
  | .ok acceptance => do
      let rows ← contextService acceptance "missing mempool acceptance"
      match rows with
      | [row] => do
          ensureService (row.txid == some txid) "mempool preflight TXID mismatch"
          let allowed ← contextService row.allowed "missing mempool decision"
          match allowed with
          | true => .ok .allowed
          | false => do
              let reason ← contextService row.rejectReason
                "mempool policy rejected transaction without reason"
              .ok (.rejected reason)
      | _ => .error (.message "incorrect mempool acceptance count")

/-- `publish::test_accept`. -/
def testAccept (raw : String) : Publishing MempoolCheck := do
  let transaction ← decodeStandard crates raw
  ensureService (crates.weight transaction ≤ standardTxWeight)
    "transaction exceeds standard weight"
  let answer ← Program.call (Request.testMempoolAccept raw)
  mempoolCheck node (crates.reveal.consensus.computeTxid transaction) answer

/-- `publish::parent_in_mempool`. -/
def parentInMempool : List TxIn → Bool → Publishing Bool
  | [], pending => pure pending
  | input :: inputs, pending => do
      let presence ← ask (.presence input.previousOutput.txid)
      match presence with
      | .mempool => parentInMempool inputs true
      | .confirmed _ _ | .missing => parentInMempool inputs pending

/-- `publish::missing_inputs`. -/
def missingInputs (reason : String) : Bool :=
  missingInputRejections.contains reason

/-- `publish::temporary_rejection`. -/
def temporaryRejection (error : ServiceError) : Bool :=
  match error.rejection with
  | some (code, message) => code == -26 && message == "mempool full"
  | none => false

/-- The end of `broadcast`: the transaction is sent, and looked for when the reply is lost. -/
def sendTransaction (raw : String) (txid : Txid) (parentPending : Bool) : Publishing String := do
  let answer ← Program.call (Request.sendRawTransaction raw)
  match answer with
  | .ok result => do
      ensureService (some txid == result) "broadcast RPC returned unexpected TXID"
      return ""
  | .error error => do
      let presence ← ask (.presence txid)
      match presence with
      | .missing =>
          if temporaryRejection error then return "mempool full"
          else if parentPending then return awaitingParent
          else Program.fail error
      | .mempool | .confirmed _ _ => return ""

/-- `publish::broadcast`: the reason of a refusal, empty when there is none. -/
def broadcast (raw : String) : Publishing String := do
  let transaction ← decodeStandard crates raw
  let txid := crates.reveal.consensus.computeTxid transaction
  let parentPending ← parentInMempool transaction.input false
  let check ← testAccept crates node raw
  match check with
  | .allowed | .unavailable _ => sendTransaction raw txid parentPending
  | .rejected reason =>
      if parentPending && missingInputs reason then sendTransaction raw txid parentPending
      else return reason

end Urma.Runtime
