import Urma.Runtime.DiskOrder
import Urma.Runtime.Publish

/-!
# Publishing a plan

`urma_runtime::disk_publish` and the plan it reads. A walk first takes stock of every transaction
of the plan, then submits what may be submitted: commits one after another, and reveals by phases.
It is restarted until everything is confirmed.
-/

namespace Urma.Runtime

open Chain Lib

/-! ## Plans -/

/-- `funding::Funding`. -/
structure Funding where
  rawTransaction : String
  vout : ℕ
  deriving DecidableEq

/-- `publication::PublicPlan`. -/
structure PublicPlan where
  version : ℕ
  chain : Chain
  funding : List Funding
  commit : String
  reveal : String
  feeRate : ℕ
  deriving DecidableEq

/-- `disk_plan::DiskPlan`, with the records its files hold. -/
structure DiskPlan where
  version : ℕ
  chain : Chain
  author : String
  returnScript : String
  rootTxid : String
  totalFee : ℕ
  maximumFee : ℕ
  recordCount : ℕ
  recordsHash : String
  indexHash : String
  records : List PublicPlan
  deriving DecidableEq

/-- What validating a plan checks besides the records and their order, and what it takes from
other crates. -/
structure PlanChecks where
  /-- `DiskPlan::id`. -/
  id : DiskPlan → Except ServiceError String
  /-- `Display` of an error of `urma_core`. -/
  display : Error → String
  /-- Lengths, digests and offsets of the files, and the return script. -/
  files : DiskPlan → Except ServiceError Unit
  /-- What `Validation::append` checks of a pair after some others: network, fee rate, funding,
  policy, author, destinations and sums. -/
  pair : DiskPlan → List PublicPlan → PublicPlan → Except ServiceError Unit
  /-- `Validation::finish`. -/
  finish : DiskPlan → Except ServiceError Unit

variable (crates : PublishCrates) (checks : PlanChecks) (node : Node)

/-- `Error::Protocol`. -/
def protocol {α : Type} (result : Except Error α) : Except ServiceError α :=
  match result with
  | .ok value => .ok value
  | .error cause => .error (.message (checks.display cause))

@[simp] theorem protocol_eq_ok {α : Type} {result : Except Error α} {value : α} :
    protocol checks result = .ok value ↔ result = .ok value := by
  cases result <;> simp [protocol]

/-- `usize::MAX`. -/
def usizeMax : ℕ := 2 ^ 64 - 1

namespace DiskPlan

/-- `DiskPlan::MAX_RECORDS`. -/
def maxRecords : ℕ := 32695

/-- `DiskPlan::record`. -/
def record (plan : DiskPlan) (index : ℕ) : Except ServiceError PublicPlan := do
  ensureService (index < plan.recordCount) "record index exceeds plan"
  contextService plan.records[index]? "failed to fill whole buffer"

/-- The loop of `validate`: `Validation::append`, then `Order::append`. -/
def validateRecords (plan : DiskPlan) : List PublicPlan → List PublicPlan → Order →
    Except ServiceError Order
  | _, [], order => .ok order
  | before, pair :: pairs, order => do
      checks.pair plan before pair
      let commit ← decodeBounded crates pair.commit usizeMax
      let reveal ← decodeBounded crates pair.reveal usizeMax
      let parsed ← protocol checks (Envelope.verifyReveal crates.reveal reveal commit)
      let order ← protocol checks (order.append crates.sha256 parsed.record
        (crates.reveal.consensus.computeTxid reveal))
      validateRecords plan (before ++ [pair]) pairs order

/-- `DiskPlan::validate`. -/
def validate (plan : DiskPlan) : Except ServiceError Unit := do
  ensureService (plan.version == 1 && 0 < plan.recordCount && plan.recordCount ≤ maxRecords)
    "invalid disk plan version or record count"
  ensureService (0 < plan.maximumFee && plan.totalFee ≤ plan.maximumFee)
    "plan fee budget exceeded"
  ensureService (plan.records.length == plan.recordCount) "invalid disk plan index length"
  checks.files plan
  let order ← validateRecords crates checks plan [] plan.records Order.new
  protocol checks (order.finish plan.recordCount)
  checks.finish plan

end DiskPlan

/-- `disk_publish::record`. -/
def recordOf (pair : PublicPlan) : Except ServiceError MultipartRecord := do
  let commit ← decodeStandard crates pair.commit
  let reveal ← decodeStandard crates pair.reveal
  let verified ← protocol checks (VerifiedRecord.verify crates.sha256 crates.reveal
    (crates.reveal.consensus.computeTxid reveal) reveal commit)
  protocol checks verified.decode

/-- The role of a record. -/
def roleOf : MultipartRecord → Role
  | .data _ => .data
  | .leaf _ => .leaf
  | .root _ => .root

/-! ## The buffer -/

/-- `config::PUBLICATION_BUFFER_WEIGHT`. -/
def publicationBufferWeight : ℕ := 7960000

/-- `config::PUBLICATION_PENDING_COMMITS`. -/
def publicationPendingCommits : ℕ := 24

/-- `config::PUBLICATION_COMMIT_VBYTES`. -/
def publicationCommitVbytes : ℕ := 90000

/-- `BufferedPair`. -/
structure BufferedPair where
  role : Role
  commitWeight : ℕ
  revealWeight : ℕ
  deriving DecidableEq

/-- `Buffer`. -/
structure Buffer where
  weight : ℕ
  broadcastWeight : ℕ
  commits : ℕ
  commitVbytes : ℕ
  deriving DecidableEq

/-- `as_chunks::<2>`, without the remainder. -/
def twos {α : Type} : List α → List (α × α)
  | a :: b :: rest => (a, b) :: twos rest
  | _ => []

namespace Buffer

/-- `div_ceil(4)`. -/
def vbytes (weight : ℕ) : ℕ :=
  (weight + 3) / 4

/-- One step of the loop of `Buffer::new`. -/
def seed (buffer : Buffer) (pair : BufferedPair) (commit reveal : State) : Buffer :=
  let buffer := if commit == .mempool then
      { weight := buffer.weight + pair.commitWeight
        broadcastWeight := buffer.broadcastWeight + pair.commitWeight
        commits := buffer.commits + 1
        commitVbytes := buffer.commitVbytes + vbytes pair.commitWeight }
    else buffer
  let buffer := if reveal == .mempool then
      { buffer with broadcastWeight := buffer.broadcastWeight + pair.revealWeight }
    else buffer
  if reveal != .confirmed && (commit == .confirmed || commit == .mempool || reveal == .mempool) then
    { buffer with weight := buffer.weight + pair.revealWeight }
  else buffer

/-- `Buffer::new`. -/
def new (pairs : List BufferedPair) (observations : List Observation) : Buffer :=
  (pairs.zip (twos observations)).foldl
    (fun buffer row => buffer.seed row.1 row.2.1.state row.2.2.state) ⟨0, 0, 0, 0⟩

/-- `Buffer::admits`. -/
def admits (buffer : Buffer) (pair : BufferedPair) : Bool :=
  buffer.commits < publicationPendingCommits &&
    buffer.commitVbytes + vbytes pair.commitWeight ≤ publicationCommitVbytes &&
    buffer.weight + pair.commitWeight + pair.revealWeight ≤ publicationBufferWeight

/-- `Buffer::add`. -/
def add (buffer : Buffer) (pair : BufferedPair) : Buffer where
  commits := buffer.commits + 1
  commitVbytes := buffer.commitVbytes + vbytes pair.commitWeight
  weight := buffer.weight + (pair.commitWeight + pair.revealWeight)
  broadcastWeight := buffer.broadcastWeight + pair.commitWeight

end Buffer

/-! ## Sessions -/

/-- `Session`. The cache of confirmed blocks is behind `presenceCached`. -/
structure Session where
  submit : Bool
  history : History
  progress : Progress

namespace Session

/-- `report.blocked_reason = reason`. -/
def block (session : Session) (reason : String) : Session :=
  { session with progress.report.blockedReason := reason }

/-- `observations.push`. -/
def push (session : Session) (observation : Observation) : Session :=
  { session with progress.observations := session.progress.observations ++ [observation] }

/-- `report.transactions.push`. -/
def pushTransaction (session : Session) (status : TransactionStatus) : Session :=
  { session with progress.report.transactions := session.progress.report.transactions ++ [status] }

/-- `retryable = retryable`. -/
def setRetryable (session : Session) (retryable : Bool) : Session :=
  { session with progress.retryable := retryable }

/-- What the walk goes on by: it may be retried, and no reason blocks it. -/
def isOpen (session : Session) : Bool :=
  session.progress.retryable && session.progress.report.blockedReason.isEmpty

/-- `remember`. -/
def remember (session : Session) (txid : Txid) (presence : Presence) : Publishing Session :=
  if session.history[txid]? == some presence then return session
  else do
    ask (.observe { session.progress.report with transactions := [⟨txid, presence⟩] })
    return { session with history := session.history.insert txid presence }

/-- The branch of `transaction` for an eligible transaction that is missing. -/
def submission (session : Session) (raw : String) (txid : Txid) :
    Publishing (Presence × Session) := do
  let session ← session.remember txid .missing
  let reason ← broadcast crates node raw
  if reason.isEmpty then do
    let presence ← ask (.presenceCached txid)
    if presence == .missing then
      return (presence,
        session.block "submission not yet observable; waiting before spending its change")
    else return (presence, session)
  else
    return (.missing, (session.setRetryable (reason == "mempool full")).block
      s!"{reason}; approved fees unchanged")

/-- The end of `transaction`: what was seen is remembered and listed. -/
def record (session : Session) (txid : Txid) (role : Role) (presence : Presence) :
    Publishing (State × Session) := do
  let attempted := session.history.contains txid
  let seen := state presence attempted
  let session ←
    if session.submit && (attempted || presence != .missing) then session.remember txid presence
    else pure session
  return (seen, (session.pushTransaction ⟨txid, presence⟩).push ⟨txid, role, seen⟩)

/-- `transaction`. -/
def transaction (session : Session) (raw : String) (role : Role) (eligible : Bool) :
    Publishing (State × Session) := do
  let decoded ← decodeStandard crates raw
  let txid := crates.reveal.consensus.computeTxid decoded
  let answer ← Program.call (Request.presenceCached txid)
  match answer with
  | .error error =>
      let unavailable := State.sourceUnavailable error.text
      return (unavailable, ((session.push ⟨txid, role, unavailable⟩).block
        s!"source unavailable: {error.text}").setRetryable false)
  | .ok presence =>
      if eligible && decide (presence = Presence.missing) then do
        let (presence, session) ← session.submission crates node raw txid
        session.record txid role presence
      else session.record txid role presence

/-- `submit_record`. -/
def submitRecord (session : Session) (plan : DiskPlan) (index offset : ℕ) (commit : Bool) :
    Publishing (State × Session) := do
  let pair ← plan.record index
  let observation ← contextService session.progress.observations[offset]? "index out of bounds"
  let raw := if commit then pair.commit else pair.reveal
  let (seen, session) ← session.transaction crates node raw observation.role true
  let observations := session.progress.observations.dropLast
  return (seen, { session with
    progress.observations := observations.modify offset fun row => { row with state := seen } })

/-- The loop of `inventory`. -/
def inventoryFrom (plan : DiskPlan) : ℕ → ℕ → List BufferedPair → Session →
    Publishing (List BufferedPair × Session)
  | 0, _, pairs, session => return (pairs, session)
  | count + 1, index, pairs, session => do
      ask (.notify session.progress)
      let pair ← plan.record index
      let record ← recordOf crates checks pair
      let commit ← decodeStandard crates pair.commit
      let reveal ← decodeStandard crates pair.reveal
      let pairs := pairs ++
        [{ role := roleOf record
           commitWeight := crates.weight commit
           revealWeight := crates.weight reveal }]
      let (_, session) ← session.transaction crates node pair.commit .commit false
      if !session.progress.retryable then return (pairs, session)
      else do
        let (_, session) ← session.transaction crates node pair.reveal (roleOf record) false
        if !session.progress.retryable then return (pairs, session)
        else inventoryFrom plan count (index + 1) pairs session

/-- `inventory`. -/
def inventory (session : Session) (plan : DiskPlan) :
    Publishing (List BufferedPair × Session) := do
  let session : Session := { session with progress.report.transactions := [] }
  let (pairs, session) ← inventoryFrom crates checks node plan plan.recordCount 0 [] session
  ask (.notify session.progress)
  return (pairs, session)

end Session

/-! ## The walk -/

/-- The variables of the loop of `walk`. -/
structure Phases where
  buffer : Buffer
  dataAvailable : Bool
  leavesAvailable : Bool
  parentAvailable : Bool
  limited : Bool

/-- `matches!(state, State::Prepared | State::Missing)`. -/
def State.isAbsent : State → Bool
  | .prepared | .missing => true
  | _ => false

/-- `matches!(state, State::Confirmed | State::Mempool)`. -/
def State.isAvailable : State → Bool
  | .confirmed | .mempool => true
  | _ => false

namespace Phases

/-- Whether the records a reveal of this role depends on are available. -/
def dependencies (phases : Phases) : Role → Bool
  | .leaf => phases.dataAvailable
  | .root => phases.dataAvailable && phases.leavesAvailable
  | _ => true

/-- The flags after the reveal of a record of this role. -/
def revealed (phases : Phases) (role : Role) (reveal : State) : Phases :=
  match role with
  | .data => { phases with dataAvailable := phases.dataAvailable && reveal.isAvailable }
  | .leaf => { phases with leavesAvailable := phases.leavesAvailable && reveal.isAvailable }
  | _ => phases

end Phases

namespace Session

/-- The commit phase of one pair. -/
def commitPhase (session : Session) (plan : DiskPlan) (index : ℕ) (pair : BufferedPair)
    (phases : Phases) : Publishing (State × Phases × Session) := do
  let observation ← contextService session.progress.observations[index * 2]? "index out of bounds"
  let commit := observation.state
  if commit.isAbsent && phases.parentAvailable then
    if phases.buffer.admits pair && session.progress.report.blockedReason.isEmpty then do
      let (commit, session) ← session.submitRecord crates node plan index (index * 2) true
      let buffer := if commit == .mempool then phases.buffer.add pair else phases.buffer
      return (commit, { phases with buffer, parentAvailable := commit.isAvailable }, session)
    else
      return (commit, { phases with limited := true, parentAvailable := commit.isAvailable }, session)
  else return (commit, { phases with parentAvailable := commit.isAvailable }, session)

/-- The reveal phase of one pair, given the state of its commit. -/
def revealPhase (session : Session) (plan : DiskPlan) (index : ℕ) (pair : BufferedPair)
    (commit : State) (phases : Phases) : Publishing (Phases × Session) := do
  let observation ← contextService session.progress.observations[index * 2 + 1]?
    "index out of bounds"
  let reveal := observation.state
  if commit == .confirmed && phases.dependencies pair.role && session.isOpen &&
      reveal.isAbsent then
    if phases.buffer.broadcastWeight + pair.revealWeight ≤ publicationBufferWeight then do
      let (reveal, session) ← session.submitRecord crates node plan index (index * 2 + 1) false
      let buffer := if reveal == .mempool then
          { phases.buffer with
            broadcastWeight := phases.buffer.broadcastWeight + pair.revealWeight }
        else phases.buffer
      return (({ phases with buffer } : Phases).revealed pair.role reveal, session)
    else
      return (({ phases with limited := true } : Phases).revealed pair.role reveal, session)
  else return (phases.revealed pair.role reveal, session)

/-- The loop of `walk`. -/
def walkFrom (plan : DiskPlan) : List BufferedPair → ℕ → Phases → Session →
    Publishing (Phases × Session)
  | [], _, phases, session => return (phases, session)
  | pair :: pairs, index, phases, session => do
      ask (.notify session.progress)
      let (commit, phases, session) ← session.commitPhase crates node plan index pair phases
      let (phases, session) ← session.revealPhase crates node plan index pair commit phases
      ask (.notify session.progress)
      if !session.isOpen then return (phases, session)
      else walkFrom plan pairs (index + 1) phases session

/-- `"chain changed during reconciliation; …"`. -/
def chainChanged : String :=
  "chain changed during reconciliation; waiting for fresh observations"

/-- `walk`. -/
def walk (session : Session) (plan : DiskPlan) (anchor : ℕ × String) : Publishing Session := do
  let (pairs, session) ← session.inventory crates checks node plan
  if !session.submit || !session.progress.retryable then return session
  else do
    let hash ← ask (.blockHash anchor.1)
    if hash ≠ anchor.2 then return session.block chainChanged
    else do
      let phases : Phases :=
        { buffer := Buffer.new pairs session.progress.observations
          dataAvailable := true
          leavesAvailable := true
          parentAvailable := true
          limited := false }
      let (phases, session) ← walkFrom crates node plan pairs 0 phases session
      if phases.limited && session.progress.report.blockedReason.isEmpty then
        return session.block ("Publication buffer full; waiting for blockchain confirmation. " ++
          "Publication continues automatically while watching; no user input needed.")
      else return session

end Session

/-! ## Reconciling -/

/-- The end of `reconcile`: what is reported of the walk. -/
def Session.conclude (session : Session) : Session :=
  let complete := session.progress.reached .confirmed
  let session : Session :=
    { session with
      progress.report.complete := complete
      progress.report.confirmed := complete }
  if !complete && session.progress.report.blockedReason.isEmpty then
    session.block (if session.submit then
      "awaiting confirmations; eligible transactions will be reconciled on the next pass"
    else "read-only watch; prepared or missing transactions require publish/resume in another " ++
      "process")
  else session

/-- `reconcile`. -/
def reconcile (plan : DiskPlan) (submit : Bool) : Publishing Progress := do
  plan.validate crates checks
  ask .verifyNetwork
  ask .requireTxindex
  let nodeGenesis ← crates.genesis node.chain
  let planGenesis ← crates.genesis plan.chain
  ensureService (nodeGenesis == planGenesis) "publication network mismatch"
  let anchor ← ask .tip
  let id ← checks.id plan
  let history ← ask (.history id)
  let session : Session :=
    { submit
      history
      progress :=
        { report :=
            { planId := id
              rootTxid := plan.rootTxid
              complete := false
              confirmed := false
              blockedReason := ""
              transactions := [] }
          total := plan.recordCount * 2
          observations := []
          retryable := true } }
  let session ← session.walk crates checks node plan anchor
  let hash ← ask (.blockHash anchor.1)
  let session : Session :=
    if hash ≠ anchor.2 then
      { session.block Session.chainChanged with
        progress.observations := []
        progress.report.transactions := [] }
    else session
  let session := session.conclude
  if submit then
    ask (.store session.progress.report)
  ask (.notify session.progress)
  return session.progress

/-- `publish_progress`. -/
def publishProgress (plan : DiskPlan) (approvedId : String) : Publishing Progress := do
  let id ← checks.id plan
  ensureService (approvedId == id) "approval does not match exact immutable signed plan"
  ask .guardJournal
  reconcile crates checks node plan true

/-- `watch`. -/
def watch (plan : DiskPlan) : Publishing Progress :=
  reconcile crates checks node plan false

end Urma.Runtime
