import Mathlib.Data.List.MinMax
import Mathlib.Data.List.Sort
import Mathlib.Data.Prod.Lex
import Urma.Lib.SecondaryIndex
import Urma.Names.State

/-!
# The registry engine

`urma_names::engine`: the deterministic state machine that turns the observations of
consecutive blocks into names, pending records and their undo frames.

The source keeps everything in one `Registry` and finds the frame of the block being
connected as `undo.last_mut()`. Here the same fields are split by who may touch them:

* `Core` is the registry without its undo frames, which `connect_delta` never reads;
* `Connecting` is a core together with the one open frame, while a block is applied;
* `Registry` is a core together with the closed frames, newest first.

So the `panic!("connect frame missing")` of `remember_name` and `remember_pending` has no
counterpart: a `Connecting` has its frame. A method that takes `&mut self` and can fail
returns its result beside the registry it leaves behind.
-/

namespace Urma.Names

open Std
open Urma.Lib (SecondaryIndex.Index)

/-! ## Deltas -/

/-- `engine::Change`: one touched key, absence kept apart from a present empty state. -/
structure Change (K V : Type) where
  key : K
  before : Option V
  after : Option V
  deriving DecidableEq

/-- `engine::BlockDelta`. -/
structure BlockDelta where
  height : Nat
  names : List (Change Name NameState)
  pending : List (Change Txid PendingRecord)
  deriving DecidableEq

/-- `engine::AppliedBlock`. -/
structure AppliedBlock where
  outcomes : List Outcome
  delta : BlockDelta
  deriving DecidableEq

/-- `engine::Previous`. -/
inductive Previous (T : Type) where
  | absent
  | present (value : T)
  deriving DecidableEq

/-- `engine::Delta`: an undo frame. -/
structure Delta where
  names : List (Name × Previous NameState)
  pending : List (Txid × Previous PendingRecord)
  deriving DecidableEq

/-- `engine::previous`. -/
def previous {T : Type} : Option T → Previous T
  | some value => .present value
  | none => .absent

/-- `engine::before_value`. -/
def beforeValue {T : Type} : Previous T → Option T
  | .present value => some value
  | .absent => none

/-- `engine::Admission`. -/
inductive Admission where
  | admitted
  | rejected (rejection : Rejection)
  deriving DecidableEq

/-! ## The state -/

/-- The registry without its undo frames. -/
@[ext]
structure Core where
  genesis : Txid
  genesisHeight : Nat
  rules : Genesis
  height : Nat
  names : ExtTreeMap Name NameState
  pending : ExtTreeMap Txid PendingRecord
  expiries : SecondaryIndex.Index Nat Name

/-- A registry while `connect_delta` applies a block; `frame` is `undo.last_mut()`. -/
structure Connecting extends Core where
  frame : Delta

/-- `engine::Registry`. `undo` lists the frames newest first. -/
structure Registry extends Core where
  undo : List Delta

/-- `engine::commit_key`. -/
def commitKey (observation : Observation) : Nat ×ₗ Nat ×ₗ Nat :=
  toLex (observation.commit.height,
    toLex (observation.commit.position, observation.commit.vout))

/-- `engine::target_of`. -/
def targetOf (op : OwnerOp) : Target :=
  if op.isReserving then .reserved else .publication op.target

/-- `Registry::new`. -/
def Registry.new (genesis : Txid) (genesisHeight : Nat) (rules : Genesis) :
    Except Error Registry :=
  match rules.validate with
  | .error error => .error error
  | .ok () => .ok {
      genesis, genesisHeight, rules
      height := genesisHeight
      names := ∅
      pending := ∅
      expiries := ∅
      undo := [] }

namespace Core

/-- `Registry::admit`. -/
def admitObservation (self : Core) (observation : Observation) (registry : Txid) : Admission :=
  if registry ≠ self.genesis then .rejected .foreignRegistry
  else if observation.commit.height ≤ self.genesisHeight then .rejected .commitNotAfterGenesis
  else match checkedSub observation.height observation.commit.height with
    | none => .rejected .revealWindow
    | some age =>
      if age < 1 ∨ self.rules.revealMaxBlocks.toNat < age then .rejected .revealWindow
      else .admitted

/-- `Registry::admit_approver`. -/
def admitApprover (self : Core) (observation : Observation) (registry : Txid) : Admission :=
  match self.admitObservation observation registry with
  | .rejected rejection => .rejected rejection
  | .admitted =>
    if self.rules.mode = .«open» then .rejected .openRegistry
    else if !self.rules.isApprover observation.author then .rejected .notApprover
    else .admitted

/-- `Registry::expiry_after`. -/
def expiryAfter (self : Core) (height : Nat) : Option Nat :=
  checkedAdd height self.rules.expiryBlocks.toNat

/-- `Registry::store`. -/
def store (self : Core) (name : Name) (state : NameState) : Core :=
  let previous := stateOf self.names name
  let expiries := match previous.binding with
    | .bound bound => self.expiries.erase (bound.expiry, name)
    | .unbound => self.expiries
  let expiries := match state.binding with
    | .bound bound => expiries.insert (bound.expiry, name)
    | .unbound => expiries
  { self with expiries, names := self.names.insert name state }

/-- `Registry::forget`. -/
def forget (self : Core) (name : Name) : Core :=
  let previous := stateOf self.names name
  let expiries := match previous.binding with
    | .bound bound => self.expiries.erase (bound.expiry, name)
    | .unbound => self.expiries
  { self with expiries, names := self.names.erase name }

/-- `Registry::forward_delta`. -/
def forwardDelta (self : Core) (delta : Delta) : BlockDelta where
  height := self.height
  names := delta.names.map fun (key, before) =>
    ⟨key, beforeValue before, self.names[key]?⟩
  pending := delta.pending.map fun (key, before) =>
    ⟨key, beforeValue before, self.pending[key]?⟩

/-- `Registry::resolve`. -/
def resolve (self : Core) (name : Name) : Resolution :=
  let state := stateOf self.names name
  if state.suspended then .suspended
  else match state.binding with
    | .unbound => .unbound
    | .bound bound => .bound bound

end Core

namespace Connecting

/-- `Registry::remember_name`. -/
def rememberName (self : Connecting) (name : Name) : Connecting :=
  if self.frame.names.any (fun entry => entry.1 = name) then self
  else { self with frame.names := self.frame.names ++ [(name, previous self.names[name]?)] }

/-- `Registry::remember_pending`. -/
def rememberPending (self : Connecting) (txid : Txid) : Connecting :=
  if self.frame.pending.any (fun entry => entry.1 = txid) then self
  else { self with
    frame.pending := self.frame.pending ++ [(txid, previous self.pending[txid]?)] }

/-- `Registry::set_name`. -/
def setName (self : Connecting) (name : Name) (state : NameState) : Connecting :=
  let self := self.rememberName name
  { self with toCore := self.store name state }

/-- The `self.pending.insert(..)` that follows a `remember_pending`. -/
def storePending (self : Connecting) (txid : Txid) (record : PendingRecord) : Connecting :=
  { self with pending := self.pending.insert txid record }

/-! ### Expiry -/

/-- One round of the loop in `Registry::expire`. -/
def expireEntry (self : Connecting) (entry : Nat × Name) : Connecting :=
  let state := stateOf self.names entry.2
  match state.binding with
  | .bound _ => self.setName entry.2 { state with binding := .unbound }
  | .unbound => { self with expiries := self.expiries.erase entry }

/-- `Registry::expire`. -/
def expire (self : Connecting) (height : Nat) : Connecting :=
  let due := Lib.SecondaryIndex.upTo self.expiries (fun expiry => expiry ≤ height)
  due.foldl expireEntry self

/-! ### Approver records -/

/-- `Registry::complete`. -/
def complete (self : Connecting) (observation : Observation) (recordTxid : Txid)
    (record : PendingRecord) : Connecting × Verdict :=
  let state := stateOf self.names record.name
  match record.kind with
  | .request =>
    if state.suspended then (self, .inert .nameSuspended)
    else match state.binding with
      | .bound _ => (self, .inert .nameBound)
      | .unbound =>
        match self.expiryAfter observation.height with
        | none => (self, .invalid .overflow)
        | some expiry =>
          let bound : Bound := {
            owner := record.author
            target := .publication record.target
            expiry
            claimTxid := recordTxid
            lastTxid := observation.txid }
          (self.setName record.name { state with binding := .bound bound }, .applied)
  | .update =>
    match state.binding with
    | .unbound => (self, .inert .nameUnbound)
    | .bound bound =>
      if bound.owner ≠ record.author then (self, .inert .ownerChanged)
      else
        let bound := { bound with
          target := .publication record.target
          lastTxid := observation.txid }
        (self.setName record.name { state with binding := .bound bound }, .applied)

/-- `Registry::approve`. -/
def approve (self : Connecting) (observation : Observation) (approval : Approval) :
    Connecting × Verdict :=
  match self.admitApprover observation approval.registry with
  | .rejected rejection => (self, .invalid rejection)
  | .admitted =>
    match self.pending[approval.recordTxid]? with
    | none => (self, .invalid .unknownRecord)
    | some record =>
      if record.sha256 ≠ approval.recordSha256 then (self, .invalid .hashMismatch)
      else if record.completed then (self, .inert .completed)
      else if observation.author ∈ record.approvals then (self, .inert .repeated)
      else
        let record := { record with approvals := insert observation.author record.approvals }
        let self := self.rememberPending approval.recordTxid
        if record.approvals.card < self.rules.threshold.toNat then
          (self.storePending approval.recordTxid record, .applied)
        else
          let record := { record with completed := true }
          let (self, verdict) := self.complete observation approval.recordTxid record
          (self.storePending approval.recordTxid record, verdict)

/-- The votes of the phase a vote belongs to. -/
def votesOf (state : NameState) (suspend : Bool) : Finset XOnlyPublicKey :=
  if suspend then state.suspendVotes else state.restoreVotes

/-- The state after a counted vote: the votes grow, and a quorum flips the phase and
clears both sets. -/
def countVote (threshold : Nat) (state : NameState) (author : XOnlyPublicKey)
    (suspend : Bool) : NameState :=
  let votes := insert author (votesOf state suspend)
  if threshold ≤ votes.card then
    { state with suspended := suspend, suspendVotes := ∅, restoreVotes := ∅ }
  else if suspend then { state with suspendVotes := votes }
  else { state with restoreVotes := votes }

/-- `Registry::vote`. -/
def vote (self : Connecting) (observation : Observation) (op : NameOp) (suspend : Bool) :
    Connecting × Verdict :=
  match self.admitApprover observation op.registry with
  | .rejected rejection => (self, .invalid rejection)
  | .admitted =>
    let state := stateOf self.names op.name
    if state.suspended = suspend then (self, .inert .wrongPhase)
    else if observation.author ∈ votesOf state suspend then (self, .inert .repeated)
    else
      let state := countVote self.rules.threshold.toNat state observation.author suspend
      (self.setName op.name state, .applied)

/-- The `match` of `Registry::approver_records`; `none` is its `continue`. -/
def approverRecord (self : Connecting) (observation : Observation) :
    Option (Connecting × Verdict) :=
  match observation.payload with
  | .approve approval => some (self.approve observation approval)
  | .suspend op => some (self.vote observation op true)
  | .restore op => some (self.vote observation op false)
  | .genesis _ | .claim _ | .update _ | .renew _ => none

/-- The loop that `approver_records` and `owner_records` share: handle each observation
in block order and push its outcome, unless the handler skips it. -/
def eachRecord (handle : Connecting → Observation → Option (Connecting × Verdict)) :
    List Observation → Connecting × List Outcome → Connecting × List Outcome
  | [], state => state
  | observation :: rest, (self, outcomes) =>
    match handle self observation with
    | none => eachRecord handle rest (self, outcomes)
    | some (self, verdict) =>
      eachRecord handle rest (self, outcomes ++ [Outcome.new observation verdict])

/-- `Registry::approver_records`. -/
def approverRecords (self : Connecting) (observations : List Observation)
    (outcomes : List Outcome) : Connecting × List Outcome :=
  eachRecord approverRecord observations (self, outcomes)

/-! ### Claims -/

/-- The candidates of each name. The source lists indices into `observations`; here each
index comes with the observation it points to. -/
abbrev Candidates := ExtTreeMap Name (List (Observation × Nat))

/-- One round of the first loop of `Registry::claims`. -/
def gatherClaim (self : Connecting) (gathered : Candidates × List Outcome)
    (entry : Observation × Nat) : Candidates × List Outcome :=
  let (candidates, outcomes) := gathered
  match entry.1.payload with
  | .claim op =>
    match self.admitObservation entry.1 op.registry with
    | .rejected rejection =>
      (candidates, outcomes ++ [Outcome.new entry.1 (.invalid rejection)])
    | .admitted =>
      match (stateOf self.names op.name).binding with
      | .bound _ => (candidates, outcomes ++ [Outcome.new entry.1 (.inert .nameBound)])
      | .unbound =>
        match candidates[op.name]? with
        | none => (candidates.insert op.name [entry], outcomes)
        | some list => (candidates.insert op.name (list ++ [entry]), outcomes)
  | _ => (candidates, outcomes)

/-- `Registry::assign`. -/
def assign (self : Connecting) (name : Name) (indices : List (Observation × Nat))
    (outcomes : List Outcome) : Connecting × List Outcome :=
  match indices.argmin (fun entry => commitKey entry.1) with
  | none => (self, outcomes)
  | some winner =>
    let observation := winner.1
    match observation.payload with
    | .claim op =>
      match self.expiryAfter observation.height with
      | none => (self, outcomes ++ [Outcome.new observation (.invalid .overflow)])
      | some expiry =>
        let bound : Bound := {
          owner := observation.author
          target := targetOf op
          expiry
          claimTxid := observation.txid
          lastTxid := observation.txid }
        let state := { stateOf self.names name with binding := .bound bound }
        let verdicts := indices.map fun entry =>
          Outcome.new entry.1 (if entry.2 = winner.2 then .applied else .inert .lostRace)
        (self.setName name state, outcomes ++ verdicts)
    | _ => (self, outcomes)

/-- One round of the second loop of `Registry::claims`. -/
def assignEntry (state : Connecting × List Outcome)
    (entry : Name × List (Observation × Nat)) : Connecting × List Outcome :=
  state.1.assign entry.1 entry.2 state.2

/-- `Registry::claims`. -/
def claims (self : Connecting) (observations : List Observation) (outcomes : List Outcome) :
    Connecting × List Outcome :=
  let (candidates, outcomes) := observations.zipIdx.foldl (gatherClaim self) (∅, outcomes)
  candidates.toList.foldl assignEntry (self, outcomes)

/-! ### Owner records -/

/-- `Registry::insert_pending`. -/
def insertPending (self : Connecting) (observation : Observation) (kind : PendingKind)
    (op : OwnerOp) : Connecting :=
  (self.rememberPending observation.txid).storePending observation.txid {
    kind
    name := op.name
    author := observation.author
    target := op.target
    sha256 := observation.recordSha256
    height := observation.height
    approvals := ∅
    completed := false }

/-- `Registry::request`. -/
def request (self : Connecting) (observation : Observation) (op : OwnerOp) :
    Connecting × Verdict :=
  match self.admitObservation observation op.registry with
  | .rejected rejection => (self, .invalid rejection)
  | .admitted =>
    if op.isReserving then (self, .invalid .zeroTarget)
    else (self.insertPending observation .request op, .pending)

/-- `Registry::update`. -/
def update (self : Connecting) (observation : Observation) (op : OwnerOp) :
    Connecting × Verdict :=
  match self.admitObservation observation op.registry with
  | .rejected rejection => (self, .invalid rejection)
  | .admitted =>
    let state := stateOf self.names op.name
    match state.binding with
    | .unbound => (self, .invalid .nameUnbound)
    | .bound bound =>
      if bound.owner ≠ observation.author then (self, .invalid .notOwner)
      else match self.rules.mode with
        | .«open» =>
          let bound := { bound with target := targetOf op, lastTxid := observation.txid }
          (self.setName op.name { state with binding := .bound bound }, .applied)
        | .administered =>
          if op.isReserving then (self, .invalid .zeroTarget)
          else (self.insertPending observation .update op, .pending)

/-- `Registry::renew`. -/
def renew (self : Connecting) (observation : Observation) (op : OwnerOp) :
    Connecting × Verdict :=
  match self.admitObservation observation op.registry with
  | .rejected rejection => (self, .invalid rejection)
  | .admitted =>
    match self.expiryAfter observation.height with
    | none => (self, .invalid .overflow)
    | some expiry =>
      let state := stateOf self.names op.name
      match state.binding with
      | .unbound => (self, .invalid .nameUnbound)
      | .bound bound =>
        if bound.owner ≠ observation.author then (self, .invalid .notOwner)
        else
          let renewed (target : Target) : Connecting :=
            let bound := { bound with target, expiry, lastTxid := observation.txid }
            self.setName op.name { state with binding := .bound bound }
          match self.rules.mode with
          | .«open» => (renewed (targetOf op), .applied)
          | .administered =>
            if bound.target ≠ .publication op.target then (self, .invalid .targetChanged)
            else (renewed bound.target, .applied)

/-- The `match` of `Registry::owner_records`; `none` is its `continue`. -/
def ownerRecord (self : Connecting) (observation : Observation) :
    Option (Connecting × Verdict) :=
  match observation.payload with
  | .claim op =>
    match self.rules.mode with
    | .administered => some (self.request observation op)
    | .«open» => none
  | .update op => some (self.update observation op)
  | .renew op => some (self.renew observation op)
  | .genesis _ => some (self, .invalid .foreignRegistry)
  | .approve _ | .suspend _ | .restore _ => none

/-- `Registry::owner_records`. -/
def ownerRecords (self : Connecting) (observations : List Observation)
    (outcomes : List Outcome) : Connecting × List Outcome :=
  eachRecord ownerRecord observations (self, outcomes)

/-- The passes of `connect_delta` over the sorted observations of one block. -/
def applyBlock (self : Connecting) (observations : List Observation) :
    Connecting × List Outcome :=
  let self := self.expire self.height
  let (self, outcomes) := self.approverRecords observations []
  let (self, outcomes) :=
    if self.rules.mode = .«open» then self.claims observations outcomes else (self, outcomes)
  self.ownerRecords observations outcomes

end Connecting

/-! ## Blocks -/

/-- `sort_by_key(|observation| observation.position)`, a stable sort. -/
def sortByPosition (observations : List Observation) : List Observation :=
  observations.insertionSort fun a b => a.position ≤ b.position

/-- `windows(2)` all strictly ascending in position. -/
def strictPositions : List Observation → Bool
  | a :: b :: rest => a.position < b.position && strictPositions (b :: rest)
  | _ => true

/-- The checks of `connect_delta`; on success the observations in block order. -/
def Core.admitBlock (self : Core) (height : Nat) (observations : List Observation) :
    Except Error (List Observation) :=
  match checkedAdd self.height 1 with
  | none => .error (.capacity "height overflow")
  | some expected => do
    ensure (height == expected) s!"expected block {expected}, got {height}"
    ensure (observations.all fun observation => observation.height == height)
      s!"observation outside block {height}"
    ensure (strictPositions (sortByPosition observations)) "duplicate block position"
    return sortByPosition observations

/-- A core about to apply the block at `height`, with an empty frame. -/
def Core.open (self : Core) (height : Nat) : Connecting :=
  { self with height, frame := ⟨[], []⟩ }

namespace Registry

/-- `Registry::connect_delta`. -/
def connectDelta (self : Registry) (height : Nat) (observations : List Observation) :
    Except Error AppliedBlock × Registry :=
  match self.admitBlock height observations with
  | .error error => (.error error, self)
  | .ok observations =>
    let (block, outcomes) := (self.toCore.open height).applyBlock observations
    (.ok ⟨outcomes, block.forwardDelta block.frame⟩,
      { block.toCore with undo := block.frame :: self.undo })

/-- One round of the first loop of `disconnect_delta`. -/
def restoreName (self : Core) (entry : Name × Previous NameState) : Core :=
  match entry.2 with
  | .present state => self.store entry.1 state
  | .absent => self.forget entry.1

/-- One round of the second loop of `disconnect_delta`. -/
def restorePending (self : Core) (entry : Txid × Previous PendingRecord) : Core :=
  match entry.2 with
  | .present record => { self with pending := self.pending.insert entry.1 record }
  | .absent => { self with pending := self.pending.erase entry.1 }

/-- `Registry::disconnect_delta`. -/
def disconnectDelta (self : Registry) : Except Error BlockDelta × Registry :=
  match self.undo with
  | [] => (.error (.missing "no reversible block"), self)
  | delta :: undo =>
    match checkedSub self.height 1 with
    | none => (.error (.capacity "height underflow"), self)
    | some restoredHeight =>
      let forward := self.forwardDelta delta
      let core := delta.names.foldl restoreName self.toCore
      let core := delta.pending.foldl restorePending core
      (.ok forward, { core with height := restoredHeight, undo })

/-- `Registry::prune`: keep the newest `keep` frames. -/
def prune (self : Registry) (keep : Nat) : Registry :=
  { self with undo := self.undo.take keep }

end Registry

end Urma.Names
