import Urma.Runtime.Candidates

/-!
# Transfers

`urma_runtime::transfer` and the coin selection of `urma_runtime::wallet`. Coins are chosen, largest
first, by a price that is linear in their number; the draft they pay for is priced by its virtual
size, with and without change.
-/

namespace Urma.Runtime

open Chain Lib

/-! ## Choosing coins -/

/-- `wallet::Liveness`. -/
inductive Liveness where
  | scanned
  | remembered
  deriving DecidableEq, Repr

/-- `wallet::Selection`. -/
structure Selection where
  inputs : List FundingInput
  total : ℕ
  nextChange : ℕ
  deriving DecidableEq

/-- What a transfer asks of the node. -/
structure TransferNode extends WalletNode where
  chain : Chain
  /-- `getblockhash`, then `getrawtransaction` in that block. -/
  parentRaw : Coin → Except ServiceError String

/-- `covered`. -/
def covered (total inputs minimum perInput : ℕ) : Except ServiceError Bool := do
  let needed ← contextService
    ((checkedMul perInput inputs).bind fun inputs => checkedAdd inputs minimum)
    "funding target overflow"
  .ok (needed ≤ total)

/-- Whether a coin is still live; one that was just scanned is not looked up again. -/
def stillLive (live : Coin → Except ServiceError Bool) (liveness : Liveness) (coin : Coin) :
    Except ServiceError Bool :=
  match liveness with
  | .scanned => .ok true
  | .remembered => live coin

/-- `"funding needs more than {} inputs; …"`. -/
def tooManyInputs : String :=
  s!"funding needs more than {walletMaxInputs} inputs; consolidate the wallet first"

/-- `"confirmed wallet coins do not cover the spend; …"`. -/
def notCovered : String :=
  "confirmed wallet coins do not cover the spend; fund the receive address and confirm first"

/-- The loop of `chosen`. -/
def chooseFrom (live : Coin → Except ServiceError Bool) (minimum perInput : ℕ)
    (liveness : Liveness) : List Coin → List Coin → ℕ → Except ServiceError (List Coin × ℕ)
  | [], chosen, total => .ok (chosen, total)
  | coin :: coins, chosen, total => do
      let isCovered ← covered total chosen.length minimum perInput
      if isCovered then .ok (chosen, total)
      else do
        ensureService (chosen.length < walletMaxInputs) tooManyInputs
        let isLive ← stillLive live liveness coin
        if !isLive then chooseFrom live minimum perInput liveness coins chosen total
        else do
          let total ← contextService (checkedAdd total coin.value) "funding overflow"
          chooseFrom live minimum perInput liveness coins (chosen ++ [coin]) total

/-- The coins that `chosen` decides on. -/
def choose (live : Coin → Except ServiceError Bool) (coins : List Coin) (minimum perInput : ℕ)
    (liveness : Liveness) : Except ServiceError (List Coin × ℕ) := do
  let (chosen, total) ← chooseFrom live minimum perInput liveness coins [] 0
  let isCovered ← covered total chosen.length minimum perInput
  ensureService isCovered notCovered
  .ok (chosen, total)

variable (crates : PrepareCrates) (node : TransferNode) (account : Account crates.PrivateKey)

/-- `parent`. -/
def parent (coin : Coin) : Except ServiceError Funding := do
  let rawTransaction ← node.parentRaw coin
  let funding : Funding := ⟨rawTransaction, coin.outpoint.vout.toNat⟩
  let (outpoint, previous) ← funding.prevout crates.toPlanCrates
  ensureService (outpoint == coin.outpoint && previous.value.toNat == coin.value)
    "funding transaction disagrees with the scanned coin"
  let script ← account.script crates coin.path
  ensureService (previous.scriptPubkey == script)
    "funding transaction disagrees with the wallet path"
  .ok funding

/-- The end of `chosen`: the coins with their parents. -/
def fundingInputs : List Coin → Except ServiceError (List FundingInput)
  | [] => .ok []
  | coin :: coins => do
      let funding ← parent crates node account coin
      let inputs ← fundingInputs coins
      .ok (⟨funding, coin.path⟩ :: inputs)

/-- `Node::chosen`. -/
def chosen (coins : List Coin) (minimum perInput : ℕ) (liveness : Liveness) :
    Except ServiceError Selection := do
  let (chosen, total) ← choose node.live coins minimum perInput liveness
  let inputs ← fundingInputs crates node account chosen
  .ok { inputs, total, nextChange := nextChange coins }

/-- `Node::select_coins`. -/
def selectCoins (minimum perInput : ℕ) : Except ServiceError Selection := do
  let view ← wallet node.toWalletNode
  chosen crates node account view.coins minimum perInput .scanned

/-! ## Transfers -/

/-- `transfer::TransferRequest`. -/
structure TransferRequest where
  destination : Bytes
  amount : UInt64
  rate : ℕ
  /-- `NonZeroU64`. -/
  rate_pos : 0 < rate
  maxFee : ℕ

/-- `transfer::Change`. -/
structure Change where
  value : ℕ
  path : KeyPath
  deriving DecidableEq

/-- `transfer::Transfer`. -/
structure Transfer where
  transaction : Transaction
  fee : ℕ
  change : Option Change
  inputs : List FundingInput
  deriving DecidableEq

namespace Transfer

/-- `ScriptBuf::is_op_return`. -/
def isOpReturn (script : Bytes) : Bool :=
  script.head? == some 0x6a

/-- The draft of a spend: an output, and the change if there is any. -/
def draft (outpoints : List OutPoint) (request : TransferRequest) (change : Option TxOut) :
    Transaction :=
  let draft := spending outpoints ⟨request.amount, request.destination⟩
  { draft with output := draft.output ++ change.toList }

/-- `quote`. -/
def quote (request : TransferRequest) (inputs : ℕ) (change : Option Bytes) :
    Except ServiceError ℕ :=
  let draft := draft (List.replicate inputs OutPoint.null) request
    (change.map fun script => ⟨0, script⟩)
  contextService (checkedMul (signedVsize crates draft) request.rate) "transfer fee overflow"

/-- `settle`. -/
def settle (request : TransferRequest) (selection : Selection) (retained : ℕ) :
    Except ServiceError (ℕ × Option Change) := do
  let inputs := selection.inputs.length
  let rest ← contextService (checkedSub selection.total request.amount.toNat)
    "insufficient funding"
  let path : KeyPath := ⟨.internal, selection.nextChange⟩
  let script ← account.script crates path
  let fee ← quote crates request inputs (some script)
  let least ← contextService (checkedAdd fee retained) "transfer fee overflow"
  if least ≤ rest then .ok (fee, some ⟨rest - fee, path⟩)
  else do
    let alone ← quote crates request inputs none
    ensureService (alone ≤ rest) "insufficient funding"
    .ok (rest, none)

/-- The start of `prepare`: what the coins have to cover, and what each of them costs. -/
def targets (request : TransferRequest) : Except ServiceError (ℕ × ℕ) := do
  let single ← quote crates request 1 none
  let double ← quote crates request 2 none
  let perInput ← contextService (checkedSub double single) "transfer fee underflow"
  let minimum ← contextService (checkedAdd request.amount.toNat single)
    "transfer amount overflow"
  .ok (minimum, perInput)

/-- What the inputs spend, with the paths of their keys. -/
def spent : List FundingInput → Except ServiceError (List (OutPoint × TxOut))
  | [] => .ok []
  | input :: inputs => do
      let source ← input.funding.prevout crates.toPlanCrates
      let sources ← spent inputs
      .ok (source :: sources)

/-- The output of the change. -/
def changeOutput : Option Change → Except ServiceError (Option TxOut)
  | none => .ok none
  | some change => do
      let script ← account.script crates change.path
      .ok (some ⟨UInt64.ofNat change.value, script⟩)

/-- `prepare`. -/
def prepare (request : TransferRequest) : Except ServiceError Transfer := do
  let retained := publicationReturn node.chain
  ensureService (retained ≤ request.amount.toNat)
    s!"amount below the dust-safe minimum of {retained} base units"
  ensureService (!isOpReturn request.destination) "destination cannot be a data output"
  let (minimum, perInput) ← targets crates request
  let selection ← selectCoins crates node account minimum perInput
  let (fee, change) ← settle crates account request selection retained
  ensureService (fee ≤ request.maxFee)
    s!"transfer fee {fee} exceeds the approved maximum {request.maxFee}"
  let sources ← spent crates selection.inputs
  let output ← changeOutput crates account change
  let unsigned := draft (sources.map Prod.fst) request output
  let _ ← node.nodeGenesis
  let signed ← account.sign crates unsigned (sources.map Prod.snd) request.maxFee
    (selection.inputs.map FundingInput.path)
  .ok { transaction := signed, fee, change, inputs := selection.inputs }

end Transfer

end Urma.Runtime
