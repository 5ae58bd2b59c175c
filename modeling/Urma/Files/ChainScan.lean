import Urma.Core.RoundTrip
import Urma.Core.EnvelopeExact
import Urma.Runtime.Backend

/-!
# Private recovery from a chain

`urma_files::chain`: the blocks of a range are read one after another, every candidate among their
reveals is verified against its commit, and what carries a private record is given to
`accept_record`. A candidate that cannot be verified is counted, whatever the reason, and so is one
whose commit the node failed to deliver.
-/

namespace Urma.Files

open Std Chain Container Format Urma.Runtime Backend

/-! ## The node -/

/-- What the node answers to the calls of one scan, each of which is made once. Any may fail. -/
structure ScanNode where
  verifyNetwork : Except ServiceError Unit
  requireTxindex : Except ServiceError Unit
  tip : Except ServiceError (ℕ × String)
  /-- `Node::block`, by its height. -/
  block : ℕ → Except ServiceError Block
  /-- `Node::transaction`, for the candidate at a height and a place in its block. -/
  transaction : ℕ → ℕ → Txid → Except ServiceError Transaction
  /-- `Node::block_hash` as text, after the last block. -/
  blockHash : ℕ → Except ServiceError String

/-- What the scan takes from other crates. -/
structure ScanCrates where
  reveal : RevealCrate
  crypto : Crypto
  /-- `Display` of an error of `urma_core`. -/
  display : Error → String

variable (crates : ScanCrates) (node : ScanNode) (root : Bytes32)

/-! ## One block -/

/-- `From<urma_core::error::Error>`. -/
def ScanCrates.protocol {α : Type} (result : Except Error α) : Except ServiceError α :=
  match result with
  | .ok value => .ok value
  | .error cause => .error (.message (crates.display cause))

@[simp] theorem ScanCrates.protocol_eq_ok {α : Type} {result : Except Error α} {value : α} :
    crates.protocol result = .ok value ↔ result = .ok value := by
  cases result <;> simp [protocol]

/-- `verified_record`. -/
def verifiedRecord (height position : ℕ) (transaction : Transaction) :
    Except ServiceError Envelope.ParsedEnvelope := do
  let _ ← crates.protocol (Envelope.extractReveal crates.reveal transaction)
  let input ← contextService transaction.input.head? "reveal has no input"
  let commit ← node.transaction height position input.previousOutput.txid
  crates.protocol (Envelope.verifyReveal crates.reveal transaction commit)

/-- What the loops carry: the count of rejected records, the objects, and the records that were
given to `accept_record`, which only the statements read. -/
structure Collected where
  rejected : ℕ
  objects : Objects
  given : List Bytes

/-- One transaction, in the loop of `collect_block`. -/
def collectTransaction (height position : ℕ) (transaction : Transaction) (state : Collected) :
    Except ServiceError Collected :=
  if transaction.input.any fun input => Envelope.isCandidate input.witness then
    match verifiedRecord crates node height position transaction with
    | .error _ => do
        let rejected ← countRejected state.rejected 1 "rejected count overflow"
        .ok { state with rejected }
    | .ok parsed => do
        let kind ← crates.protocol (RecordKind.parse parsed.record)
        if kind = .privateRecord then do
          let (more, objects) ← acceptRecord crates.crypto root parsed.record state.objects
          let rejected ← countRejected state.rejected more "rejected count overflow"
          .ok { rejected, objects, given := state.given ++ [parsed.record] }
        else .ok state
  else .ok state

/-- The loop of `collect_block`. -/
def collectBlock (height : ℕ) : ℕ → List Transaction → Collected → Except ServiceError Collected
  | _, [], state => .ok state
  | position, transaction :: transactions, state => do
      let state ← collectTransaction crates node root height position transaction state
      collectBlock height (position + 1) transactions state

/-! ## The range -/

/-- `config::MAX_SCAN_BLOCKS`. -/
def maxScanBlocks : ℕ := 100000

/-- `ChainRecovery`. -/
structure ChainRecovery where
  objects : Objects
  startHeight : ℕ
  tipHeight : ℕ
  tipHash : String
  rejectedRecords : ℕ

/-- One height, in the loop of `scan`: `collect_block` counts from zero, and the sum is checked. -/
def scanHeight (state : Collected) (height : ℕ) : Except ServiceError Collected := do
  let block ← node.block height
  let collected ← collectBlock crates node root height 0 block.txdata { state with rejected := 0 }
  let rejected ← countRejected state.rejected collected.rejected "rejected record overflow"
  .ok { collected with rejected }

/-- `scan`, with the records that were given to `accept_record`. -/
def scan (startHeight maxBlocks : ℕ) : Except ServiceError (ChainRecovery × List Bytes) := do
  node.verifyNetwork
  node.requireTxindex
  let (tipHeight, tipHash) ← node.tip
  ensureService (startHeight ≤ tipHeight) "start height is beyond chain tip"
  let count ← contextService ((checkedSub tipHeight startHeight).bind (checkedAdd · 1))
    "block range overflow"
  ensureService (0 < maxBlocks && maxBlocks ≤ maxScanBlocks && count ≤ maxBlocks)
    "scan exceeds requested block limit"
  let collected ← (List.range' startHeight count).foldlM (scanHeight crates node root) ⟨0, ∅, []⟩
  let final ← node.blockHash tipHeight
  ensureService (final == tipHash) "chain changed during private recovery; retry scan"
  .ok (⟨collected.objects, startHeight, tipHeight, tipHash, collected.rejected⟩, collected.given)

/-! ## What is given -/

variable {crates node root}

/-- A transaction of some block of the chain. -/
def OnChain (chain : ℕ → Block) (transaction : Transaction) : Prop :=
  ∃ height, transaction ∈ (chain height).txdata

/-- Every answer that is not an error is that of the chain. -/
structure Truthful (crates : ScanCrates) (node : ScanNode) (chain : ℕ → Block) : Prop where
  block : ∀ height block, node.block height = .ok block → block = chain height
  transaction : ∀ height position txid transaction,
    node.transaction height position txid = .ok transaction →
      OnChain chain transaction ∧ crates.reveal.consensus.computeTxid transaction = txid

section Complete

variable {chain : ℕ → Block} {start tip height position : ℕ} {reveal : Transaction}
  {record : Bytes}

end Complete

namespace Sample

/-- The one record of a sealed note. -/
def record : Bytes := (Container.Sample.sealedRecords Container.Sample.note).headD []

def txid (byte : UInt8) : Txid :=
  ⟨Vector.replicate 32 byte⟩

/-- A commit to a Taproot output. -/
def commit : Transaction where
  version := 2
  lockTime := 1
  input := []
  output := [⟨1000, 81 :: 32 :: List.replicate 32 2⟩]

/-- The input that reveals a record and spends the commit. -/
def revealInput (record : Bytes) : TxIn :=
  ⟨⟨txid 1, 0⟩, [], 0, [List.replicate 64 1,
    Envelope.recordScript Envelope.Sample.library record Envelope.Sample.generator,
    tapScript :: Envelope.Sample.generator.serialize.toList]⟩

def returned : TxOut := ⟨700, 0 :: 20 :: List.replicate 20 7⟩

def reveal (record : Bytes) : Transaction where
  version := 2
  lockTime := 2
  input := [revealInput record]
  output := [returned]

def header : Header := ⟨2, zeroHash, zeroHash, 0, 0, 0⟩

/-- The commit in the first block, the reveal in the second. -/
def chain (record : Bytes) : ℕ → Block
  | 0 => ⟨header, [commit]⟩
  | 1 => ⟨header, [reveal record]⟩
  | _ => ⟨header, []⟩

variable {payload : Bytes}

end Sample

end Urma.Files
