import Urma.Chain.Config
import Urma.Chain.Validation

/-!
# Inclusion proofs

`urma_chain::inclusion`: a transaction is proved to be in a block by four branches, to the Merkle
root from the transaction and from the coinbase, and to the witness root from the transaction and
from the zero that stands for the coinbase. The builder stores the levels of both trees and picks
the siblings of a position; the verifier climbs from the leaf with the count the proof claims.
-/

namespace Urma.Chain

open Lib Lib.Layout

/-! ## Decoding a transaction -/

/-- `DecodeError`, as far as `decode::transaction` produces it. -/
inductive DecodeError where
  | limitExceeded
  | bitcoin
  | litecoin
  | nonCanonical
  | unsupportedMwebTransaction
  deriving DecidableEq, Repr

/-- What `decode` takes from the `bitcoin` and `litecoin` crates; a decoder answers `none` where
the crate has an error. -/
structure DecodeCrates where
  /-- `bitcoin::consensus::deserialize` of a transaction, which reads all bytes. -/
  deserialize : Bytes → Option Transaction
  /-- `litecoin::Transaction`. -/
  LitecoinTransaction : Type
  /-- `consensus_decode_from_finite_reader`: a transaction, and the bytes after it. -/
  litecoinDecode : Bytes → Option (LitecoinTransaction × Bytes)
  /-- `litecoin::consensus::serialize`. -/
  litecoinSerialize : LitecoinTransaction → Bytes
  /-- Whether there is an `mw_tx`. -/
  hasMwTx : LitecoinTransaction → Bool
  /-- `tx.input.is_empty()`. -/
  isInputEmpty : LitecoinTransaction → Bool
  /-- `tx.is_hog_ex = false`. -/
  clearHogEx : LitecoinTransaction → LitecoinTransaction

namespace Decode

variable (crates : DecodeCrates)

/-- `bounded`. -/
def bounded (raw : Bytes) : Except DecodeError Unit :=
  if 8000000 < raw.length then .error .limitExceeded else .ok ()

/-- `canonical::<litecoin::Transaction>`. -/
def canonical (remaining : Bytes) : Except DecodeError (crates.LitecoinTransaction × Bytes) :=
  match crates.litecoinDecode remaining with
  | none => .error .litecoin
  | some (value, rest) =>
      if crates.litecoinSerialize value ≠ remaining.take (remaining.length - rest.length) then
        .error .nonCanonical
      else .ok (value, rest)

/-- `finished`. -/
def finished (remaining : Bytes) : Except DecodeError Unit :=
  if remaining.isEmpty then .ok () else .error .nonCanonical

/-- `deserialize(raw).map_err(DecodeError::Bitcoin)`. -/
def bitcoin (raw : Bytes) : Except DecodeError Transaction :=
  match crates.deserialize raw with
  | none => .error .bitcoin
  | some tx => .ok tx

/-- `transparent`. -/
def transparent (tx : crates.LitecoinTransaction) : Except DecodeError Transaction :=
  if crates.hasMwTx tx || crates.isInputEmpty tx then .error .unsupportedMwebTransaction
  else bitcoin crates (crates.litecoinSerialize (crates.clearHogEx tx))

/-- `decode::transaction`. -/
def transaction (raw : Bytes) (chain : Chain) : Except DecodeError Transaction := do
  bounded raw
  match chain with
  | .bitcoinMainnet | .bitcoinRegtest | .bitcoinTestnet4 => bitcoin crates raw
  | .litecoinMainnet | .litecoinTestnet => do
      let (tx, remaining) ← canonical crates raw
      finished remaining
      transparent crates tx

end Decode

/-! ## Proofs -/

/-- `InclusionError`. -/
inductive InclusionError where
  | decode (cause : DecodeError)
  | integrity (cause : BlockValidationError)
  | limitExceeded
  | invalidPath
  | inconsistentPaths
  | invalidPadding
  | merkleRootMismatch
  | invalidCoinbase
  | coinbaseTarget
  | invalidReservedValue
  | missingWitnessCommitment
  | witnessRootMismatch
  | witnessCommitmentMismatch
  deriving DecidableEq, Repr

/-- `MAX_TRANSACTIONS`. -/
def maxTransactions : ℕ := 1000000

/-- `MAX_PATH_LEVELS`. -/
def maxPathLevels : ℕ := 20

/-- `MerklePath`. -/
structure MerklePath where
  index : ℕ
  txCount : ℕ
  siblings : List Bytes32
  deriving DecidableEq

/-- `TransactionProof`. -/
structure TransactionProof where
  transaction : Bytes
  txidPath : MerklePath
  coinbase : Bytes
  coinbasePath : MerklePath
  witnessPath : MerklePath
  coinbaseWitnessPath : MerklePath
  deriving DecidableEq

/-- `IncludedTransaction`. -/
structure IncludedTransaction where
  transaction : Transaction
  raw : Bytes
  blockHash : Bytes32
  position : ℕ
  deriving DecidableEq

/-- `if !condition { return Err(error); }`. -/
def require (condition : Bool) (error : InclusionError) : Except InclusionError Unit :=
  if condition then .ok () else .error error

@[simp] theorem require_true (error : InclusionError) : require true error = .ok () := rfl

@[simp] theorem require_eq_ok {condition : Bool} {error : InclusionError} {u : Unit} :
    require condition error = .ok u ↔ condition = true := by
  cases condition <;> simp [require]

/-- `Option::ok_or`. -/
def okOr {α : Type} (value : Option α) (error : InclusionError) : Except InclusionError α :=
  match value with
  | some value => .ok value
  | none => .error error

@[simp] theorem okOr_eq_ok {α : Type} {value : Option α} {error : InclusionError} {a : α} :
    okOr value error = .ok a ↔ value = some a := by
  cases value <;> simp [okOr]

/-! ## Climbing a path -/

/-- The loop of `MerklePath::check`: the levels above a width, with one round a halving. -/
def levelsWithin : ℕ → ℕ → ℕ
  | 0, _ => 0
  | rounds + 1, width => if 1 < width then levelsWithin rounds ((width + 1) / 2) + 1 else 0

/-- The number of siblings a path needs for a count. -/
def pathLevels (width : ℕ) : ℕ :=
  levelsWithin width width

/-- `MerklePath::check`. -/
def MerklePath.check (path : MerklePath) : Except InclusionError Unit := do
  require (path.txCount ≤ maxTransactions && path.siblings.length ≤ maxPathLevels) .limitExceeded
  require (path.txCount != 0 && path.index < path.txCount) .invalidPath
  require (path.siblings.length == pathLevels path.txCount) .invalidPath

section
variable (crate : ConsensusCrate)

/-- The loop of `MerklePath::root`. -/
def climbPath : List Bytes32 → ℕ → ℕ → Bytes32 → Except InclusionError Bytes32
  | [], _, _, hash => .ok hash
  | sibling :: siblings, index, width, hash =>
      if index % 2 = 0 then
        if index + 1 = width ∧ sibling ≠ hash then .error .invalidPadding
        else climbPath siblings (index / 2) ((width + 1) / 2) (crate.node hash sibling)
      else climbPath siblings (index / 2) ((width + 1) / 2) (crate.node sibling hash)

/-- `MerklePath::root`. -/
def MerklePath.root (path : MerklePath) (hash : Bytes32) : Except InclusionError Bytes32 := do
  path.check
  climbPath crate path.siblings path.index path.txCount hash

/-! ## Verifying -/

/-- The commitment of a coinbase as `verify` looks it up. -/
def lastCommitment (coinbase : Transaction) : Option Bytes :=
  coinbase.output.reverse.findSome? fun output =>
    if isCommitment output then some (committedHash output) else none

/-- `witness.next()` and the test that there is no more of it. -/
def reservedValue (coinbase : Transaction) : Except InclusionError Bytes :=
  match coinbase.input.head?.map TxIn.witness with
  | some [reserved] =>
      if reserved.length ≠ 32 then .error .invalidReservedValue else .ok reserved
  | _ => .error .invalidReservedValue

/-- `map_err(InclusionError::Decode)`. -/
def decodeFor (crates : DecodeCrates) (raw : Bytes) (chain : Chain) :
    Except InclusionError Transaction :=
  match Decode.transaction crates raw chain with
  | .ok tx => .ok tx
  | .error cause => .error (.decode cause)

/-- The four paths are about one count, one position and the coinbase. -/
def TransactionProof.consistent (proof : TransactionProof) : Bool :=
  proof.coinbasePath.txCount == proof.txidPath.txCount &&
    proof.witnessPath.txCount == proof.txidPath.txCount &&
    proof.coinbaseWitnessPath.txCount == proof.txidPath.txCount &&
    proof.txidPath.index == proof.witnessPath.index &&
    proof.coinbasePath.index == 0 && proof.coinbaseWitnessPath.index == 0

/-- `TransactionProof::verify`. -/
def TransactionProof.verify (crates : DecodeCrates) (proof : TransactionProof) (chain : Chain)
    (expected : Header) : Except InclusionError IncludedTransaction := do
  proof.txidPath.check
  proof.coinbasePath.check
  proof.witnessPath.check
  proof.coinbaseWitnessPath.check
  require proof.consistent .inconsistentPaths
  require (proof.txidPath.index != 0) .coinbaseTarget
  let transaction ← decodeFor crates proof.transaction chain
  let coinbase ← decodeFor crates proof.coinbase chain
  require (!crate.isCoinbase transaction) .coinbaseTarget
  require (crate.isCoinbase coinbase) .invalidCoinbase
  let txRoot ← proof.txidPath.root crate (crate.computeTxid transaction).bytes
  require (txRoot == expected.merkleRoot) .merkleRootMismatch
  let coinbaseRoot ← proof.coinbasePath.root crate (crate.computeTxid coinbase).bytes
  require (coinbaseRoot == expected.merkleRoot) .merkleRootMismatch
  let reserved ← reservedValue coinbase
  let commitment ← okOr (lastCommitment coinbase) .missingWitnessCommitment
  let witnessRoot ← proof.witnessPath.root crate (crate.computeWtxid transaction)
  let coinbaseWitnessRoot ← proof.coinbaseWitnessPath.root crate zeroHash
  require (coinbaseWitnessRoot == witnessRoot) .witnessRootMismatch
  require ((crate.computeWitnessCommitment witnessRoot reserved).toList == commitment)
    .witnessCommitmentMismatch
  .ok { transaction, raw := proof.transaction, blockHash := crate.blockHash expected,
        position := proof.txidPath.index }

/-! ## Building -/

/-- `build_levels`: each level is the hashes of the pairs of the one before it, up to one hash. -/
def levelsFrom : ℕ → List Bytes32 → List (List Bytes32)
  | 0, hashes => [hashes]
  | rounds + 1, hashes =>
      if 1 < hashes.length then hashes :: levelsFrom rounds (Merkle.above crate.node hashes)
      else [hashes]

/-- `build_levels`. Every round halves the last level, so there is one for every hash at most. -/
def buildLevels (hashes : List Bytes32) : List (List Bytes32) :=
  levelsFrom crate hashes.length hashes

/-- `BlockProofBuilder`. -/
structure BlockProofBuilder where
  txidLevels : List (List Bytes32)
  witnessLevels : List (List Bytes32)
  coinbaseTargets : List Bool

/-- `BlockProofBuilder::new`. -/
def BlockProofBuilder.new (block : Block) : Except InclusionError BlockProofBuilder := do
  require (block.txdata.length ≤ maxTransactions) .limitExceeded
  match validateBlockIntegrity crate block (crate.blockHash block.header) with
  | .error cause => .error (.integrity cause)
  | .ok () =>
      .ok { txidLevels := buildLevels crate (crate.txids block)
            witnessLevels := buildLevels crate (crate.wtxids block)
            coinbaseTargets := block.txdata.map crate.isCoinbase }

end

/-- The siblings `path` picks, level by level. -/
def pickSiblings : List (List Bytes32) → ℕ → List Bytes32
  | [], _ => []
  | level :: levels, index =>
      level[index ^^^ 1]?.getD (level.getD index zeroHash) :: pickSiblings levels (index / 2)

/-- `BlockProofBuilder::path`. -/
def BlockProofBuilder.path (builder : BlockProofBuilder) (levels : List (List Bytes32))
    (position : ℕ) : MerklePath where
  index := position
  txCount := builder.coinbaseTargets.length
  siblings := pickSiblings levels.dropLast position

/-- `BlockProofBuilder::proof`. -/
def BlockProofBuilder.proof (builder : BlockProofBuilder) (position : ℕ)
    (rawTransaction rawCoinbase : Bytes) : Except InclusionError TransactionProof := do
  require (position != 0) .coinbaseTarget
  match builder.coinbaseTargets[position]? with
  | none => .error .invalidPath
  | some isCoinbase => do
      require (!isCoinbase) .coinbaseTarget
      .ok { transaction := rawTransaction
            txidPath := builder.path builder.txidLevels position
            coinbase := rawCoinbase
            coinbasePath := builder.path builder.txidLevels 0
            witnessPath := builder.path builder.witnessLevels position
            coinbaseWitnessPath := builder.path builder.witnessLevels 0 }

/-! ## What is verified -/

variable {crate : ConsensusCrate} {crates : DecodeCrates} {chain : Chain}

theorem MerklePath.root_eq_ok {path : MerklePath} {hash root : Bytes32} :
    path.root crate hash = .ok root ↔
      path.check = .ok () ∧ climbPath crate path.siblings path.index path.txCount hash = .ok root := by
  rw [MerklePath.root, Except.bind_eq_ok]
  constructor
  · intro ⟨(), hcheck, hclimb⟩
    exact ⟨hcheck, hclimb⟩
  · intro ⟨hcheck, hclimb⟩
    exact ⟨(), hcheck, hclimb⟩

theorem lastCommitment_eq (coinbase : Transaction) :
    lastCommitment coinbase = (findCommitment coinbase).map committedHash := by
  rw [lastCommitment, findCommitment]
  induction coinbase.output.reverse with
  | nil => rfl
  | cons output outputs ih =>
      rw [List.findSome?_cons, List.find?_cons]
      cases isCommitment output
      · exact ih
      · rfl

theorem decodeFor_eq_ok {raw : Bytes} {tx : Transaction} :
    decodeFor crates raw chain = .ok tx ↔ Decode.transaction crates raw chain = .ok tx := by
  rw [decodeFor]
  cases Decode.transaction crates raw chain <;> simp

theorem reservedValue_eq_ok (hlawful : crate.Lawful) {coinbase : Transaction} {reserved : Bytes}
    (hcoinbase : crate.isCoinbase coinbase = true) :
    reservedValue coinbase = .ok reserved ↔
      (∃ input, coinbase.input = [input] ∧ input.witness = [reserved]) ∧ reserved.length = 32 := by
  obtain ⟨input, hinput, _⟩ := (hlawful.isCoinbase coinbase).mp hcoinbase
  rw [reservedValue, hinput, List.head?_cons, Option.map_some]
  constructor
  · intro h
    split at h
    · next value hwitness =>
        split at h
        · cases h
        · next hlength =>
            cases h
            exact ⟨⟨input, rfl, Option.some.inj hwitness⟩, not_not.mp hlength⟩
    · cases h
  · rintro ⟨⟨other, hother, hwitness⟩, hlength⟩
    cases hother
    rw [hwitness]
    exact if_neg (not_not.mpr hlength)

/-- What a verified proof shows against a header: a transaction and a coinbase, both below the
Merkle root, and a commitment of the coinbase to a root that is above both in the witness tree. -/
structure TransactionProof.Verified (crate : ConsensusCrate) (crates : DecodeCrates)
    (proof : TransactionProof) (chain : Chain) (expected : Header) where
  transaction : Transaction
  coinbase : Transaction
  reserved : Bytes
  witnessRoot : Bytes32
  output : TxOut
  consistent : proof.consistent = true
  index : proof.txidPath.index ≠ 0
  decoded : Decode.transaction crates proof.transaction chain = .ok transaction
  decodedCoinbase : Decode.transaction crates proof.coinbase chain = .ok coinbase
  target : crate.isCoinbase transaction = false
  isCoinbase : crate.isCoinbase coinbase = true
  txidRoot : proof.txidPath.root crate (crate.computeTxid transaction).bytes =
    .ok expected.merkleRoot
  coinbaseRoot : proof.coinbasePath.root crate (crate.computeTxid coinbase).bytes =
    .ok expected.merkleRoot
  inputs : ∃ input, coinbase.input = [input] ∧ input.witness = [reserved]
  reserved_length : reserved.length = 32
  found : findCommitment coinbase = some output
  witnessPathRoot : proof.witnessPath.root crate (crate.computeWtxid transaction) = .ok witnessRoot
  zeroPathRoot : proof.coinbaseWitnessPath.root crate zeroHash = .ok witnessRoot
  committed : committedHash output = (crate.computeWitnessCommitment witnessRoot reserved).toList

/-- What `verify` returns for it. -/
def TransactionProof.Verified.included {proof : TransactionProof} {expected : Header}
    (h : proof.Verified crate crates chain expected) : IncludedTransaction where
  transaction := h.transaction
  raw := proof.transaction
  blockHash := crate.blockHash expected
  position := proof.txidPath.index

/-- **A proof verifies exactly when it shows all that.** -/
theorem verify_eq_ok (hlawful : crate.Lawful) {proof : TransactionProof} {expected : Header}
    {included : IncludedTransaction} :
    proof.verify crate crates chain expected = .ok included ↔
      ∃ h : proof.Verified crate crates chain expected, h.included = included := by
  simp only [TransactionProof.verify, Except.bind_eq_ok, require_eq_ok, decodeFor_eq_ok,
    okOr_eq_ok, bne_iff_ne, Bool.not_eq_true', beq_iff_eq]
  constructor
  · rintro ⟨_, hcheck, _, hcheckCoinbase, _, hcheckWitness, _, hcheckZero, _, hconsistent, _, hindex,
      tx, hdecoded, coinbase, hdecodedCoinbase, _, htarget, _, hcoinbase, txRoot, htxRoot, _, htxEq,
      coinbaseRoot, hcoinbaseRoot, _, hcoinbaseEq, reserved, hreserved, commitment, hcommitment,
      witnessRoot, hwitnessRoot, zeroRoot, hzeroRoot, _, hzeroEq, _, hdigest, hincluded⟩
    obtain ⟨hinputs, hlength⟩ := (reservedValue_eq_ok hlawful hcoinbase).mp hreserved
    subst htxEq hcoinbaseEq hzeroEq
    cases hfound : findCommitment coinbase with
    | none =>
        rw [lastCommitment_eq, hfound] at hcommitment
        cases hcommitment
    | some output =>
        rw [lastCommitment_eq, hfound] at hcommitment
        cases hcommitment
        refine ⟨⟨tx, coinbase, reserved, zeroRoot, output, hconsistent, hindex, hdecoded,
          hdecodedCoinbase, htarget, hcoinbase, htxRoot, hcoinbaseRoot, hinputs, hlength, hfound,
          hwitnessRoot, hzeroRoot, hdigest.symm⟩, ?_⟩
        cases hincluded
        rfl
  · rintro ⟨h, rfl⟩
    have hreserved := (reservedValue_eq_ok hlawful h.isCoinbase).mpr ⟨h.inputs, h.reserved_length⟩
    have hcommitment : lastCommitment h.coinbase = some (committedHash h.output) := by
      rw [lastCommitment_eq, h.found, Option.map_some]
    refine ⟨(), (MerklePath.root_eq_ok.mp h.txidRoot).1, (),
      (MerklePath.root_eq_ok.mp h.coinbaseRoot).1, (), (MerklePath.root_eq_ok.mp h.witnessPathRoot).1,
      (), (MerklePath.root_eq_ok.mp h.zeroPathRoot).1, (), h.consistent, (), h.index,
      h.transaction, h.decoded, h.coinbase, h.decodedCoinbase, (), h.target, (), h.isCoinbase,
      _, h.txidRoot, (), rfl, _, h.coinbaseRoot, (), rfl, h.reserved, hreserved,
      committedHash h.output, hcommitment, h.witnessRoot, h.witnessPathRoot, h.witnessRoot,
      h.zeroPathRoot, (), rfl, (), h.committed.symm, rfl⟩

end Urma.Chain
