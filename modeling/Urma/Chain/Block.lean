import Urma.Core.Bytes
import Urma.Lib.Merkle
import Urma.Lib.Sha256

/-!
# Blocks and transactions

The block and transaction types of the `bitcoin` crate, and what `urma_chain` takes from it: the
hashes, the consensus encoding and the Merkle computations. They are parameters, and
`ConsensusCrate.Lawful` says what the code relies on.
-/

namespace Urma.Chain

open Lib Lib.Layout

/-! ## Data -/

/-- `bitcoin::OutPoint`. -/
structure OutPoint where
  txid : Txid
  vout : UInt32
  deriving DecidableEq

/-- `bitcoin::TxIn`. -/
structure TxIn where
  previousOutput : OutPoint
  scriptSig : Bytes
  sequence : UInt32
  witness : List Bytes
  deriving DecidableEq

/-- `bitcoin::TxOut`. -/
structure TxOut where
  value : UInt64
  scriptPubkey : Bytes
  deriving DecidableEq

/-- `bitcoin::Transaction`. -/
structure Transaction where
  version : UInt32
  lockTime : UInt32
  input : List TxIn
  output : List TxOut
  deriving DecidableEq

/-- `bitcoin::block::Header`. -/
structure Header where
  version : UInt32
  prevBlockhash : Bytes32
  merkleRoot : Bytes32
  time : UInt32
  bits : UInt32
  nonce : UInt32
  deriving DecidableEq

/-- `bitcoin::Block`. -/
structure Block where
  header : Header
  txdata : List Transaction
  deriving DecidableEq

/-- `[0; 32]`. -/
def zeroHash : Bytes32 :=
  Vector.replicate 32 0

/-- `OutPoint::null`. -/
def OutPoint.null : OutPoint :=
  ⟨⟨zeroHash⟩, 0xffffffff⟩

/-! ## Stripped transactions -/

def TxIn.strip (input : TxIn) : TxIn :=
  { input with witness := [] }

/-- The part of a transaction its txid commits to: everything but the witnesses. -/
def Transaction.strip (tx : Transaction) : Transaction :=
  { tx with input := tx.input.map TxIn.strip }

theorem Transaction.output_eq_of_strip {tx other : Transaction} (h : tx.strip = other.strip) :
    tx.output = other.output := by
  rw [Transaction.strip, Transaction.strip, Transaction.mk.injEq] at h
  exact h.2.2.2

theorem Transaction.input_eq_of_strip {tx other : Transaction} (h : tx.strip = other.strip) :
    tx.input.map TxIn.strip = other.input.map TxIn.strip := by
  rw [Transaction.strip, Transaction.strip, Transaction.mk.injEq] at h
  exact h.2.2.1

theorem TxIn.eq_of_strip {input other : TxIn} (h : input.strip = other.strip)
    (hwitness : input.witness = other.witness) : input = other := by
  cases input
  cases other
  rw [TxIn.strip, TxIn.strip, TxIn.mk.injEq] at h
  obtain ⟨rfl, rfl, rfl, _⟩ := h
  cases hwitness
  rfl

/-- Two lists of inputs that agree up to the witnesses, and in the witnesses, are the same. -/
theorem inputs_eq_of_strip : ∀ {inputs others : List TxIn},
    inputs.map TxIn.strip = others.map TxIn.strip →
      inputs.map TxIn.witness = others.map TxIn.witness → inputs = others
  | [], [], _, _ => rfl
  | input :: inputs, other :: others, h, hwitness => by
      rw [List.map_cons, List.map_cons, List.cons.injEq] at h hwitness
      rw [TxIn.eq_of_strip h.1 hwitness.1, inputs_eq_of_strip h.2 hwitness.2]

theorem Transaction.eq_of_strip {tx other : Transaction} (h : tx.strip = other.strip)
    (hwitness : tx.input.map TxIn.witness = other.input.map TxIn.witness) : tx = other := by
  have hinput := inputs_eq_of_strip (Transaction.input_eq_of_strip h) hwitness
  rw [Transaction.strip, Transaction.strip, Transaction.mk.injEq] at h
  cases tx
  cases other
  rw [Transaction.mk.injEq]
  exact ⟨h.1, h.2.1, hinput, h.2.2.2⟩

/-! ## The crate -/

/-- What `urma_chain` takes from the `bitcoin` crate. -/
structure ConsensusCrate where
  /-- `sha256d::Hash::hash`. -/
  sha256d : Bytes → Bytes32
  /-- `consensus::serialize` of a transaction. -/
  serialize : Transaction → Bytes
  /-- The encoding of a transaction without marker, flag and witnesses. -/
  serializeBase : Transaction → Bytes
  /-- `Block::block_hash` and `Header::block_hash`. -/
  blockHash : Header → Bytes32
  /-- `Transaction::compute_txid`. -/
  computeTxid : Transaction → Txid
  /-- `Transaction::compute_wtxid`. -/
  computeWtxid : Transaction → Bytes32
  /-- `Transaction::is_coinbase`. -/
  isCoinbase : Transaction → Bool
  /-- `Block::check_merkle_root`. -/
  checkMerkleRoot : Block → Bool
  /-- `Block::witness_root`. -/
  witnessRoot : Block → Option Bytes32
  /-- `Block::compute_witness_commitment`. -/
  computeWitnessCommitment : Bytes32 → Bytes → Bytes32

/-- What two hashes below a node are hashed as. -/
def nodeBytes (left right : Bytes32) : Bytes :=
  left.toList ++ right.toList

theorem nodeBytes_inj {left right left' right' : Bytes32}
    (h : nodeBytes left right = nodeBytes left' right') : left = left' ∧ right = right' := by
  obtain ⟨hleft, hright⟩ := List.append_inj h (by rw [Vector.length_toList, Vector.length_toList])
  exact ⟨Vector.toList_inj.mp hleft, Vector.toList_inj.mp hright⟩

/-- The hash above two hashes. -/
def ConsensusCrate.node (crate : ConsensusCrate) (left right : Bytes32) : Bytes32 :=
  crate.sha256d (nodeBytes left right)

/-- The transaction ids of a block, as bytes. -/
def ConsensusCrate.txids (crate : ConsensusCrate) (block : Block) : List Bytes32 :=
  block.txdata.map fun tx => (crate.computeTxid tx).bytes

/-- The witness ids of a block; that of the coinbase is zero. -/
def ConsensusCrate.wtxids (crate : ConsensusCrate) (block : Block) : List Bytes32 :=
  block.txdata.mapIdx fun index tx => if index = 0 then zeroHash else crate.computeWtxid tx

/-- What the code relies on. A txid is the hash of the transaction without its witnesses, a
witness id that of the whole transaction, a coinbase has one input, which spends nothing, and
both roots are those of the tree that pairs the last hash of an odd level with itself. -/
structure ConsensusCrate.Lawful (crate : ConsensusCrate) : Prop where
  computeTxid : ∀ tx, (crate.computeTxid tx).bytes = crate.sha256d (crate.serializeBase tx)
  computeWtxid : ∀ tx, crate.computeWtxid tx = crate.sha256d (crate.serialize tx)
  isCoinbase : ∀ tx, crate.isCoinbase tx = true ↔
    ∃ input, tx.input = [input] ∧ input.previousOutput = OutPoint.null
  checkMerkleRoot : ∀ block, crate.checkMerkleRoot block = true ↔
    Merkle.root crate.node (crate.txids block) = some block.header.merkleRoot
  witnessRoot : ∀ block, crate.witnessRoot block = Merkle.root crate.node (crate.wtxids block)
  computeWitnessCommitment : ∀ (root : Bytes32) (reserved : Bytes),
    crate.computeWitnessCommitment root reserved = crate.sha256d (root.toList ++ reserved)

/-! ## The standard encoding -/

namespace Standard

/-- `VarInt`. -/
def compactSize (n : ℕ) : Bytes :=
  if n < 0xfd then [UInt8.ofNat n]
  else if n ≤ 0xffff then 0xfd :: toLe 2 n
  else if n ≤ 0xffffffff then 0xfe :: toLe 4 n
  else 0xff :: toLe 8 n

/-- Bytes after their length. -/
def lengthed (bytes : Bytes) : Bytes :=
  compactSize bytes.length ++ bytes

/-- Encoded items after their number. -/
def counted {α : Type} (encode : α → Bytes) (items : List α) : Bytes :=
  compactSize items.length ++ items.flatMap encode

def input (input : TxIn) : Bytes :=
  input.previousOutput.txid.bytes.toList ++ toLe 4 input.previousOutput.vout.toNat ++
    lengthed input.scriptSig ++ toLe 4 input.sequence.toNat

def output (output : TxOut) : Bytes :=
  toLe 8 output.value.toNat ++ lengthed output.scriptPubkey

/-- Inputs and outputs. -/
def body (tx : Transaction) : Bytes :=
  counted input tx.input ++ counted output tx.output

def serializeBase (tx : Transaction) : Bytes :=
  toLe 4 tx.version.toNat ++ body tx ++ toLe 4 tx.lockTime.toNat

/-- Marker, flag and witnesses are written when there is a witness, and when there is no input. -/
def serialize (tx : Transaction) : Bytes :=
  if tx.input.isEmpty || tx.input.any (fun input => !input.witness.isEmpty) then
    toLe 4 tx.version.toNat ++ [0, 1] ++ body tx ++
      tx.input.flatMap (fun input => counted lengthed input.witness) ++
        toLe 4 tx.lockTime.toNat
  else serializeBase tx

def serializeHeader (header : Header) : Bytes :=
  toLe 4 header.version.toNat ++ header.prevBlockhash.toList ++ header.merkleRoot.toList ++
    toLe 4 header.time.toNat ++ toLe 4 header.bits.toNat ++ toLe 4 header.nonce.toNat

def sha256d (bytes : Bytes) : Bytes32 :=
  Sha256.hash (Sha256.hash bytes).toList

def node (left right : Bytes32) : Bytes32 :=
  sha256d (nodeBytes left right)

def isCoinbase (tx : Transaction) : Bool :=
  match tx.input with
  | [input] => input.previousOutput == OutPoint.null
  | _ => false

end Standard

/-- The crate with the standard encoding and hash. -/
def ConsensusCrate.standard : ConsensusCrate where
  sha256d := Standard.sha256d
  serialize := Standard.serialize
  serializeBase := Standard.serializeBase
  blockHash header := Standard.sha256d (Standard.serializeHeader header)
  computeTxid tx := ⟨Standard.sha256d (Standard.serializeBase tx)⟩
  computeWtxid tx := Standard.sha256d (Standard.serialize tx)
  isCoinbase := Standard.isCoinbase
  checkMerkleRoot block :=
    Merkle.root Standard.node
      (block.txdata.map fun tx => Standard.sha256d (Standard.serializeBase tx)) ==
        some block.header.merkleRoot
  witnessRoot block :=
    Merkle.root Standard.node (block.txdata.mapIdx fun index tx =>
      if index = 0 then zeroHash else Standard.sha256d (Standard.serialize tx))
  computeWitnessCommitment root reserved := Standard.sha256d (root.toList ++ reserved)

theorem ConsensusCrate.standard_lawful : ConsensusCrate.standard.Lawful where
  computeTxid _ := rfl
  computeWtxid _ := rfl
  isCoinbase tx := by
    show Standard.isCoinbase tx = true ↔ _
    rw [Standard.isCoinbase]
    split
    · next input hinput =>
        rw [hinput, beq_iff_eq]
        constructor
        · intro hnull
          exact ⟨input, rfl, hnull⟩
        · rintro ⟨other, hother, hnull⟩
          cases hother
          exact hnull
    · next hmany =>
        constructor
        · intro h
          cases h
        · rintro ⟨input, hinput, _⟩
          exact absurd hinput (hmany input)
  checkMerkleRoot _ := beq_iff_eq
  witnessRoot _ := rfl
  computeWitnessCommitment _ _ := rfl

/-! ## Ids of a block -/

variable {crate : ConsensusCrate} {block : Block} {tx other : Transaction}

@[simp] theorem txids_length : (crate.txids block).length = block.txdata.length := by
  rw [ConsensusCrate.txids, List.length_map]

@[simp] theorem wtxids_length : (crate.wtxids block).length = block.txdata.length := by
  rw [ConsensusCrate.wtxids, List.length_mapIdx]

theorem txids_getElem? (i : ℕ) :
    (crate.txids block)[i]? = block.txdata[i]?.map fun tx => (crate.computeTxid tx).bytes := by
  rw [ConsensusCrate.txids, List.getElem?_map]

theorem wtxids_getElem? {i : ℕ} (h : i ≠ 0) :
    (crate.wtxids block)[i]? = block.txdata[i]?.map crate.computeWtxid := by
  rw [ConsensusCrate.wtxids, List.getElem?_mapIdx]
  congr 1
  funext tx
  rw [if_neg h]

theorem wtxids_zero (h : block.txdata ≠ []) : (crate.wtxids block)[0]? = some zeroHash := by
  obtain ⟨tx, rest, hcons⟩ := List.exists_cons_of_ne_nil h
  rw [ConsensusCrate.wtxids, hcons, List.getElem?_mapIdx]
  rfl

/-- Whether a transaction is a coinbase does not depend on its witnesses. -/
theorem isCoinbase_of_strip (hlawful : crate.Lawful) (h : tx.strip = other.strip)
    (hcoinbase : crate.isCoinbase tx = true) : crate.isCoinbase other = true := by
  obtain ⟨input, hinput, hnull⟩ := (hlawful.isCoinbase tx).mp hcoinbase
  have hinputs := Transaction.input_eq_of_strip h
  rw [hinput, List.map_singleton] at hinputs
  obtain ⟨input', hinput', hstrip⟩ := List.map_eq_singleton_iff.mp hinputs.symm
  rw [TxIn.strip, TxIn.strip, TxIn.mk.injEq] at hstrip
  exact (hlawful.isCoinbase other).mpr ⟨input', hinput', hstrip.1.trans hnull⟩

/-! ## Keeping hashes apart -/

/-- Double SHA-256 does not collide on the listed preimages. -/
def ConsensusCrate.CollisionFree (crate : ConsensusCrate) (preimages : List Bytes) : Prop :=
  ∀ x ∈ preimages, ∀ y ∈ preimages, crate.sha256d x = crate.sha256d y → x = y

/-- The encodings keep the listed transactions apart, the one without witnesses up to these. -/
def ConsensusCrate.EncodesApart (crate : ConsensusCrate) (txs : List Transaction) : Prop :=
  ∀ tx ∈ txs, ∀ other ∈ txs,
    (crate.serialize tx = crate.serialize other → tx = other) ∧
      (crate.serializeBase tx = crate.serializeBase other → tx.strip = other.strip)

/-- What is hashed for the ids of the listed transactions. -/
def ConsensusCrate.encodings (crate : ConsensusCrate) (txs : List Transaction) : List Bytes :=
  txs.map crate.serialize ++ txs.map crate.serializeBase

/-- What is hashed for the listed nodes. -/
def nodePreimages (pairs : List (Bytes32 × Bytes32)) : List Bytes :=
  pairs.map fun pair => nodeBytes pair.1 pair.2

theorem ConsensusCrate.CollisionFree.mono {preimages fewer : List Bytes}
    (h : crate.CollisionFree preimages) (hfewer : ∀ x ∈ fewer, x ∈ preimages) :
    crate.CollisionFree fewer :=
  fun x hx y hy => h x (hfewer x hx) y (hfewer y hy)

/-- Nodes whose preimages do not collide are kept apart. -/
theorem ConsensusCrate.CollisionFree.apart {pairs : List (Bytes32 × Bytes32)}
    (h : crate.CollisionFree (nodePreimages pairs)) : Merkle.Apart crate.node pairs := by
  intro pair hpair pair' hpair' hnode
  have heq := nodeBytes_inj (h _ (List.mem_map_of_mem hpair) _ (List.mem_map_of_mem hpair') hnode)
  exact Prod.ext heq.1 heq.2

/-- Transactions with one txid agree up to their witnesses. -/
theorem strip_eq_of_computeTxid (hlawful : crate.Lawful) {txs : List Transaction}
    (hfree : crate.CollisionFree (crate.encodings txs)) (hencodes : crate.EncodesApart txs)
    (htx : tx ∈ txs) (hother : other ∈ txs)
    (h : (crate.computeTxid tx).bytes = (crate.computeTxid other).bytes) :
    tx.strip = other.strip := by
  rw [hlawful.computeTxid, hlawful.computeTxid] at h
  apply (hencodes tx htx other hother).2
  exact hfree _ (List.mem_append_right _ (List.mem_map_of_mem htx)) _
    (List.mem_append_right _ (List.mem_map_of_mem hother)) h

/-- Transactions with one witness id are the same. -/
theorem eq_of_computeWtxid (hlawful : crate.Lawful) {txs : List Transaction}
    (hfree : crate.CollisionFree (crate.encodings txs)) (hencodes : crate.EncodesApart txs)
    (htx : tx ∈ txs) (hother : other ∈ txs)
    (h : crate.computeWtxid tx = crate.computeWtxid other) : tx = other := by
  rw [hlawful.computeWtxid, hlawful.computeWtxid] at h
  apply (hencodes tx htx other hother).1
  exact hfree _ (List.mem_append_left _ (List.mem_map_of_mem htx)) _
    (List.mem_append_left _ (List.mem_map_of_mem hother)) h

end Urma.Chain
