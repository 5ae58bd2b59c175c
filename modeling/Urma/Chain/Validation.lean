import Mathlib.Data.List.Dedup
import Urma.Chain.Block

/-!
# Block integrity

`urma_chain::validation::validate_block_integrity`: the hash, the Merkle root and the witness
commitment of a block. The root of a list with an odd level is also the root of the list that
writes the padding out, so the check ties a block to its header only once the number of its
transactions is known.
-/

namespace Urma.Chain

open Lib Lib.Layout

/-- `BlockValidationError`, as far as the integrity check produces it. -/
inductive BlockValidationError where
  | hashMismatch
  | merkleRootMismatch
  | witnessCommitmentMismatch
  deriving DecidableEq, Repr

/-! ## The check -/

/-- What the script of a commitment output starts with. -/
def commitmentMagic : Bytes := [0x6a, 0x24, 0xaa, 0x21, 0xa9, 0xed]

/-- A commitment output has the magic and a hash after it; more may follow. -/
def isCommitment (output : TxOut) : Bool :=
  38 ≤ output.scriptPubkey.length && commitmentMagic.isPrefixOf output.scriptPubkey

/-- The commitment output of a coinbase: the last one there is. -/
def findCommitment (coinbase : Transaction) : Option TxOut :=
  coinbase.output.reverse.find? isCommitment

/-- The hash in a commitment output. -/
def committedHash (output : TxOut) : Bytes :=
  slice output.scriptPubkey 6 38

variable (crate : ConsensusCrate)

/-- `check_witness_commitment`. -/
def checkWitnessCommitment (block : Block) : Bool :=
  match block.txdata with
  | [] => false
  | coinbase :: _ =>
      match findCommitment coinbase with
      | some output =>
          if !crate.isCoinbase coinbase then false
          else
            match coinbase.input.head?.map TxIn.witness with
            | some [reserved] =>
                if reserved.length ≠ 32 then false
                else
                  match crate.witnessRoot block with
                  | none => false
                  | some root =>
                      committedHash output == (crate.computeWitnessCommitment root reserved).toList
            | _ => false
      | none => block.txdata.all fun tx => tx.input.all fun input => input.witness.isEmpty

/-- `validate_block_integrity`. -/
def validateBlockIntegrity (block : Block) (expectedHash : Bytes32) :
    Except BlockValidationError Unit :=
  if crate.blockHash block.header ≠ expectedHash then .error .hashMismatch
  else if !crate.checkMerkleRoot block then .error .merkleRootMismatch
  else if !checkWitnessCommitment crate block then .error .witnessCommitmentMismatch
  else .ok ()

variable {crate} {block a b : Block} {expected : Bytes32}

/-! ## What an accepted block has -/

theorem validateBlockIntegrity_eq_ok :
    validateBlockIntegrity crate block expected = .ok () ↔
      crate.blockHash block.header = expected ∧ crate.checkMerkleRoot block = true ∧
        checkWitnessCommitment crate block = true := by
  rw [validateBlockIntegrity]
  by_cases hhash : crate.blockHash block.header = expected
  · cases crate.checkMerkleRoot block <;> cases checkWitnessCommitment crate block <;> simp [hhash]
  · simp [hhash]

/-- The commitment a block carries. -/
def Block.commitment (block : Block) : Option TxOut :=
  block.txdata.head? >>= findCommitment

/-- A block whose commitment was checked: a coinbase with one input, whose witness is the
reserved value the committed hash is made with. -/
structure Committed (crate : ConsensusCrate) (block : Block) (output : TxOut) where
  coinbase : Transaction
  rest : List Transaction
  input : TxIn
  reserved : Bytes
  root : Bytes32
  txdata : block.txdata = coinbase :: rest
  isCoinbase : crate.isCoinbase coinbase = true
  found : findCommitment coinbase = some output
  inputs : coinbase.input = [input]
  witness : input.witness = [reserved]
  reserved_length : reserved.length = 32
  witnessRoot : crate.witnessRoot block = some root
  committed : committedHash output = (crate.computeWitnessCommitment root reserved).toList

theorem exists_txdata (hlawful : crate.Lawful) (h : crate.checkMerkleRoot block = true) :
    block.txdata ≠ [] := by
  intro hnil
  rw [hlawful.checkMerkleRoot, ConsensusCrate.txids, hnil] at h
  cases h

/-- An accepted commitment is one that was checked. -/
theorem committed_of_check (hlawful : crate.Lawful) {output : TxOut}
    (hcheck : checkWitnessCommitment crate block = true)
    (hcommitment : block.commitment = some output) : Nonempty (Committed crate block output) := by
  rw [checkWitnessCommitment] at hcheck
  rw [Block.commitment] at hcommitment
  split at hcheck
  · cases hcheck
  · next coinbase rest htxdata =>
      rw [htxdata] at hcommitment
      have hfound : findCommitment coinbase = some output := hcommitment
      rw [hfound] at hcheck
      dsimp only at hcheck
      split at hcheck
      · cases hcheck
      · next hcoinbase =>
          have hcoinbase : crate.isCoinbase coinbase = true := by
            cases h : crate.isCoinbase coinbase
            · exact absurd (by rw [h]; rfl) hcoinbase
            · rfl
          obtain ⟨input, hinput, _⟩ := (hlawful.isCoinbase coinbase).mp hcoinbase
          rw [hinput] at hcheck
          split at hcheck
          · next reserved hwitness =>
              split at hcheck
              · cases hcheck
              · next hlength =>
                  split at hcheck
                  · cases hcheck
                  · next root hroot =>
                      exact ⟨⟨coinbase, rest, input, reserved, root, htxdata, hcoinbase, hfound,
                        hinput, Option.some.inj hwitness, not_not.mp hlength, hroot,
                        eq_of_beq hcheck⟩⟩
          · cases hcheck

theorem Committed.check {output : TxOut} (h : Committed crate block output) :
    checkWitnessCommitment crate block = true := by
  rw [checkWitnessCommitment, h.txdata]
  dsimp only
  rw [h.found]
  dsimp only
  rw [h.isCoinbase, h.inputs, List.head?_cons, Option.map_some, h.witness]
  dsimp only
  rw [h.witnessRoot, h.committed]
  simp [h.reserved_length]

/-- The leaf ids of an accepted block hash to its header. -/
theorem root_txids (hlawful : crate.Lawful)
    (h : validateBlockIntegrity crate block expected = .ok ()) :
    Merkle.root crate.node (crate.txids block) = some block.header.merkleRoot :=
  (hlawful.checkMerkleRoot block).mp (validateBlockIntegrity_eq_ok.mp h).2.1

/-! ## What is hashed -/

/-- The nodes of the tree of a block, and with a commitment those of its witness tree. -/
def ConsensusCrate.nodes (crate : ConsensusCrate) (block : Block) : List (Bytes32 × Bytes32) :=
  Merkle.combined crate.node (crate.txids block) (Merkle.depth block.txdata.length) ++
    if block.commitment.isSome then
      Merkle.combined crate.node (crate.wtxids block) (Merkle.depth block.txdata.length)
    else []

/-- What a commitment over the reserved value of the coinbase hashes. -/
def ConsensusCrate.commitmentPreimages (crate : ConsensusCrate) (block : Block) : List Bytes :=
  block.txdata.head?.toList.flatMap fun coinbase =>
    coinbase.input.flatMap fun input =>
      input.witness.flatMap fun reserved =>
        (crate.witnessRoot block).toList.map fun root => root.toList ++ reserved

/-- Everything that is hashed to check a block. -/
def ConsensusCrate.preimages (crate : ConsensusCrate) (block : Block) : List Bytes :=
  crate.encodings block.txdata ++ (nodePreimages (crate.nodes block) ++
    crate.commitmentPreimages block)

theorem Committed.mem_commitmentPreimages {output : TxOut} (h : Committed crate block output) :
    h.root.toList ++ h.reserved ∈ crate.commitmentPreimages block := by
  rw [ConsensusCrate.commitmentPreimages, h.txdata, h.witnessRoot]
  simp only [List.head?_cons, Option.toList_some, List.flatMap_singleton, List.map_singleton,
    h.inputs, h.witness]
  exact List.mem_singleton.mpr rfl

theorem Committed.commitment {output : TxOut} (h : Committed crate block output) :
    block.commitment = some output := by
  rw [Block.commitment, h.txdata]
  exact h.found

/-! ## Binding -/

section
variable (hfree : crate.CollisionFree (crate.preimages a ++ crate.preimages b))
include hfree

theorem encodings_free : crate.CollisionFree (crate.encodings (a.txdata ++ b.txdata)) := by
  apply hfree.mono
  intro x hx
  rw [ConsensusCrate.encodings, List.map_append, List.map_append] at hx
  simp only [ConsensusCrate.preimages, ConsensusCrate.encodings, List.mem_append] at hx ⊢
  tauto

theorem nodes_apart : Merkle.Apart crate.node (crate.nodes a ++ crate.nodes b) := by
  apply ConsensusCrate.CollisionFree.apart
  apply hfree.mono
  intro x hx
  rw [nodePreimages, List.map_append] at hx
  simp only [ConsensusCrate.preimages, nodePreimages, List.mem_append] at hx ⊢
  tauto

/-- Two blocks of one length with one Merkle root have the same txids. -/
theorem txids_eq (hlength : a.txdata.length = b.txdata.length)
    (hroot : Merkle.root crate.node (crate.txids a) = Merkle.root crate.node (crate.txids b)) :
    crate.txids a = crate.txids b := by
  apply Merkle.eq_of_root_eq rfl _ (by rw [txids_length, txids_length, hlength]) hroot
  apply (nodes_apart hfree).mono
  intro pair hpair
  rw [txids_length] at hpair
  simp only [ConsensusCrate.nodes, List.mem_append, ← hlength] at hpair ⊢
  tauto

/-- Two blocks of one length with one witness root have the same witness ids. -/
theorem wtxids_eq (hlength : a.txdata.length = b.txdata.length)
    (hroot : crate.witnessRoot a = crate.witnessRoot b) (hlawful : crate.Lawful)
    (ha : a.commitment.isSome) (hb : b.commitment.isSome) :
    crate.wtxids a = crate.wtxids b := by
  rw [hlawful.witnessRoot, hlawful.witnessRoot] at hroot
  apply Merkle.eq_of_root_eq rfl _ (by rw [wtxids_length, wtxids_length, hlength]) hroot
  apply (nodes_apart hfree).mono
  intro pair hpair
  rw [wtxids_length] at hpair
  simp only [ConsensusCrate.nodes, List.mem_append, ← hlength, if_pos ha, if_pos hb] at hpair ⊢
  tauto

/-- Two checked commitments with one hash are over the same root and the same reserved value. -/
theorem committed_inj {output other : TxOut} (ha : Committed crate a output)
    (hb : Committed crate b other) (hlawful : crate.Lawful)
    (hhash : committedHash output = committedHash other) :
    ha.root = hb.root ∧ ha.reserved = hb.reserved := by
  have hdigest := Vector.toList_inj.mp (ha.committed.symm.trans (hhash.trans hb.committed))
  rw [hlawful.computeWitnessCommitment, hlawful.computeWitnessCommitment] at hdigest
  have hmem : ∀ x ∈ crate.commitmentPreimages a ++ crate.commitmentPreimages b,
      x ∈ crate.preimages a ++ crate.preimages b := by
    intro x hx
    simp only [ConsensusCrate.preimages, List.mem_append] at hx ⊢
    tauto
  have hbytes := hfree _ (hmem _ (List.mem_append_left _ ha.mem_commitmentPreimages)) _
    (hmem _ (List.mem_append_right _ hb.mem_commitmentPreimages)) hdigest
  obtain ⟨hroot, hreserved⟩ := List.append_inj hbytes
    (by rw [Vector.length_toList, Vector.length_toList])
  exact ⟨Vector.toList_inj.mp hroot, hreserved⟩

end

/-- Where two blocks have the same txids, their transactions agree up to the witnesses. -/
theorem strip_eq_at (hlawful : crate.Lawful)
    (hfree : crate.CollisionFree (crate.encodings (a.txdata ++ b.txdata)))
    (hencodes : crate.EncodesApart (a.txdata ++ b.txdata)) {tx other : Transaction}
    (htxids : crate.txids a = crate.txids b) {i : ℕ} (ha : a.txdata[i]? = some tx)
    (hb : b.txdata[i]? = some other) : tx.strip = other.strip := by
  have hi := congrArg (fun ids => ids[i]?) htxids
  simp only [txids_getElem?, ha, hb, Option.map_some, Option.some.injEq] at hi
  exact strip_eq_of_computeTxid hlawful hfree hencodes
    (List.mem_append_left _ (List.mem_of_getElem? ha))
    (List.mem_append_right _ (List.mem_of_getElem? hb)) hi

/-- The commitment of a block is in its txids. -/
theorem commitment_eq (hlawful : crate.Lawful)
    (hfree : crate.CollisionFree (crate.encodings (a.txdata ++ b.txdata)))
    (hencodes : crate.EncodesApart (a.txdata ++ b.txdata))
    (htxids : crate.txids a = crate.txids b) : a.commitment = b.commitment := by
  have hlength : a.txdata.length = b.txdata.length := by
    rw [← @txids_length crate a, ← @txids_length crate b, htxids]
  rw [Block.commitment, Block.commitment, List.head?_eq_getElem?, List.head?_eq_getElem?]
  cases ha : a.txdata[0]? with
  | none =>
      rw [List.getElem?_eq_none (by rw [← hlength]; exact List.getElem?_eq_none_iff.mp ha)]
  | some coinbase =>
      have hlt := hlength ▸ (List.getElem?_eq_some_iff.mp ha).1
      have hb := List.getElem?_eq_getElem hlt
      have hstrip := strip_eq_at hlawful hfree hencodes htxids ha hb
      rw [hb]
      show findCommitment coinbase = findCommitment _
      rw [findCommitment, findCommitment, Transaction.output_eq_of_strip hstrip]

/-- Two blocks with the same txids and the same commitment have the same transactions. -/
theorem txdata_eq (hlawful : crate.Lawful)
    (hfree : crate.CollisionFree (crate.preimages a ++ crate.preimages b))
    (hencodes : crate.EncodesApart (a.txdata ++ b.txdata)) {output : TxOut}
    (ha : Committed crate a output) (hb : Committed crate b output)
    (htxids : crate.txids a = crate.txids b) : a.txdata = b.txdata := by
  have hencodings := encodings_free hfree
  have hlength : a.txdata.length = b.txdata.length := by
    rw [← @txids_length crate a, ← @txids_length crate b, htxids]
  obtain ⟨hroot, hreserved⟩ := committed_inj hfree ha hb hlawful rfl
  have hwtxids := wtxids_eq hfree hlength
    (by rw [ha.witnessRoot, hb.witnessRoot, hroot]) hlawful
    (by rw [ha.commitment]; rfl) (by rw [hb.commitment]; rfl)
  have hcoinbase : a.txdata[0]? = some ha.coinbase := by rw [ha.txdata]; rfl
  have hother : b.txdata[0]? = some hb.coinbase := by rw [hb.txdata]; rfl
  apply List.ext_getElem hlength
  intro i hia hib
  have hgeta := List.getElem?_eq_getElem hia
  have hgetb := List.getElem?_eq_getElem hib
  by_cases hzero : i = 0
  · -- the coinbase is not in the witness tree; its one witness is the reserved value
    subst hzero
    have hstrip := strip_eq_at hlawful hencodings hencodes htxids hcoinbase hother
    have heq : ha.coinbase = hb.coinbase := by
      apply Transaction.eq_of_strip hstrip
      rw [ha.inputs, hb.inputs, List.map_singleton, List.map_singleton, ha.witness, hb.witness,
        hreserved]
    have hboth := (hgeta.symm.trans hcoinbase).trans ((congrArg some heq).trans hother.symm)
    exact Option.some.inj (hboth.trans hgetb)
  · have hi := congrArg (fun ids => ids[i]?) hwtxids
    simp only [wtxids_getElem? hzero, hgeta, hgetb, Option.map_some, Option.some.injEq] at hi
    exact eq_of_computeWtxid hlawful hencodings hencodes
      (List.mem_append_left _ (List.getElem_mem hia))
      (List.mem_append_right _ (List.getElem_mem hib)) hi

/-- **The check binds the transactions up to their number**: two accepted blocks with one header
have the same txids, and with a commitment the same transactions, exactly when they have as many
transactions. -/
theorem integrity_binds_iff (hlawful : crate.Lawful)
    (hfree : crate.CollisionFree (crate.preimages a ++ crate.preimages b))
    (hencodes : crate.EncodesApart (a.txdata ++ b.txdata)) (hheader : a.header = b.header)
    (ha : validateBlockIntegrity crate a expected = .ok ())
    (hb : validateBlockIntegrity crate b expected = .ok ()) :
    (crate.txids a = crate.txids b ∧
      ((a.commitment.isSome ∨ b.commitment.isSome) → a.txdata = b.txdata)) ↔
        a.txdata.length = b.txdata.length := by
  constructor
  · intro h
    rw [← @txids_length crate a, ← @txids_length crate b, h.1]
  · intro hlength
    have htxids := txids_eq hfree hlength
      (by rw [root_txids hlawful ha, root_txids hlawful hb, hheader])
    have hcommitment := commitment_eq hlawful (encodings_free hfree) hencodes htxids
    refine ⟨htxids, fun hsome => ?_⟩
    rw [← hcommitment, or_self] at hsome
    obtain ⟨output, houtput⟩ := Option.isSome_iff_exists.mp hsome
    obtain ⟨hcommitteda⟩ :=
      committed_of_check hlawful (validateBlockIntegrity_eq_ok.mp ha).2.2 houtput
    obtain ⟨hcommittedb⟩ := committed_of_check hlawful (validateBlockIntegrity_eq_ok.mp hb).2.2
      (hcommitment ▸ houtput)
    exact txdata_eq hlawful hfree hencodes hcommitteda hcommittedb htxids

/-! ## A mutated tail -/

/-- A computed check of collision freedom: the hashes of the distinct preimages are distinct. -/
theorem collisionFree_of_nodup {preimages : List Bytes}
    (h : (preimages.dedup.map crate.sha256d).Nodup) : crate.CollisionFree preimages :=
  fun _ hx _ hy hhash =>
    List.inj_on_of_nodup_map h (List.mem_dedup.mpr hx) (List.mem_dedup.mpr hy) hhash

namespace Sample

/-- A transaction of one input. -/
def txOf (spent : OutPoint) : Transaction where
  version := 2
  lockTime := 0
  input := [⟨spent, [], 0xffffffff, []⟩]
  output := []

/-- A coinbase and two payments. -/
def txs : List Transaction :=
  [txOf OutPoint.null, txOf ⟨⟨Vector.replicate 32 1⟩, 0⟩, txOf ⟨⟨Vector.replicate 32 2⟩, 0⟩]

def ids : List Bytes32 :=
  txs.map fun tx => Standard.sha256d (Standard.serializeBase tx)

def header : Header where
  version := 2
  prevBlockhash := zeroHash
  merkleRoot := (Merkle.root Standard.node ids).getD zeroHash
  time := 0
  bits := 0
  nonce := 0

def original : Block :=
  ⟨header, txs⟩

/-- The same block with its last payment twice. -/
def mutated : Block :=
  ⟨header, txs ++ txs.drop 2⟩

theorem root_ids : Merkle.root Standard.node ids = some header.merkleRoot := by
  obtain ⟨root, hroot⟩ := @Merkle.exists_root _ Standard.node ids (List.cons_ne_nil _ _)
  rw [header, hroot]
  rfl

/-- The root of the mutated list is the same: its last pair is the padding of the other. -/
theorem root_mutated : Merkle.root Standard.node (ids ++ ids.drop 2) = some header.merkleRoot := by
  rw [← root_ids]
  exact (Merkle.root_pad (rfl : (ids.take 2).length % 2 = 0) (List.cons_ne_nil _ _)).symm

theorem accepted : validateBlockIntegrity ConsensusCrate.standard original
    (ConsensusCrate.standard.blockHash header) = .ok () :=
  validateBlockIntegrity_eq_ok.mpr
    ⟨rfl, (ConsensusCrate.standard_lawful.checkMerkleRoot original).mpr root_ids, rfl⟩

theorem accepted_mutated : validateBlockIntegrity ConsensusCrate.standard mutated
    (ConsensusCrate.standard.blockHash header) = .ok () :=
  validateBlockIntegrity_eq_ok.mpr
    ⟨rfl, (ConsensusCrate.standard_lawful.checkMerkleRoot mutated).mpr root_mutated, rfl⟩

theorem collisionFree : ConsensusCrate.standard.CollisionFree
    (ConsensusCrate.standard.preimages original ++ ConsensusCrate.standard.preimages mutated) := by
  apply collisionFree_of_nodup
  decide +kernel

theorem encodesApart :
    ConsensusCrate.standard.EncodesApart (original.txdata ++ mutated.txdata) := by
  unfold ConsensusCrate.EncodesApart
  decide +kernel

end Sample

/-- Equal headers do not mean equal transactions: an accepted block and one with its last
transaction repeated. -/
theorem not_integrity_binds :
    ¬ ∀ (a b : Block) (expected : Bytes32),
      ConsensusCrate.standard.CollisionFree
          (ConsensusCrate.standard.preimages a ++ ConsensusCrate.standard.preimages b) →
        ConsensusCrate.standard.EncodesApart (a.txdata ++ b.txdata) → a.header = b.header →
          validateBlockIntegrity ConsensusCrate.standard a expected = .ok () →
            validateBlockIntegrity ConsensusCrate.standard b expected = .ok () →
              ConsensusCrate.standard.txids a = ConsensusCrate.standard.txids b := by
  intro h
  have htxids := h Sample.original Sample.mutated _ Sample.collisionFree Sample.encodesApart rfl
    Sample.accepted Sample.accepted_mutated
  have hlength := congrArg List.length htxids
  rw [txids_length, txids_length] at hlength
  exact absurd hlength (by decide)

theorem integrity_binds_iff_sample :
    (ConsensusCrate.standard.txids Sample.original = ConsensusCrate.standard.txids Sample.mutated ∧
      ((Sample.original.commitment.isSome ∨ Sample.mutated.commitment.isSome) →
        Sample.original.txdata = Sample.mutated.txdata)) ↔
      Sample.original.txdata.length = Sample.mutated.txdata.length :=
  integrity_binds_iff ConsensusCrate.standard_lawful Sample.collisionFree Sample.encodesApart rfl
    Sample.accepted Sample.accepted_mutated

end Urma.Chain
