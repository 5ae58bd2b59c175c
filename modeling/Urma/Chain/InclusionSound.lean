import Urma.Chain.InclusionComplete

/-!
# Verified proofs are of the block

The count of a proof is not committed to, so first the length of its branches is tied to the
block: a branch of another length would make a node out of a transaction. Then the branches end
in leaves of the two trees, the coinbase is the block's up to its witness, and so are the
commitment and the root it commits to.
-/

namespace Urma.Chain

open Lib

variable {crate : ConsensusCrate} {crates : DecodeCrates} {chain : Chain} {block : Block}
  {expected : Bytes32} {proof : TransactionProof}

/-! ## Paths -/

theorem climb_of_climbPath {siblings : List Bytes32} {index width : ℕ} {hash root : Bytes32}
    (h : climbPath crate siblings index width hash = .ok root) :
    Merkle.climb crate.node index hash siblings = root := by
  induction siblings generalizing index width hash with
  | nil =>
      rw [climbPath] at h
      cases h
      rfl
  | cons sibling siblings ih =>
      rw [climbPath] at h
      rw [Merkle.climb]
      split at h
      · next heven =>
          split at h
          · cases h
          · rw [if_pos heven]
            exact ih h
      · next hodd =>
          rw [if_neg hodd]
          exact ih h

/-- What a path with a root is: as long as its count asks for, with an index below that, and a
branch to the root. -/
theorem path_of_root {path : MerklePath} {hash root : Bytes32}
    (h : path.root crate hash = .ok root) :
    path.siblings.length = Merkle.depth path.txCount ∧ path.index < 2 ^ path.siblings.length ∧
      Merkle.climb crate.node path.index hash path.siblings = root := by
  obtain ⟨hcheck, hclimb⟩ := MerklePath.root_eq_ok.mp h
  obtain ⟨_, hlength, hindex⟩ := MerklePath.check_eq_ok.mp hcheck
  refine ⟨hlength, ?_, climb_of_climbPath hclimb⟩
  rw [hlength]
  exact hindex.trans_le (Nat.le_pow_clog Nat.one_lt_two _)

/-! ## What is hashed -/

/-- The nodes on the four branches of a proof of a transaction. -/
def TransactionProof.nodes (crate : ConsensusCrate) (proof : TransactionProof)
    (tx coinbase : Transaction) : List (Bytes32 × Bytes32) :=
  Merkle.climbed crate.node proof.txidPath.index (crate.computeTxid tx).bytes
      proof.txidPath.siblings ++
    Merkle.climbed crate.node proof.coinbasePath.index (crate.computeTxid coinbase).bytes
      proof.coinbasePath.siblings ++
    Merkle.climbed crate.node proof.witnessPath.index (crate.computeWtxid tx)
      proof.witnessPath.siblings ++
    Merkle.climbed crate.node proof.coinbaseWitnessPath.index zeroHash
      proof.coinbaseWitnessPath.siblings

/-- Everything that is hashed to verify a proof. -/
def TransactionProof.preimages (crate : ConsensusCrate) (proof : TransactionProof)
    (tx coinbase : Transaction) : List Bytes :=
  crate.encodings [tx, coinbase] ++ (nodePreimages (proof.nodes crate tx coinbase) ++
    coinbase.input.flatMap fun input => input.witness.map fun reserved =>
      (Merkle.climb crate.node proof.witnessPath.index (crate.computeWtxid tx)
        proof.witnessPath.siblings).toList ++ reserved)

/-- No transaction, without its witness, is encoded as the two hashes below a node. -/
def ConsensusCrate.Separate (crate : ConsensusCrate) (txs : List Transaction)
    (nodes : List (Bytes32 × Bytes32)) : Prop :=
  ∀ tx ∈ txs, ∀ pair ∈ nodes, crate.serializeBase tx ≠ nodeBytes pair.1 pair.2

/-! ## Soundness -/

section
variable {tx coinbase : Transaction}
  (hfree : crate.CollisionFree (crate.preimages block ++ proof.preimages crate tx coinbase))
include hfree

theorem proof_encodings_free :
    crate.CollisionFree (crate.encodings (block.txdata ++ [tx, coinbase])) := by
  apply hfree.mono
  intro x hx
  rw [ConsensusCrate.encodings, List.map_append, List.map_append] at hx
  simp only [ConsensusCrate.preimages, TransactionProof.preimages, ConsensusCrate.encodings,
    List.mem_append] at hx ⊢
  tauto

theorem proof_nodes_apart :
    Merkle.Apart crate.node (crate.nodes block ++ proof.nodes crate tx coinbase) := by
  apply ConsensusCrate.CollisionFree.apart
  apply hfree.mono
  intro x hx
  rw [nodePreimages, List.map_append] at hx
  simp only [ConsensusCrate.preimages, TransactionProof.preimages, nodePreimages,
    List.mem_append] at hx ⊢
  tauto

/-- **The length of the branches is that of the tree**: else the transaction, or one of the
block, would be hashed as a node is. -/
theorem depth_eq (hlawful : crate.Lawful)
    (hseparate : crate.Separate (block.txdata ++ [tx])
      (crate.nodes block ++ proof.nodes crate tx coinbase))
    (hblock : validateBlockIntegrity crate block expected = .ok ())
    (hpath : proof.txidPath.root crate (crate.computeTxid tx).bytes = .ok block.header.merkleRoot) :
    proof.txidPath.siblings.length = Merkle.depth block.txdata.length := by
  obtain ⟨_, hindex, hclimb⟩ := path_of_root hpath
  by_contra hne
  have hroot := root_txids hlawful hblock
  rw [← hclimb] at hroot
  have hmem : ∀ pair ∈ Merkle.combined crate.node (crate.txids block)
      (Merkle.depth (crate.txids block).length) ++ Merkle.climbed crate.node proof.txidPath.index
        (crate.computeTxid tx).bytes proof.txidPath.siblings,
      pair ∈ crate.nodes block ++ proof.nodes crate tx coinbase := by
    intro pair hpair
    rw [txids_length] at hpair
    simp only [ConsensusCrate.nodes, TransactionProof.nodes, List.mem_append] at hpair ⊢
    tauto
  obtain ⟨leaf, hleaf, pair, hpair, hnode⟩ := Merkle.exists_node_of_climb hindex
    (by rw [txids_length]; exact hne) ((proof_nodes_apart hfree).mono hmem) hroot
  have hid : ∃ t ∈ block.txdata ++ [tx], (crate.computeTxid t).bytes = leaf := by
    rcases hleaf with rfl | hleaf
    · exact ⟨tx, List.mem_append_right _ (List.mem_singleton.mpr rfl), rfl⟩
    · obtain ⟨t, ht, hid⟩ := List.mem_map.mp hleaf
      exact ⟨t, List.mem_append_left _ ht, hid⟩
  obtain ⟨t, ht, hid⟩ := hid
  rw [hlawful.computeTxid, ← hnode] at hid
  have hbytes : crate.serializeBase t = nodeBytes pair.1 pair.2 := by
    apply hfree _ _ _ _ hid
    · simp only [List.mem_append, List.mem_singleton] at ht
      simp only [ConsensusCrate.preimages, TransactionProof.preimages, ConsensusCrate.encodings,
        List.mem_append, List.map_cons, List.mem_cons]
      rcases ht with ht | rfl
      · exact Or.inl (Or.inl (Or.inr (List.mem_map_of_mem ht)))
      · tauto
    · have hpair' : nodeBytes pair.1 pair.2 ∈
          nodePreimages (crate.nodes block ++ proof.nodes crate tx coinbase) :=
        List.mem_map_of_mem (hmem pair hpair)
      rw [nodePreimages, List.map_append] at hpair'
      simp only [ConsensusCrate.preimages, TransactionProof.preimages, nodePreimages,
        List.mem_append] at hpair' ⊢
      tauto
  exact hseparate t ht pair (hmem pair hpair) hbytes

end

/-! ## What a verified proof shares with the block -/

section
variable {output : TxOut} (v : proof.Verified crate crates chain block.header)
  (hcommitted : Committed crate block output)
  (hfree : crate.CollisionFree
    (crate.preimages block ++ proof.preimages crate v.transaction v.coinbase))
  (hdepth : proof.txidPath.siblings.length = Merkle.depth block.txdata.length)

/-- The four paths have one length and go to the coinbase and to one position. -/
theorem consistent_lengths {proof : TransactionProof} (h : proof.consistent = true) :
    proof.coinbasePath.txCount = proof.txidPath.txCount ∧
      proof.witnessPath.txCount = proof.txidPath.txCount ∧
      proof.coinbaseWitnessPath.txCount = proof.txidPath.txCount ∧
      proof.txidPath.index = proof.witnessPath.index ∧ proof.coinbasePath.index = 0 := by
  simp only [TransactionProof.consistent, Bool.and_eq_true, beq_iff_eq] at h
  obtain ⟨⟨⟨⟨⟨hcoinbase, hwitness⟩, hzero⟩, hindex⟩, hfirst⟩, _⟩ := h
  exact ⟨hcoinbase, hwitness, hzero, hindex, hfirst⟩

include hfree

/-- The commitment of the proof is that of the block, over the same root. -/
theorem witnessRoot_eq (hlawful : crate.Lawful)
    (hstrip : v.coinbase.strip = hcommitted.coinbase.strip) :
    v.witnessRoot = hcommitted.root := by
  have houtput : v.output = output := by
    have hfound := v.found
    rw [findCommitment, Transaction.output_eq_of_strip hstrip] at hfound
    have hother := hcommitted.found
    rw [findCommitment, hfound] at hother
    exact Option.some.inj hother
  have hdigest := v.committed
  rw [houtput, hcommitted.committed, hlawful.computeWitnessCommitment,
    hlawful.computeWitnessCommitment] at hdigest
  obtain ⟨input, hinput, hwitness⟩ := v.inputs
  have hclimb := (path_of_root v.witnessPathRoot).2.2
  have hmine : v.witnessRoot.toList ++ v.reserved ∈
      crate.preimages block ++ proof.preimages crate v.transaction v.coinbase := by
    apply List.mem_append_right
    apply List.mem_append_right
    apply List.mem_append_right
    rw [hinput, List.flatMap_singleton, hwitness, List.map_singleton, hclimb]
    exact List.mem_singleton.mpr rfl
  have hblocks : hcommitted.root.toList ++ hcommitted.reserved ∈
      crate.preimages block ++ proof.preimages crate v.transaction v.coinbase := by
    apply List.mem_append_left
    apply List.mem_append_right
    apply List.mem_append_right
    exact hcommitted.mem_commitmentPreimages
  have hbytes := hfree _ hblocks _ hmine (Vector.toList_inj.mp hdigest)
  have hroots := (List.append_inj hbytes (by rw [Vector.length_toList, Vector.length_toList])).1
  exact (Vector.toList_inj.mp hroots).symm

include hdepth

/-- A branch of full length to the Merkle root ends in a txid of the block. -/
theorem txid_of_path (hblock : validateBlockIntegrity crate block expected = .ok ())
    (hlawful : crate.Lawful) :
    (crate.txids block)[Merkle.paddedIndex (Merkle.depth block.txdata.length) block.txdata.length
      proof.txidPath.index]? = some (crate.computeTxid v.transaction).bytes := by
  obtain ⟨_, hindex, hclimb⟩ := path_of_root v.txidRoot
  have hroot := root_txids hlawful hblock
  rw [hdepth] at hindex
  rw [← hclimb] at hroot
  have hget := Merkle.getElem?_of_climb (by rw [txids_length]) hindex hdepth
    ((proof_nodes_apart hfree).mono (by
      intro pair hpair
      simp only [ConsensusCrate.nodes, TransactionProof.nodes, List.mem_append] at hpair ⊢
      tauto)) hroot
  rw [txids_length] at hget
  exact hget

/-- The coinbase of the proof has the txid of the coinbase of the block. -/
theorem txid_of_coinbasePath (hblock : validateBlockIntegrity crate block expected = .ok ())
    (hlawful : crate.Lawful) (hne : block.txdata ≠ []) :
    (crate.txids block)[0]? = some (crate.computeTxid v.coinbase).bytes := by
  obtain ⟨hcount, _, _, _, hzero⟩ := consistent_lengths v.consistent
  obtain ⟨hlength, hindex, hclimb⟩ := path_of_root v.coinbaseRoot
  have hroot := root_txids hlawful hblock
  rw [← hclimb] at hroot
  have hcoinbase : proof.coinbasePath.siblings.length = Merkle.depth block.txdata.length := by
    rw [hlength, hcount, ← (path_of_root v.txidRoot).1, hdepth]
  rw [hcoinbase] at hindex
  have hget := Merkle.getElem?_of_climb (by rw [txids_length]) hindex hcoinbase
    ((proof_nodes_apart hfree).mono (by
      intro pair hpair
      simp only [ConsensusCrate.nodes, TransactionProof.nodes, List.mem_append] at hpair ⊢
      tauto)) hroot
  rw [txids_length, hzero, Merkle.paddedIndex_of_lt _ (List.length_pos_iff.mpr hne)] at hget
  exact hget

include hcommitted

/-- The witness branch ends in a witness id of the block. -/
theorem wtxid_of_path (hlawful : crate.Lawful)
    (hstrip : v.coinbase.strip = hcommitted.coinbase.strip) :
    (crate.wtxids block)[Merkle.paddedIndex (Merkle.depth block.txdata.length) block.txdata.length
      proof.txidPath.index]? = some (crate.computeWtxid v.transaction) := by
  obtain ⟨_, hcount, _, hsame, _⟩ := consistent_lengths v.consistent
  obtain ⟨hlength, hindex, hclimb⟩ := path_of_root v.witnessPathRoot
  have hwitness : proof.witnessPath.siblings.length = Merkle.depth block.txdata.length := by
    rw [hlength, hcount, ← (path_of_root v.txidRoot).1, hdepth]
  have hroot : Merkle.root crate.node (crate.wtxids block) =
      some (Merkle.climb crate.node proof.witnessPath.index (crate.computeWtxid v.transaction)
        proof.witnessPath.siblings) := by
    rw [hclimb, witnessRoot_eq v hcommitted hfree hlawful hstrip, ← hlawful.witnessRoot,
      hcommitted.witnessRoot]
  rw [hwitness] at hindex
  have hsome : block.commitment.isSome := by
    rw [hcommitted.commitment]
    rfl
  have hget := Merkle.getElem?_of_climb (by rw [wtxids_length]) hindex hwitness
    ((proof_nodes_apart hfree).mono (by
      intro pair hpair
      simp only [ConsensusCrate.nodes, TransactionProof.nodes, List.mem_append, if_pos hsome]
        at hpair ⊢
      tauto)) hroot
  rw [wtxids_length, ← hsame] at hget
  exact hget

end

/-- **Inclusion proofs are sound**: a verified transaction is the block's at the place its index
stands for, with its txid and its witness id in the two lists there. With the block's own count
that place is the position. -/
theorem inclusion_sound (hlawful : crate.Lawful) {included : IncludedTransaction}
    {coinbase : Transaction}
    (hblock : validateBlockIntegrity crate block expected = .ok ())
    (hcommitment : block.commitment.isSome)
    (hverify : proof.verify crate crates chain block.header = .ok included)
    (hcoinbase : Decode.transaction crates proof.coinbase chain = .ok coinbase)
    (hfree : crate.CollisionFree
      (crate.preimages block ++ proof.preimages crate included.transaction coinbase))
    (hencodes : crate.EncodesApart (block.txdata ++ [included.transaction, coinbase]))
    (hseparate : crate.Separate (block.txdata ++ [included.transaction])
      (crate.nodes block ++ proof.nodes crate included.transaction coinbase)) :
    let count := block.txdata.length
    let place := Merkle.paddedIndex (Merkle.depth count) count included.position
    (crate.txids block)[place]? = some (crate.computeTxid included.transaction).bytes ∧
      (crate.wtxids block)[place]? = some (crate.computeWtxid included.transaction) ∧
      block.txdata[place]? = some included.transaction ∧
      (proof.txidPath.txCount = count → place = included.position) := by
  obtain ⟨v, rfl⟩ := (verify_eq_ok hlawful).mp hverify
  have hsame : v.coinbase = coinbase := by
    rw [v.decodedCoinbase] at hcoinbase
    exact Except.ok.inj hcoinbase
  subst hsame
  obtain ⟨output, houtput⟩ := Option.isSome_iff_exists.mp hcommitment
  obtain ⟨hcommitted⟩ :=
    committed_of_check hlawful (validateBlockIntegrity_eq_ok.mp hblock).2.2 houtput
  have hfirst : block.txdata[0]? = some hcommitted.coinbase := by
    rw [hcommitted.txdata]
    rfl
  have hne : block.txdata ≠ [] := by
    rw [hcommitted.txdata]
    exact List.cons_ne_nil _ _
  have hencodings := proof_encodings_free hfree
  have hmem : v.transaction ∈ block.txdata ++ [v.included.transaction, v.coinbase] :=
    List.mem_append_right _ List.mem_cons_self
  have hdepth := depth_eq hfree hlawful hseparate hblock v.txidRoot
  -- the coinbase of the proof is the block's up to the witness
  have hcoinbaseId := txid_of_coinbasePath v hfree hdepth hblock hlawful hne
  rw [txids_getElem?, hfirst, Option.map_some, Option.some.injEq] at hcoinbaseId
  have hstrip : v.coinbase.strip = hcommitted.coinbase.strip :=
    strip_eq_of_computeTxid hlawful hencodings hencodes (by simp)
      (List.mem_append_left _ (List.mem_of_getElem? hfirst)) hcoinbaseId.symm
  have htxid := txid_of_path v hfree hdepth hblock hlawful
  have hwtxid := wtxid_of_path v hcommitted hfree hdepth hlawful hstrip
  -- a transaction at the place of the coinbase would be a coinbase
  have hplace : Merkle.paddedIndex (Merkle.depth block.txdata.length) block.txdata.length
      proof.txidPath.index ≠ 0 := by
    intro hzero
    rw [hzero, txids_getElem?, hfirst, Option.map_some, Option.some.injEq] at htxid
    have htarget := isCoinbase_of_strip hlawful
      (strip_eq_of_computeTxid hlawful hencodings hencodes
        (List.mem_append_left _ (List.mem_of_getElem? hfirst)) hmem htxid)
      hcommitted.isCoinbase
    have hnot : crate.isCoinbase v.transaction = false := v.target
    rw [show crate.isCoinbase v.transaction = true from htarget] at hnot
    cases hnot
  refine ⟨htxid, hwtxid, ?_, ?_⟩
  · have hget := hwtxid
    rw [wtxids_getElem? hplace, Option.map_eq_some_iff] at hget
    obtain ⟨tx, htx, hid⟩ := hget
    have heq : tx = v.transaction := eq_of_computeWtxid hlawful hencodings hencodes
      (List.mem_append_left _ (List.mem_of_getElem? htx)) hmem hid
    rw [heq] at htx
    exact htx
  · intro hcount
    obtain ⟨hcheck, _⟩ := MerklePath.root_eq_ok.mp v.txidRoot
    obtain ⟨_, _, hlt⟩ := MerklePath.check_eq_ok.mp hcheck
    rw [hcount] at hlt
    exact Merkle.paddedIndex_of_lt _ hlt

namespace Sample

def paymentProof : TransactionProof :=
  proofOf ConsensusCrate.standard committedBlock 1 (Standard.serialize payment)
    (Standard.serialize committing)

theorem proof_verified : paymentProof.verify ConsensusCrate.standard decoder .bitcoinRegtest
    committedHeader = .ok ⟨payment, Standard.serialize payment,
      ConsensusCrate.standard.blockHash committedHeader, 1⟩ :=
  verify_proofOf ConsensusCrate.standard_lawful (by decide) committed_accepted committed
    (by decide) rfl rfl decode_payment rfl decode_committing

theorem proof_collisionFree : ConsensusCrate.standard.CollisionFree
    (ConsensusCrate.standard.preimages committedBlock ++
      paymentProof.preimages ConsensusCrate.standard payment committing) := by
  apply collisionFree_of_nodup
  decide +kernel

theorem proof_encodesApart : ConsensusCrate.standard.EncodesApart
    (committedBlock.txdata ++ [payment, committing]) := by
  unfold ConsensusCrate.EncodesApart
  decide +kernel

theorem proof_separate : ConsensusCrate.standard.Separate (committedBlock.txdata ++ [payment])
    (ConsensusCrate.standard.nodes committedBlock ++
      paymentProof.nodes ConsensusCrate.standard payment committing) := by
  have hlengths : ∀ tx ∈ committedBlock.txdata ++ [payment],
      (Standard.serializeBase tx).length ≠ 64 := by
    decide +kernel
  intro tx htx pair _ hbytes
  apply hlengths tx htx
  rw [show Standard.serializeBase tx = _ from hbytes, nodeBytes, List.length_append,
    Vector.length_toList, Vector.length_toList]

end Sample

theorem inclusion_sound_sample :
    let count := Sample.committedBlock.txdata.length
    let place := Merkle.paddedIndex (Merkle.depth count) count 1
    (ConsensusCrate.standard.txids Sample.committedBlock)[place]? =
        some (ConsensusCrate.standard.computeTxid Sample.payment).bytes ∧
      (ConsensusCrate.standard.wtxids Sample.committedBlock)[place]? =
        some (ConsensusCrate.standard.computeWtxid Sample.payment) ∧
      Sample.committedBlock.txdata[place]? = some Sample.payment ∧
      (Sample.paymentProof.txidPath.txCount = count → place = 1) := by
  have hsome : Sample.committedBlock.commitment.isSome := by
    rw [Sample.committed.commitment]
    rfl
  have hsound := @inclusion_sound ConsensusCrate.standard Sample.decoder .bitcoinRegtest
    Sample.committedBlock _ Sample.paymentProof ConsensusCrate.standard_lawful _ Sample.committing
    Sample.committed_accepted hsome Sample.proof_verified Sample.decode_committing
    Sample.proof_collisionFree Sample.proof_encodesApart Sample.proof_separate
  exact hsound

end Urma.Chain
