import Urma.Chain.Inclusion

/-!
# Built proofs verify

The levels the builder stores are those of the tree, so the siblings it picks are the branch of
the position, and the count it writes gives the verifier the same geometry.
-/

namespace Urma.Chain

open Lib

variable {crate : ConsensusCrate} {crates : DecodeCrates} {chain : Chain}

/-! ## Geometry -/

theorem levelsWithin_eq {rounds width : ℕ} (h : width ≤ rounds) :
    levelsWithin rounds width = Merkle.depth width := by
  induction rounds generalizing width with
  | zero => rw [levelsWithin, Merkle.depth_of_le_one (by omega)]
  | succ rounds ih =>
      rw [levelsWithin]
      split
      · next htwo => rw [Merkle.depth_of_two_le htwo, ih (by omega)]
      · next hone => rw [Merkle.depth_of_le_one (by omega)]

theorem pathLevels_eq (width : ℕ) : pathLevels width = Merkle.depth width :=
  levelsWithin_eq le_rfl

theorem depth_le_maxPathLevels {count : ℕ} (h : count ≤ maxTransactions) :
    Merkle.depth count ≤ maxPathLevels := by
  apply Nat.clog_le_of_le_pow
  exact h.trans (by decide)

theorem MerklePath.check_eq_ok {path : MerklePath} {u : Unit} :
    path.check = .ok u ↔ path.txCount ≤ maxTransactions ∧
      path.siblings.length = Merkle.depth path.txCount ∧ path.index < path.txCount := by
  rw [MerklePath.check, Except.bind_eq_ok]
  simp only [require_eq_ok, Except.bind_eq_ok, Bool.and_eq_true, decide_eq_true_eq, bne_iff_ne,
    beq_iff_eq, pathLevels_eq]
  constructor
  · rintro ⟨_, ⟨hcount, _⟩, _, ⟨_, hindex⟩, hlevels⟩
    exact ⟨hcount, hlevels, hindex⟩
  · rintro ⟨hcount, hlevels, hindex⟩
    refine ⟨(), ⟨hcount, ?_⟩, (), ⟨by omega, hindex⟩, hlevels⟩
    rw [hlevels]
    exact depth_le_maxPathLevels hcount

/-! ## Levels -/

theorem levelsFrom_eq {rounds : ℕ} {hashes : List Bytes32} (h : hashes.length ≤ rounds + 1) :
    levelsFrom crate rounds hashes =
      (List.range (Merkle.depth hashes.length + 1)).map (Merkle.level crate.node hashes) := by
  induction rounds generalizing hashes with
  | zero =>
      rw [levelsFrom, Merkle.depth_of_le_one h]
      rfl
  | succ rounds ih =>
      rw [levelsFrom]
      split
      · next htwo =>
          have hlength : (Merkle.above crate.node hashes).length ≤ rounds + 1 := by
            rw [Merkle.above_length]
            omega
          have hlevel : Merkle.level crate.node (Merkle.above crate.node hashes) =
              Merkle.level crate.node hashes ∘ Nat.succ :=
            funext fun d => Merkle.level_above hashes d
          rw [ih hlength, Merkle.above_length, Merkle.depth_of_two_le htwo, hlevel,
            List.range_succ_eq_map (n := Merkle.depth ((hashes.length + 1) / 2) + 1),
            List.map_cons, List.map_map]
          rfl
      · next hone =>
          rw [Merkle.depth_of_le_one (by omega)]
          rfl

theorem buildLevels_eq (hashes : List Bytes32) :
    buildLevels crate hashes =
      (List.range (Merkle.depth hashes.length + 1)).map (Merkle.level crate.node hashes) :=
  levelsFrom_eq (Nat.le_succ _)

/-- The topmost level holds the root. -/
theorem buildLevels_getLast? {hashes : List Bytes32} {root : Bytes32}
    (h : Merkle.root crate.node hashes = some root) :
    (buildLevels crate hashes).getLast? = some [root] := by
  have hhead : (Merkle.level crate.node hashes (Merkle.depth hashes.length)).head? = some root := h
  have hlength : (Merkle.level crate.node hashes (Merkle.depth hashes.length)).length ≤ 1 := by
    have hdepth := @Merkle.level_length_depth _ crate.node hashes (Merkle.depth hashes.length) 0 rfl
    by_contra hmore
    rw [Merkle.depth_of_two_le (by omega)] at hdepth
    cases hdepth
  rw [buildLevels_eq, List.range_succ, List.map_append, List.map_singleton,
    List.getLast?_concat]
  generalize Merkle.level crate.node hashes (Merkle.depth hashes.length) = top at hhead hlength
  match top with
  | [] => cases hhead
  | [_] => rw [Option.some.inj hhead]
  | _ :: _ :: _ => simp at hlength

/-- The siblings picked from the levels of a tree are the branch of the leaf. -/
theorem pickSiblings_eq {d i : ℕ} {hashes : List Bytes32} {x : Bytes32}
    (h : hashes[i]? = some x) :
    pickSiblings ((List.range d).map (Merkle.level crate.node hashes)) i =
      Merkle.branch crate.node d hashes i x := by
  induction d generalizing hashes i x with
  | zero => rfl
  | succ d ih =>
      have hlevel : Merkle.level crate.node (Merkle.above crate.node hashes) =
          Merkle.level crate.node hashes ∘ Nat.succ :=
        funext fun d => Merkle.level_above hashes d
      have hrest := ih (@Merkle.above_siblingOf _ crate.node _ _ _ h)
      rw [hlevel, ← List.map_map] at hrest
      rw [List.range_succ_eq_map, List.map_cons, pickSiblings, hrest, Merkle.branch,
        Merkle.siblingOf, List.getD_eq_getElem?_getD]
      show hashes[i ^^^ 1]?.getD (hashes[i]?.getD zeroHash) :: _ = _
      rw [h]
      rfl

/-- The verifier climbs the branch of a leaf without finding wrong padding. -/
theorem climbPath_branch {d i : ℕ} {hashes : List Bytes32} {x : Bytes32}
    (h : hashes[i]? = some x) :
    climbPath crate (Merkle.branch crate.node d hashes i x) i hashes.length x =
      .ok (Merkle.climb crate.node i x (Merkle.branch crate.node d hashes i x)) := by
  induction d generalizing hashes i x with
  | zero => rfl
  | succ d ih =>
      have hup := ih (@Merkle.above_siblingOf _ crate.node _ _ _ h)
      rw [Merkle.above_length] at hup
      rw [Merkle.branch, climbPath, Merkle.climb]
      split
      · next heven =>
          rw [if_pos heven] at hup
          have hpadding : ¬ (i + 1 = hashes.length ∧ Merkle.siblingOf hashes i x ≠ x) := by
            rintro ⟨hlast, hne⟩
            apply hne
            rw [Merkle.siblingOf, Merkle.xor_one, if_pos heven, hlast,
              List.getElem?_eq_none le_rfl]
            rfl
          rw [if_neg hpadding]
          exact hup
      · next hodd =>
          rw [if_neg hodd] at hup
          exact hup

/-! ## Proofs from a block -/

/-- A path the builder writes leads from its leaf to the root of the tree. -/
theorem root_path {builder : BlockProofBuilder} {hashes : List Bytes32} {i : ℕ}
    {x root : Bytes32} (hcount : builder.coinbaseTargets.length = hashes.length)
    (hmax : hashes.length ≤ maxTransactions) (h : hashes[i]? = some x)
    (hroot : Merkle.root crate.node hashes = some root) :
    (builder.path (buildLevels crate hashes) i).check = .ok () ∧
      (builder.path (buildLevels crate hashes) i).root crate x = .ok root := by
  have hsiblings : (builder.path (buildLevels crate hashes) i).siblings =
      Merkle.branch crate.node (Merkle.depth hashes.length) hashes i x := by
    rw [BlockProofBuilder.path, buildLevels_eq, List.range_succ, List.map_append,
      List.map_singleton, List.dropLast_concat]
    exact pickSiblings_eq h
  have htxCount : (builder.path (buildLevels crate hashes) i).txCount = hashes.length := hcount
  have hcheck : (builder.path (buildLevels crate hashes) i).check = .ok () := by
    rw [MerklePath.check_eq_ok, htxCount, hsiblings, Merkle.branch_length]
    exact ⟨hmax, rfl, (List.getElem?_eq_some_iff.mp h).1⟩
  refine ⟨hcheck, ?_⟩
  have hclimb := @Merkle.climb_branch _ crate.node hashes _ i x rfl h
  rw [MerklePath.root, hcheck, Except.ok_bind, hsiblings, htxCount]
  show climbPath crate _ i _ _ = _
  rw [climbPath_branch h]
  rw [hroot] at hclimb
  rw [Option.some.inj hclimb]

/-- What the builder keeps of an accepted block. -/
def builderOf (crate : ConsensusCrate) (block : Block) : BlockProofBuilder where
  txidLevels := buildLevels crate (crate.txids block)
  witnessLevels := buildLevels crate (crate.wtxids block)
  coinbaseTargets := block.txdata.map crate.isCoinbase

/-- The proof of a position. -/
def proofOf (crate : ConsensusCrate) (block : Block) (position : ℕ) (raw rawCoinbase : Bytes) :
    TransactionProof where
  transaction := raw
  txidPath := (builderOf crate block).path (buildLevels crate (crate.txids block)) position
  coinbase := rawCoinbase
  coinbasePath := (builderOf crate block).path (buildLevels crate (crate.txids block)) 0
  witnessPath := (builderOf crate block).path (buildLevels crate (crate.wtxids block)) position
  coinbaseWitnessPath := (builderOf crate block).path (buildLevels crate (crate.wtxids block)) 0

theorem new_eq_ok {block : Block} (hmax : block.txdata.length ≤ maxTransactions)
    (hblock : validateBlockIntegrity crate block (crate.blockHash block.header) = .ok ()) :
    BlockProofBuilder.new crate block = .ok (builderOf crate block) := by
  rw [BlockProofBuilder.new, decide_eq_true hmax, require_true, Except.ok_bind, hblock]
  rfl

theorem proof_eq_ok {block : Block} {position : ℕ} {tx : Transaction} {raw rawCoinbase : Bytes}
    (hposition : position ≠ 0) (htx : block.txdata[position]? = some tx)
    (htarget : crate.isCoinbase tx = false) :
    (builderOf crate block).proof position raw rawCoinbase =
      .ok (proofOf crate block position raw rawCoinbase) := by
  have hget : (builderOf crate block).coinbaseTargets[position]? = some false := by
    rw [builderOf, List.getElem?_map, htx, Option.map_some, htarget]
  rw [BlockProofBuilder.proof, bne_iff_ne.mpr hposition, require_true, Except.ok_bind, hget]
  rfl

/-- **The proof of a position of an accepted block verifies.** -/
theorem verify_proofOf (hlawful : crate.Lawful) {block : Block} {position : ℕ}
    {tx coinbase : Transaction} {raw rawCoinbase : Bytes} {output : TxOut}
    (hmax : block.txdata.length ≤ maxTransactions)
    (hblock : validateBlockIntegrity crate block (crate.blockHash block.header) = .ok ())
    (hcommitted : Committed crate block output)
    (hposition : position ≠ 0) (htx : block.txdata[position]? = some tx)
    (htarget : crate.isCoinbase tx = false)
    (hraw : Decode.transaction crates raw chain = .ok tx)
    (hcoinbase : block.txdata[0]? = some coinbase)
    (hrawCoinbase : Decode.transaction crates rawCoinbase chain = .ok coinbase) :
    (proofOf crate block position raw rawCoinbase).verify crate crates chain block.header =
      .ok ⟨tx, raw, crate.blockHash block.header, position⟩ := by
  have hfirst : hcommitted.coinbase = coinbase := by
    rw [hcommitted.txdata] at hcoinbase
    exact Option.some.inj hcoinbase
  have hcounttx : (builderOf crate block).coinbaseTargets.length = (crate.txids block).length := by
    rw [txids_length, builderOf, List.length_map]
  have hcountw : (builderOf crate block).coinbaseTargets.length = (crate.wtxids block).length := by
    rw [wtxids_length, builderOf, List.length_map]
  have hmaxtx : (crate.txids block).length ≤ maxTransactions := by rwa [txids_length]
  have hmaxw : (crate.wtxids block).length ≤ maxTransactions := by rwa [wtxids_length]
  have hroottx := root_txids hlawful hblock
  have hrootw : Merkle.root crate.node (crate.wtxids block) = some hcommitted.root := by
    rw [← hlawful.witnessRoot, hcommitted.witnessRoot]
  have hpath := root_path hcounttx hmaxtx
    (by rw [txids_getElem?, htx]; rfl :
      (crate.txids block)[position]? = some (crate.computeTxid tx).bytes) hroottx
  have hcoinbasePath := root_path hcounttx hmaxtx
    (by rw [txids_getElem?, hcoinbase]; rfl :
      (crate.txids block)[0]? = some (crate.computeTxid coinbase).bytes) hroottx
  have hwitnessPath := root_path hcountw hmaxw
    (by rw [wtxids_getElem? hposition, htx]; rfl :
      (crate.wtxids block)[position]? = some (crate.computeWtxid tx)) hrootw
  have hzeroPath := root_path hcountw hmaxw
    (wtxids_zero (by rw [hcommitted.txdata]; exact List.cons_ne_nil _ _)) hrootw
  exact (verify_eq_ok hlawful).mpr ⟨
    { transaction := tx
      coinbase := coinbase
      reserved := hcommitted.reserved
      witnessRoot := hcommitted.root
      output := output
      consistent := by simp [TransactionProof.consistent, proofOf, BlockProofBuilder.path]
      index := hposition
      decoded := hraw
      decodedCoinbase := hrawCoinbase
      target := htarget
      isCoinbase := hfirst ▸ hcommitted.isCoinbase
      txidRoot := hpath.2
      coinbaseRoot := hcoinbasePath.2
      inputs := ⟨hcommitted.input, hfirst ▸ hcommitted.inputs, hcommitted.witness⟩
      reserved_length := hcommitted.reserved_length
      found := hfirst ▸ hcommitted.found
      witnessPathRoot := hwitnessPath.2
      zeroPathRoot := hzeroPath.2
      committed := hcommitted.committed }, rfl⟩

/-- **Built proofs are complete**: of an accepted block with a commitment the builder keeps the
levels up to the header's Merkle root and to the committed witness root, and its proof of any
position but a coinbase's verifies against the header and yields that transaction. -/
theorem inclusion_complete (hlawful : crate.Lawful) {block : Block} {expected : Bytes32}
    (hmax : block.txdata.length ≤ maxTransactions)
    (hblock : validateBlockIntegrity crate block expected = .ok ())
    (hcommitment : block.commitment.isSome) :
    ∃ builder, BlockProofBuilder.new crate block = .ok builder ∧
      builder.txidLevels.getLast? = some [block.header.merkleRoot] ∧
      (∃ coinbase input output reserved root, block.txdata[0]? = some coinbase ∧
        coinbase.input = [input] ∧ input.witness = [reserved] ∧
        findCommitment coinbase = some output ∧
        committedHash output = (crate.computeWitnessCommitment root reserved).toList ∧
        builder.witnessLevels.getLast? = some [root]) ∧
      ∀ (position : ℕ) (tx coinbase : Transaction) (raw rawCoinbase : Bytes), position ≠ 0 →
        block.txdata[position]? = some tx → crate.isCoinbase tx = false →
        block.txdata[0]? = some coinbase → Decode.transaction crates raw chain = .ok tx →
        Decode.transaction crates rawCoinbase chain = .ok coinbase →
          ∃ proof, builder.proof position raw rawCoinbase = .ok proof ∧
            proof.verify crate crates chain block.header =
              .ok ⟨tx, raw, crate.blockHash block.header, position⟩ := by
  have hexpected := (validateBlockIntegrity_eq_ok.mp hblock).1
  rw [← hexpected] at hblock
  obtain ⟨output, houtput⟩ := Option.isSome_iff_exists.mp hcommitment
  obtain ⟨hcommitted⟩ :=
    committed_of_check hlawful (validateBlockIntegrity_eq_ok.mp hblock).2.2 houtput
  refine ⟨builderOf crate block, new_eq_ok hmax hblock,
    buildLevels_getLast? (root_txids hlawful hblock), ?_, ?_⟩
  · refine ⟨hcommitted.coinbase, hcommitted.input, output, hcommitted.reserved, hcommitted.root,
      ?_, hcommitted.inputs, hcommitted.witness, hcommitted.found, hcommitted.committed, ?_⟩
    · rw [hcommitted.txdata]
      rfl
    · apply buildLevels_getLast?
      rw [← hlawful.witnessRoot, hcommitted.witnessRoot]
  · intro position tx coinbase raw rawCoinbase hposition htx htarget hcoinbase hraw hrawCoinbase
    exact ⟨proofOf crate block position raw rawCoinbase, proof_eq_ok hposition htx htarget,
      verify_proofOf hlawful hmax hblock hcommitted hposition htx htarget hraw hcoinbase hrawCoinbase⟩

/-! ## A committed block -/

namespace Sample

def reserved : Bytes :=
  List.replicate 32 0

/-- A payment with a witness. -/
def payment : Transaction :=
  { txOf ⟨⟨Vector.replicate 32 1⟩, 0⟩ with
    input := [⟨⟨⟨Vector.replicate 32 1⟩, 0⟩, [], 0xffffffff, [[1]]⟩] }

def witnessRoot : Bytes32 :=
  Standard.node zeroHash (Standard.sha256d (Standard.serialize payment))

def commitmentOutput : TxOut :=
  ⟨0, commitmentMagic ++ (Standard.sha256d (witnessRoot.toList ++ reserved)).toList⟩

/-- A coinbase that commits to the witness of the payment. -/
def committing : Transaction where
  version := 2
  lockTime := 0
  input := [⟨OutPoint.null, [], 0xffffffff, [reserved]⟩]
  output := [commitmentOutput]

def committedHeader : Header :=
  { header with
    merkleRoot := Standard.node (Standard.sha256d (Standard.serializeBase committing))
      (Standard.sha256d (Standard.serializeBase payment)) }

def committedBlock : Block :=
  ⟨committedHeader, [committing, payment]⟩

theorem committedHash_output :
    committedHash commitmentOutput = (Standard.sha256d (witnessRoot.toList ++ reserved)).toList := by
  apply Layout.slice_eq commitmentMagic _ []
  · rw [List.append_nil]
    rfl
  · rfl
  · rw [Vector.length_toList]

theorem committed_found : findCommitment committing = some commitmentOutput := by
  have hlength : commitmentOutput.scriptPubkey.length = 38 := by
    rw [commitmentOutput, List.length_append, Vector.length_toList]
    rfl
  have hprefix : commitmentMagic.isPrefixOf commitmentOutput.scriptPubkey = true :=
    List.isPrefixOf_iff_prefix.mpr (List.prefix_append _ _)
  rw [findCommitment, committing, List.reverse_singleton, List.find?_singleton, isCommitment,
    hlength, hprefix]
  rfl

theorem committed_witnessRoot :
    ConsensusCrate.standard.witnessRoot committedBlock = some witnessRoot :=
  Merkle.root_pair _ _

/-- Its commitment is checked. -/
def committed : Committed ConsensusCrate.standard committedBlock commitmentOutput where
  coinbase := committing
  rest := [payment]
  input := ⟨OutPoint.null, [], 0xffffffff, [reserved]⟩
  reserved := reserved
  root := witnessRoot
  txdata := rfl
  isCoinbase := rfl
  found := committed_found
  inputs := rfl
  witness := rfl
  reserved_length := rfl
  witnessRoot := committed_witnessRoot
  committed := committedHash_output

theorem committed_accepted : validateBlockIntegrity ConsensusCrate.standard committedBlock
    (ConsensusCrate.standard.blockHash committedHeader) = .ok () := by
  have hroot : ConsensusCrate.standard.checkMerkleRoot committedBlock = true :=
    (ConsensusCrate.standard_lawful.checkMerkleRoot committedBlock).mpr (Merkle.root_pair _ _)
  exact validateBlockIntegrity_eq_ok.mpr ⟨rfl, hroot, committed.check⟩

/-- The decoder, for the transactions of the block. -/
def deserialize (raw : Bytes) : Option Transaction :=
  if raw = Standard.serialize payment then some payment
  else if raw = Standard.serialize committing then some committing
  else none

def decoder : DecodeCrates where
  deserialize := deserialize
  LitecoinTransaction := Empty
  litecoinDecode _ := none
  litecoinSerialize := nofun
  hasMwTx := nofun
  isInputEmpty := nofun
  clearHogEx := nofun

theorem decode_of_deserialize {raw : Bytes} {tx : Transaction} (hlength : raw.length ≤ 200)
    (h : deserialize raw = some tx) :
    Decode.transaction decoder raw .bitcoinRegtest = .ok tx := by
  have hdecoder : decoder.deserialize raw = some tx := h
  have hbounded : Decode.bounded raw = .ok () := if_neg (by omega)
  rw [Decode.transaction, hbounded, Except.ok_bind, Decode.bitcoin, hdecoder]

theorem serialize_payment_length : (Standard.serialize payment).length = 56 := by
  decide +kernel

theorem serialize_committing_length : (Standard.serialize committing).length = 134 := by
  decide +kernel

theorem decode_payment : Decode.transaction decoder (Standard.serialize payment) .bitcoinRegtest =
    .ok payment := by
  apply decode_of_deserialize
  · rw [serialize_payment_length]
    decide
  · rw [deserialize, if_pos rfl]

theorem decode_committing : Decode.transaction decoder (Standard.serialize committing)
    .bitcoinRegtest = .ok committing := by
  apply decode_of_deserialize
  · rw [serialize_committing_length]
    decide
  · have hne : Standard.serialize committing ≠ Standard.serialize payment := by
      intro h
      have hlength := congrArg List.length h
      rw [serialize_payment_length, serialize_committing_length] at hlength
      omega
    rw [deserialize, if_neg hne, if_pos rfl]

end Sample

theorem inclusion_complete_sample :
    ∃ builder, BlockProofBuilder.new ConsensusCrate.standard Sample.committedBlock = .ok builder ∧
      ∃ proof, builder.proof 1 (Standard.serialize Sample.payment)
          (Standard.serialize Sample.committing) = .ok proof ∧
        proof.verify ConsensusCrate.standard Sample.decoder .bitcoinRegtest
          Sample.committedHeader = .ok ⟨Sample.payment, Standard.serialize Sample.payment,
            ConsensusCrate.standard.blockHash Sample.committedHeader, 1⟩ := by
  obtain ⟨builder, hnew, _, _, hproof⟩ :=
    @inclusion_complete _ Sample.decoder .bitcoinRegtest ConsensusCrate.standard_lawful
      Sample.committedBlock _ (by decide) Sample.committed_accepted
      (by rw [Sample.committed.commitment]; rfl)
  exact ⟨builder, hnew, hproof 1 Sample.payment Sample.committing _ _ (by decide) rfl (by decide)
    rfl Sample.decode_payment Sample.decode_committing⟩

end Urma.Chain
