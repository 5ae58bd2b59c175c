import Urma.Chain.Block
import Urma.Core.Envelope

/-!
# Verified records

`urma_core::envelope::verify_record_proof` and `urma_core::multipart::proof`: a record is read from
the reveal that spends its commit, and is then held with its transaction, its author and its hash.
Taproot commitments, signature hashes and Schnorr signatures are those of the `bitcoin` crate.
-/

namespace Urma

open Chain

/-- What checking a reveal takes from the `bitcoin` crate, beyond the scripts. -/
structure RevealCrate where
  script : BitcoinCrate
  consensus : ConsensusCrate
  /-- `Script::is_p2wpkh`. -/
  isP2wpkh : Bytes → Bool
  /-- `Script::is_p2tr`. -/
  isP2tr : Bytes → Bool
  /-- `ControlBlock::verify_taproot_commitment`. -/
  verifyTaprootCommitment : ControlBlock → XOnlyPublicKey → Bytes → Bool
  /-- `schnorr::Signature::from_slice`. -/
  signatureFromSlice : Bytes → Except Error Bytes
  /-- `SighashCache::taproot_script_spend_signature_hash` of the first input, which spends the
  output, for a tapscript leaf. -/
  signatureHash : Transaction → TxOut → Bytes → Except Error Bytes32
  /-- `verify_schnorr`, its failure in the context `"invalid author signature"`. -/
  verifySchnorr : Bytes → Bytes32 → XOnlyPublicKey → Except Error Unit

namespace Envelope

variable (crate : RevealCrate)

/-! ## Reveals -/

/-- `validate_reveal_shape`. -/
def validateRevealShape (version : UInt32) (inputs outputs : ℕ) : Except Error Unit :=
  ensure (version == 2 && inputs == 1 && outputs == 1) "invalid reveal transaction shape"

/-- `validate_reveal_scripts`. -/
def validateRevealScripts (scriptSig returnScript : Bytes) : Except Error Unit := do
  ensure scriptSig.isEmpty "reveal scriptSig must be empty"
  ensure (crate.isP2wpkh returnScript || crate.isP2tr returnScript) "invalid reveal return output"

/-- `extract_reveal_envelope`, on the one input and the one output the shape demands. -/
def extractRevealEnvelope (reveal : Transaction) (input : TxIn) (output : TxOut) :
    Except Error ParsedEnvelope := do
  validateRevealShape reveal.version reveal.input.length reveal.output.length
  validateRevealScripts crate input.scriptSig output.scriptPubkey
  extractEnvelope crate.script input.witness

/-- `extract_reveal`. -/
def extractReveal (reveal : Transaction) : Except Error ParsedEnvelope :=
  match reveal.input, reveal.output with
  | input :: _, output :: _ => do
      let parsed ← extractRevealEnvelope crate reveal input output
      validateRecord parsed.record
      .ok parsed
  | _, _ => .error (.invalid "invalid reveal transaction shape")

/-- `verify_prevout_proof`. -/
def verifyPrevoutProof (reveal : Transaction) (prevout : TxOut) : Except Error ParsedEnvelope :=
  match reveal.input, reveal.output with
  | input :: _, output :: _ => do
      let parsed ← extractRevealEnvelope crate reveal input output
      ensure (output.value ≤ prevout.value) "reveal spends more than prevout"
      ensure (crate.isP2tr prevout.scriptPubkey) "commit output must be P2TR"
      let outputKey ← crate.script.keyFromSlice ((prevout.scriptPubkey.drop 2).take 32)
      ensure (crate.verifyTaprootCommitment parsed.control outputKey parsed.script)
        "invalid Taproot commitment"
      let signature ← context input.witness.head? "signature absent"
      let signature ← crate.signatureFromSlice signature
      let hash ← crate.signatureHash reveal prevout parsed.script
      crate.verifySchnorr signature hash parsed.author
      .ok parsed
  | _, _ => .error (.invalid "invalid reveal transaction shape")

/-- `verify_record_proof`. -/
def verifyRecordProof (reveal commit : Transaction) : Except Error ParsedEnvelope :=
  match reveal.input with
  | [input] => do
      let source := input.previousOutput
      ensure (source.txid == crate.consensus.computeTxid commit)
        "reveal does not spend the supplied commit"
      let prevout ← context commit.output[source.vout.toNat]? "commit outpoint absent"
      verifyPrevoutProof crate reveal prevout
  | _ => .error (.invalid "reveal must have one input")

/-- `verify_reveal`. -/
def verifyReveal (reveal commit : Transaction) : Except Error ParsedEnvelope := do
  let parsed ← verifyRecordProof crate reveal commit
  validateRecord parsed.record
  .ok parsed

/-- What is verified as a reveal is a proof of its record. -/
theorem verifyReveal_eq_ok {reveal commit : Transaction} {parsed : ParsedEnvelope}
    (h : verifyReveal crate reveal commit = .ok parsed) :
    verifyRecordProof crate reveal commit = .ok parsed := by
  simp only [verifyReveal, Except.bind_eq_ok] at h
  obtain ⟨_, hproof, _, _, hparsed⟩ := h
  cases hparsed
  exact hproof

variable {crate} {reveal commit other : Transaction}

/-- A proof of a record reads the txid and the outputs of the commit only. -/
theorem verifyRecordProof_congr
    (htxid : crate.consensus.computeTxid other = crate.consensus.computeTxid commit)
    (houtput : other.output = commit.output) :
    verifyRecordProof crate reveal other = verifyRecordProof crate reveal commit := by
  rw [verifyRecordProof, verifyRecordProof, htxid, houtput]

theorem verifyReveal_congr
    (htxid : crate.consensus.computeTxid other = crate.consensus.computeTxid commit)
    (houtput : other.output = commit.output) :
    verifyReveal crate reveal other = verifyReveal crate reveal commit := by
  rw [verifyReveal, verifyReveal, verifyRecordProof_congr htxid houtput]

end Envelope

/-! ## Verified records -/

/-- `proof::VerifiedRecord`: the hash is that of the record. -/
structure VerifiedRecord (sha256 : Bytes → Bytes32) where
  txid : Txid
  author : XOnlyPublicKey
  recordHash : Bytes32
  record : Bytes
  recordHash_eq : recordHash = sha256 record

namespace VerifiedRecord

variable {sha256 : Bytes → Bytes32}

/-- `VerifiedRecord::verify`. -/
def verify (sha256 : Bytes → Bytes32) (crate : RevealCrate) (expected : Txid)
    (reveal commit : Transaction) : Except Error (VerifiedRecord sha256) := do
  ensure (crate.consensus.computeTxid reveal == expected) "candidate TXID mismatch"
  let proof ← Envelope.verifyRecordProof crate reveal commit
  .ok {
    txid := expected
    author := proof.author
    recordHash := sha256 proof.record
    record := proof.record
    recordHash_eq := rfl }

/-- `VerifiedRecord::decode`. -/
def decode (verified : VerifiedRecord sha256) : Except Error MultipartRecord :=
  MultipartRecord.decode verified.record

/-- `VerifiedRecord::reference`. -/
def reference (verified : VerifiedRecord sha256) : ChildReference where
  txid := verified.txid
  recordHash := verified.recordHash

/-- **What a verified record holds.** -/
theorem verify_eq_ok {crate : RevealCrate} {expected : Txid} {reveal commit : Transaction}
    {verified : VerifiedRecord sha256}
    (h : verify sha256 crate expected reveal commit = .ok verified) :
    verified.txid = expected ∧ crate.consensus.computeTxid reveal = expected ∧
      ∃ parsed, Envelope.verifyRecordProof crate reveal commit = .ok parsed ∧
        verified.author = parsed.author ∧ verified.record = parsed.record := by
  simp only [verify, Except.bind_eq_ok, ensure_eq_ok, beq_iff_eq] at h
  obtain ⟨_, hexpected, parsed, hparsed, hverified⟩ := h
  cases hverified
  exact ⟨rfl, hexpected, parsed, hparsed, rfl, rfl⟩

end VerifiedRecord

/-- `proof::RecordRequest`. -/
structure RecordRequest where
  reference : ChildReference
  deriving DecidableEq

/-- `RecordRequest::check_hash`. -/
def RecordRequest.checkHash {sha256 : Bytes → Bytes32} (request : RecordRequest)
    (verified : VerifiedRecord sha256) : Except Error Unit :=
  ensure (verified.recordHash == request.reference.recordHash)
    "record hash differs from the signed manifest reference"

end Urma
