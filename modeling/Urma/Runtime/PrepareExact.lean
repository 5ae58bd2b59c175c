import Urma.Runtime.PlanSizes
import Urma.Runtime.ValueConserved

/-!
# Preparing is exact

What preparing a record relies on, and what it then does: a record that can be revealed is
prepared exactly when its funding covers the fees and leaves change, and never fails otherwise.
-/

namespace Urma.Runtime

open Chain Lib

/-! ## What preparing relies on -/

/-- Scripts and trees are those of the builder, hashes do not depend on witnesses, what is signed
verifies, and what is encoded is read back. -/
structure PrepareCrates.Lawful (crates : PrepareCrates) : Prop where
  builder : crates.reveal.script.Lawful
  spendInfo : ∀ script key, crates.reveal.script.IsKey key →
    ∃ info, crates.reveal.script.spendInfo script key = .ok info
  taproot : ∀ script key info, crates.reveal.script.spendInfo script key = .ok info →
    crates.reveal.isP2tr (crates.newP2trTweaked info) = true ∧
      (crates.newP2trTweaked info).length = 34 ∧
      ∃ outputKey, crates.reveal.script.keyFromSlice
          (((crates.newP2trTweaked info).drop 2).take 32) = .ok outputKey ∧
        ∀ bytes control, crates.reveal.script.controlBlock info script = some bytes →
          crates.reveal.script.decodeControl bytes = .ok control →
            crates.reveal.verifyTaprootCommitment control outputKey script = true
  newP2wpkh : ∀ key, crates.reveal.isP2wpkh (crates.newP2wpkh key) = true
  p2wpkh_length : ∀ script, crates.reveal.isP2wpkh script = true → script.length = 22
  computeTxid : ∀ tx other : Transaction, tx.strip = other.strip →
    crates.reveal.consensus.computeTxid tx = crates.reveal.consensus.computeTxid other
  signatureHash : ∀ (reveal : Transaction) (prevout : TxOut) (script : Bytes),
    reveal.input.length = 1 → ∃ hash, crates.reveal.signatureHash reveal prevout script = .ok hash
  signatureHash_strip : ∀ (reveal other : Transaction) (prevout : TxOut) (script : Bytes),
    reveal.strip = other.strip → crates.reveal.signatureHash reveal prevout script =
      crates.reveal.signatureHash other prevout script
  p2wpkhSignatureHash : ∀ (tx : Transaction) (index : ℕ) (script : Bytes) (value : UInt64),
    index < tx.input.length → crates.reveal.isP2wpkh script = true →
      ∃ hash, crates.p2wpkhSignatureHash tx index script value .all = .ok hash
  p2wpkhSignatureHash_strip : ∀ (tx other : Transaction) (index : ℕ) (script : Bytes)
    (value : UInt64), tx.strip = other.strip →
      crates.p2wpkhSignatureHash tx index script value .all =
        crates.p2wpkhSignatureHash other index script value .all
  verifyEcdsa : ∀ hash child, crates.verifyEcdsa hash (crates.signEcdsa hash child)
    (crates.publicKey child) = .ok ()
  ecdsaFromSlice : ∀ hash child,
    crates.ecdsaFromSlice (crates.ecdsaSerialize ⟨crates.signEcdsa hash child, .all⟩) =
      .ok ⟨crates.signEcdsa hash child, .all⟩
  ecdsa_length : ∀ hash child,
    (crates.ecdsaSerialize ⟨crates.signEcdsa hash child, .all⟩).length ≤ 73
  compressed : ∀ child, crates.compressedFromSlice (crates.publicKey child) =
    .ok (crates.publicKey child)
  publicKey_length : ∀ child, (crates.publicKey child).length = 33
  weight : ∀ tx, crates.weight tx = tx.weight
  encode_size : ∀ tx, (crates.encodeTransaction tx).utf8ByteSize =
    2 * (Standard.serialize tx).length
  decode_encode : ∀ tx : Transaction, tx.weight ≤ standardTxWeight →
    crates.decodeHex (crates.encodeTransaction tx) = .ok tx
  hexDecode : ∀ bytes, crates.hexDecode (crates.hexEncode bytes) = .ok bytes

/-- An author signs with the key it shows. -/
structure Author.Lawful (crates : PrepareCrates) (author : Author) : Prop where
  key : crates.reveal.script.IsKey author.key
  signs : ∀ hash, ∃ signature, author.signAuthor hash = .ok signature ∧ signature.length = 64 ∧
    ∃ parsed, crates.reveal.signatureFromSlice signature = .ok parsed ∧
      crates.reveal.verifySchnorr parsed hash author.key = .ok ()

/-- An account has the private keys of the public keys it derives, and a receive address. -/
structure Account.Lawful (crates : PrepareCrates) (account : Account crates.PrivateKey) : Prop where
  genesis : ∃ genesis, crates.genesis account.chain = .ok genesis
  receive : ∃ key, account.publicKey .receive = .ok key
  keys : ∀ path key, account.publicKey path = .ok key →
    ∃ child, account.privateKey path = .ok child ∧ crates.publicKey child = key

variable {crates : PrepareCrates}

/-! ## Decoding what was encoded -/

theorem decodeBounded_encode (h : crates.Lawful) {tx : Transaction} {limit : ℕ}
    (hweight : tx.weight ≤ standardTxWeight) (hlimit : 2 * standardTxWeight ≤ limit) :
    decodeBounded crates.toPublishCrates (crates.encodeTransaction tx) limit = .ok tx := by
  have hsize := tx.serialize_length_le
  have hfits : (crates.encodeTransaction tx).utf8ByteSize ≤ limit := by
    rw [h.encode_size]
    omega
  simp only [decodeBounded, ensureService, decide_eq_true hfits, if_true, Except.ok_bind]
  exact h.decode_encode tx hweight

/-! ## The reveal -/

theorem validateRecord_length {record : Bytes} (h : Envelope.validateRecord record = .ok ()) :
    record.length ≤ Geometry.recordBytes := by
  simp only [Envelope.validateRecord, Except.bind_eq_ok] at h
  obtain ⟨kind, _, hkind⟩ := h
  have hpublic : ∀ decoded, PublicRecord.decode record = .ok decoded →
      record.length ≤ Geometry.recordBytes := by
    intro decoded hdecode
    simp only [PublicRecord.decode, Except.bind_eq_ok, ensure_eq_ok, decide_eq_true_eq] at hdecode
    obtain ⟨_, _, _, hlength, _⟩ := hdecode
    exact Nat.le_trans hlength (by decide)
  have hmultipart : ∀ decoded, MultipartRecord.decode record = .ok decoded →
      record.length ≤ Geometry.recordBytes := by
    intro decoded hdecode
    simp only [MultipartRecord.decode, Except.bind_eq_ok, ensure_eq_ok, decide_eq_true_eq]
      at hdecode
    obtain ⟨_, _, _, hlength, _⟩ := hdecode
    exact hlength
  cases kind
  case privateRecord =>
    simp only [Except.bind_eq_ok] at hkind
    obtain ⟨header, hheader, _⟩ := hkind
    rw [(Container.inspectHeader_bounds hheader).1]
    decide
  case container => cases hkind
  case dataPart | leafManifest | rootManifest =>
    simp only [Except.bind_eq_ok] at hkind
    obtain ⟨decoded, hdecode, _⟩ := hkind
    exact hmultipart decoded hdecode
  all_goals
    simp only [Except.bind_eq_ok] at hkind
    obtain ⟨decoded, hdecode, _⟩ := hkind
    exact hpublic decoded hdecode

/-- A draft of a record reveals it with the script of the record, from the tree of that script. -/
structure Draft.IsOf (record : Bytes) (key : XOnlyPublicKey) (returnOutput : TxOut)
    (draft : Draft crates) (control : Bytes) : Prop where
  valid : Envelope.validateRecord record = .ok ()
  script : draft.script = Envelope.recordScript crates.reveal.script record key
  info : crates.reveal.script.spendInfo draft.script key = .ok draft.info
  tree : crates.reveal.script.controlBlock draft.info draft.script = some control
  tree_length : control.length = 33
  reveal : draft.reveal = revealOf OutPoint.null returnOutput
    [List.replicate 64 0, draft.script, control]

/-- The witness of a script, whatever the signature. -/
theorem witness_eq {info : crates.reveal.script.SpendInfo} {script control signature : Bytes}
    (hcontrol : crates.reveal.script.controlBlock info script = some control)
    (hlength : control.length = 33) (hsignature : signature.length = 64) :
    Envelope.witness crates.reveal.script signature script info =
      .ok [signature, script, control] := by
  simp only [Envelope.witness, hcontrol, hlength, hsignature, context_some, beq_self_eq_true,
    ensure_true, Except.ok_bind]

theorem compactSize_length_le (n : ℕ) : (Standard.compactSize n).length ≤ 9 := by
  unfold Standard.compactSize
  split
  · simp
  · split
    · simp
    · split <;> simp

/-- Every record of the format can be revealed within the standard weight. -/
theorem reveal_weight_le (h : crates.Lawful) {record signature control : Bytes}
    {key : XOnlyPublicKey} {outpoint : OutPoint} {output : TxOut}
    (hrecord : record.length ≤ Geometry.recordBytes) (houtput : output.scriptPubkey.length = 22)
    (hsignature : signature.length = 64) (hcontrol : control.length = 33) :
    (revealOf outpoint output [signature, Envelope.recordScript crates.reveal.script record key,
      control]).weight ≤ standardTxWeight := by
  have hscript := (@Envelope.recordScript_length _ record key h.builder hrecord).2
  have hsize := compactSize_length_le
    (Envelope.recordScript crates.reveal.script record key).length
  have hmost : Envelope.maxScriptBytes = 263701 := by decide
  rw [reveal_weight houtput hsignature hcontrol, standardTxWeight]
  omega

/-- **A record of the format has a draft.** -/
theorem draft_ok (h : crates.Lawful) {record : Bytes} {key : XOnlyPublicKey} {output : TxOut}
    (hvalid : Envelope.validateRecord record = .ok ()) (hkey : crates.reveal.script.IsKey key)
    (houtput : output.scriptPubkey.length = 22) :
    ∃ (draft : Draft crates) (control : Bytes), Runtime.draft crates record key output = .ok draft ∧
      draft.IsOf record key output control := by
  obtain ⟨info, hinfo⟩ :=
    h.spendInfo (Envelope.recordScript crates.reveal.script record key) key hkey
  obtain ⟨control, _, hcontrol, hlength, _⟩ := h.builder.control _ _ _ hinfo
  have hweight := @reveal_weight_le crates h record (List.replicate 64 0) control key OutPoint.null
    output (validateRecord_length hvalid) houtput List.length_replicate hlength
  refine ⟨⟨Envelope.recordScript crates.reveal.script record key, info, revealOf OutPoint.null output [List.replicate 64 0,
    Envelope.recordScript crates.reveal.script record key, control]⟩, control, ?_,
    hvalid, rfl, hinfo, hcontrol, hlength, rfl⟩
  rw [← h.weight] at hweight
  simp only [Runtime.draft, preview, Envelope.buildForAuthor, hvalid, hinfo, Except.ok_bind,
    PlanCrates.protocol, witness_eq hcontrol hlength List.length_replicate, ensureService,
    decide_eq_true hweight, if_true]

/-- A record that is not of the format has none. -/
theorem draft_error {record : Bytes} {key : XOnlyPublicKey} {output : TxOut} {error : Error}
    (h : Envelope.validateRecord record = .error error) :
    Runtime.draft crates record key output = .error (.message (crates.display error)) := by
  simp only [Runtime.draft, Envelope.buildForAuthor, h, PlanCrates.protocol]
  rfl

/-- What is drafted is of the format, and reveals it. -/
theorem draft_eq_ok (h : crates.Lawful) {record : Bytes} {key : XOnlyPublicKey} {output : TxOut}
    (hkey : crates.reveal.script.IsKey key) (houtput : output.scriptPubkey.length = 22)
    {draft : Draft crates} (hdraft : Runtime.draft crates record key output = .ok draft) :
    ∃ control, draft.IsOf record key output control := by
  cases hvalid : Envelope.validateRecord record with
  | error error =>
      rw [draft_error hvalid] at hdraft
      cases hdraft
  | ok _ =>
      obtain ⟨_, control, hok, hdraftOf⟩ := draft_ok h hvalid hkey houtput
      rw [hok] at hdraft
      cases hdraft
      exact ⟨control, hdraftOf⟩

/-- The control block that is read back is that of the witness. -/
theorem extractEnvelope_control {crate : BitcoinCrate} {signature script control : Bytes}
    {parsed : Envelope.ParsedEnvelope}
    (h : Envelope.extractEnvelope crate [signature, script, control] = .ok parsed) :
    crate.decodeControl control = .ok parsed.control ∧ parsed.script = script := by
  simp only [Envelope.extractEnvelope, Except.bind_eq_ok, ensure_eq_ok, Bool.and_eq_true,
    beq_iff_eq] at h
  obtain ⟨_, _, _, _, _, _, _, _, control, hcontrol, _, _, _, _, _, _, hparsed⟩ := h
  cases hparsed
  exact ⟨hcontrol, rfl⟩

@[simp] theorem revealOf_input (outpoint : OutPoint) (output : TxOut) (witness : List Bytes) :
    (revealOf outpoint output witness).input = [⟨outpoint, [], enableRbfNoLocktime, witness⟩] := rfl

@[simp] theorem revealOf_output (outpoint : OutPoint) (output : TxOut) (witness : List Bytes) :
    (revealOf outpoint output witness).output = [output] := rfl

@[simp] theorem revealOf_version (outpoint : OutPoint) (output : TxOut) (witness : List Bytes) :
    (revealOf outpoint output witness).version = 2 := rfl

/-- **A signed reveal verifies**, whichever output of the commit it spends: it reveals the record
and its author. -/
theorem verifyReveal_revealOf (h : crates.Lawful) {author : Author}
    {record control signature : Bytes} {script : Bytes} {info : crates.reveal.script.SpendInfo}
    {returnOutput published : TxOut} {commit : Transaction} {vout : UInt32} {sig : Bytes}
    {hash : Bytes32} (hkey : crates.reveal.script.IsKey author.key)
    (hvalid : Envelope.validateRecord record = .ok ())
    (hrecord : script = Envelope.recordScript crates.reveal.script record author.key)
    (hinfo : crates.reveal.script.spendInfo script author.key = .ok info)
    (htree : crates.reveal.script.controlBlock info script = some control)
    (hcontrol : control.length = 33)
    (hreturn : crates.reveal.isP2wpkh returnOutput.scriptPubkey = true ∨
      crates.reveal.isP2tr returnOutput.scriptPubkey = true)
    (hpublished : commit.output[vout.toNat]? = some published)
    (hscript : published.scriptPubkey = crates.newP2trTweaked info)
    (hvalue : returnOutput.value ≤ published.value) (hlength : signature.length = 64)
    (hsig : crates.reveal.signatureFromSlice signature = .ok sig)
    (hhash : crates.reveal.signatureHash (revealOf ⟨crates.reveal.consensus.computeTxid commit, vout⟩
      returnOutput [signature, script, control]) published script = .ok hash)
    (hschnorr : crates.reveal.verifySchnorr sig hash author.key = .ok ()) :
    ∃ parsed, Envelope.verifyReveal crates.reveal
        (revealOf ⟨crates.reveal.consensus.computeTxid commit, vout⟩ returnOutput
          [signature, script, control]) commit = .ok parsed ∧
      parsed.record = record ∧ parsed.author = author.key := by
  obtain ⟨htaproot, _, outputKey, houtputKey, hcommitment⟩ := h.taproot _ _ _ hinfo
  -- what the witness is built for is what it reveals
  have hinfo' : crates.reveal.script.spendInfo
      (Envelope.recordScript crates.reveal.script record author.key) author.key = .ok info := by
    rw [← hrecord]
    exact hinfo
  obtain ⟨items, hitems, decoded, hextract⟩ := Envelope.extractEnvelope_witness h.builder
    hkey (validateRecord_length hvalid) hlength hinfo'
  rw [← hrecord, witness_eq htree hcontrol hlength, Except.ok.injEq] at hitems
  subst hitems
  obtain ⟨hdecoded, _⟩ := extractEnvelope_control hextract
  have hverified := hcommitment control decoded htree hdecoded
  rw [← hscript] at houtputKey
  refine ⟨⟨author.key, record, Envelope.recordScript crates.reveal.script record author.key,
    decoded⟩, ?_, rfl, rfl⟩
  simp only [Envelope.verifyReveal, Envelope.verifyRecordProof, Envelope.verifyPrevoutProof,
    Envelope.extractRevealEnvelope, Envelope.validateRevealScripts, revealOf_input, revealOf_output,
    revealOf_version, Except.bind_eq_ok, ensure_eq_ok, context_eq_ok, beq_iff_eq, Bool.or_eq_true,
    decide_eq_true_eq]
  rw [← hrecord]
  have hp2tr : crates.reveal.isP2tr published.scriptPubkey = true := by
    rw [hscript]
    exact htaproot
  refine ⟨_, ⟨(), trivial, published, hpublished, _, ⟨(), rfl, (),
    ⟨(), rfl, hreturn⟩, hextract⟩, (), hvalue, (), hp2tr, outputKey, houtputKey, (), ?_,
    signature, rfl, sig, hsig, hash, ?_, (), hschnorr, rfl⟩, (), hvalid, ?_⟩
  · show crates.reveal.verifyTaprootCommitment decoded outputKey _ = true
    rw [← hrecord]
    exact hverified
  · show crates.reveal.signatureHash _ published
      (Envelope.recordScript crates.reveal.script record author.key) = .ok hash
    rw [← hrecord]
    exact hhash
  · rw [← hrecord]

/-- **The reveal that is signed verifies**: it reveals the record of its draft and its author. -/
theorem signReveal_ok (h : crates.Lawful) {author : Author} (hauthor : author.Lawful crates)
    {record control : Bytes} {draft : Draft crates} {returnOutput published : TxOut}
    {commit : Transaction} (hdraft : draft.IsOf record author.key returnOutput control)
    (hreturn : crates.reveal.isP2wpkh returnOutput.scriptPubkey = true)
    (hpublished : commit.output[0]? = some published)
    (hscript : published.scriptPubkey = crates.newP2trTweaked draft.info)
    (hvalue : returnOutput.value ≤ published.value) :
    ∃ signature parsed, signature.length = 64 ∧
      signReveal crates draft author commit published returnOutput =
        .ok (revealOf ⟨crates.reveal.consensus.computeTxid commit, 0⟩ returnOutput
          [signature, draft.script, control]) ∧
      Envelope.verifyReveal crates.reveal
        (revealOf ⟨crates.reveal.consensus.computeTxid commit, 0⟩ returnOutput
          [signature, draft.script, control]) commit = .ok parsed ∧
      parsed.record = record ∧ parsed.author = author.key := by
  let outpoint : OutPoint := ⟨crates.reveal.consensus.computeTxid commit, 0⟩
  have hwitness : (draft.reveal.input.map TxIn.witness).headD [] =
      [List.replicate 64 0, draft.script, control] := by
    rw [hdraft.reveal]
    rfl
  obtain ⟨hash, hhash⟩ := h.signatureHash (revealOf outpoint returnOutput
    [List.replicate 64 0, draft.script, control]) published draft.script rfl
  obtain ⟨signature, hsigned, hlength, sig, hsig, hschnorr⟩ := hauthor.signs hash
  have hhash' : crates.reveal.signatureHash (revealOf outpoint returnOutput
      [signature, draft.script, control]) published draft.script = .ok hash := by
    rw [← hhash]
    exact h.signatureHash_strip _ _ _ _ rfl
  obtain ⟨parsed, hverifies, hrecord, hparsed⟩ := verifyReveal_revealOf h hauthor.key hdraft.valid
    hdraft.script hdraft.info hdraft.tree hdraft.tree_length (Or.inl hreturn)
    (show commit.output[(0 : UInt32).toNat]? = some published from hpublished) hscript hvalue hlength
    hsig hhash' hschnorr
  refine ⟨signature, parsed, hlength, ?_, hverifies, hrecord, hparsed⟩
  rw [signReveal, hwitness]
  simp only [outpoint] at hhash
  simp only [hhash, hsigned, hverifies, PlanCrates.protocol, Except.ok_bind,
    witness_eq hdraft.tree hdraft.tree_length hlength]

/-! ## Fees and change -/

/-- The fees of a record: those of its commit, signed, and those of its reveal. -/
def Draft.fee (draft : Draft crates) (outpoints : List OutPoint) (returnOutput : TxOut)
    (rate : ℕ) : ℕ :=
  signedVsize crates
      (commitOf outpoints { returnOutput with scriptPubkey := crates.newP2trTweaked draft.info }
        returnOutput) * rate +
    crates.vsize draft.reveal * rate

/-- The output a record is published in. -/
def Draft.published (draft : Draft crates) (retained rate : ℕ) : TxOut :=
  ⟨UInt64.ofNat (retained + crates.vsize draft.reveal * rate), crates.newP2trTweaked draft.info⟩

theorem vsize_eq (h : crates.Lawful) (tx : Transaction) : crates.vsize tx = tx.vsize := by
  rw [PublishCrates.vsize, h.weight, Transaction.vsize]

/-- The virtual size of a signed commit depends on the number of its inputs only. -/
theorem signedVsize_commitOf (h : crates.Lawful) {outpoints : List OutPoint}
    {published change : TxOut} (hne : outpoints ≠ []) (hlength : outpoints.length ≤ walletMaxInputs)
    (hpublished : published.scriptPubkey.length = 34) (hchange : change.scriptPubkey.length = 22) :
    signedVsize crates (commitOf outpoints published change) =
      (341 + 273 * outpoints.length) / 4 := by
  have hsmall : outpoints.length < 253 := Nat.lt_of_le_of_lt hlength (by decide)
  rw [signedVsize, vsize_eq h, commit_vsize hsmall hne hpublished hchange]

theorem Draft.IsOf.newP2trTweaked_length (h : crates.Lawful) {record control : Bytes}
    {key : XOnlyPublicKey} {returnOutput : TxOut} {draft : Draft crates}
    (hdraft : draft.IsOf record key returnOutput control) :
    (crates.newP2trTweaked draft.info).length = 34 :=
  (h.taproot _ _ _ hdraft.info).2.1

/-- What a commit costs does not depend on the values of its outputs. -/
theorem Draft.IsOf.fee_eq (h : crates.Lawful) {record control : Bytes} {key : XOnlyPublicKey}
    {returnOutput published : TxOut} {draft : Draft crates}
    (hdraft : draft.IsOf record key returnOutput control) {outpoints : List OutPoint} {rate : ℕ}
    (hne : outpoints ≠ []) (hlength : outpoints.length ≤ walletMaxInputs)
    (hreturn : returnOutput.scriptPubkey.length = 22)
    (hpublished : published.scriptPubkey = crates.newP2trTweaked draft.info) :
    draft.fee outpoints returnOutput rate =
      signedVsize crates (commitOf outpoints published returnOutput) * rate +
        crates.vsize draft.reveal * rate := by
  have htweaked := hdraft.newP2trTweaked_length h
  have hscript : published.scriptPubkey.length = 34 := by rw [hpublished, htweaked]
  rw [Draft.fee, signedVsize_commitOf h hne hlength htweaked hreturn,
    signedVsize_commitOf h hne hlength hscript hreturn]

/-- What a record costs by the number of its inputs and the length of its script. -/
def pairFee (inputs script rate : ℕ) : ℕ :=
  (341 + 273 * inputs) / 4 * rate +
    (433 + (Standard.compactSize script).length + script) / 4 * rate

/-- The virtual size of a reveal depends on the length of its script only. -/
theorem Draft.IsOf.vsize_reveal (h : crates.Lawful) {record control : Bytes}
    {key : XOnlyPublicKey} {returnOutput : TxOut} {draft : Draft crates}
    (hdraft : draft.IsOf record key returnOutput control)
    (hreturn : returnOutput.scriptPubkey.length = 22) :
    crates.vsize draft.reveal =
      (433 + (Standard.compactSize draft.script.length).length + draft.script.length) / 4 := by
  have hweight := @reveal_weight OutPoint.null returnOutput (List.replicate 64 0) draft.script
    control hreturn List.length_replicate hdraft.tree_length
  rw [PublishCrates.vsize, h.weight, hdraft.reveal, hweight]
  omega

theorem Draft.IsOf.fee_eq_pairFee (h : crates.Lawful) {record control : Bytes}
    {key : XOnlyPublicKey} {returnOutput : TxOut} {draft : Draft crates}
    (hdraft : draft.IsOf record key returnOutput control) {outpoints : List OutPoint} {rate : ℕ}
    (hne : outpoints ≠ []) (hlength : outpoints.length ≤ walletMaxInputs)
    (hreturn : returnOutput.scriptPubkey.length = 22) :
    draft.fee outpoints returnOutput rate =
      pairFee outpoints.length
        (Envelope.recordScript crates.reveal.script record key).length rate := by
  rw [Draft.fee, signedVsize_commitOf h hne hlength (hdraft.newP2trTweaked_length h) hreturn,
    hdraft.vsize_reveal h hreturn, hdraft.script, pairFee]

section Settle

variable {record control : Bytes} {key : XOnlyPublicKey} {returnOutput : TxOut}
  {draft : Draft crates} {outpoints : List OutPoint} {available retained rate : ℕ}

/-- What is settled is within the cap and covered by the funding, and leaves change. -/
theorem settle_eq_ok (h : crates.Lawful) (hdraft : draft.IsOf record key returnOutput control)
    (hne : outpoints ≠ []) (hlength : outpoints.length ≤ walletMaxInputs)
    (hreturn : returnOutput.scriptPubkey.length = 22) {settled : Transaction × TxOut}
    (hok : settle crates draft outpoints available returnOutput retained rate = .ok settled) :
    draft.fee outpoints returnOutput rate ≤ 500000 ∧
      draft.fee outpoints returnOutput rate + 2 * retained ≤ available := by
  have hfee := @Draft.IsOf.fee_eq crates h record control key returnOutput
    (draft.published retained rate) draft hdraft outpoints rate hne hlength hreturn rfl
  simp only [settle, revealFee, Except.bind_eq_ok, contextService_eq_ok, checkedMul_eq_some,
    checkedAdd_eq_some, checkedSub_eq_some, ensureService_eq_ok, decide_eq_true_eq] at hok
  obtain ⟨_, ⟨_, rfl⟩, _, ⟨_, rfl⟩, _, ⟨_, rfl⟩, _, hcap, _, ⟨hfunds, rfl⟩, _, hchange, _⟩ := hok
  rw [Draft.published] at hfee
  omega

/-- **What is within the cap and covered by the funding is settled.** -/
theorem settle_ok (h : crates.Lawful) (hdraft : draft.IsOf record key returnOutput control)
    (hne : outpoints ≠ []) (hlength : outpoints.length ≤ walletMaxInputs)
    (hreturn : returnOutput.scriptPubkey.length = 22)
    (hcap : draft.fee outpoints returnOutput rate ≤ 500000)
    (hfunds : draft.fee outpoints returnOutput rate + 2 * retained ≤ available) :
    settle crates draft outpoints available returnOutput retained rate =
      .ok (commitOf outpoints (draft.published retained rate)
        { returnOutput with
          value := UInt64.ofNat
            (available - (draft.fee outpoints returnOutput rate + retained)) },
        draft.published retained rate) := by
  have hfee := @Draft.IsOf.fee_eq crates h record control key returnOutput
    (draft.published retained rate) draft hdraft outpoints rate hne hlength hreturn rfl
  rw [Draft.published] at hfee
  have hmax : 500000 ≤ u64Max := by decide
  have hreveal : checkedMul (crates.vsize draft.reveal) rate =
      some (crates.vsize draft.reveal * rate) := checkedMul_eq_some.mpr ⟨by omega, rfl⟩
  have hcommit := (@checkedMul_eq_some
    (signedVsize crates (commitOf outpoints (draft.published retained rate) returnOutput)) rate
    _).mpr ⟨by rw [Draft.published]; omega, rfl⟩
  have htotal := (@checkedAdd_eq_some
    (signedVsize crates (commitOf outpoints (draft.published retained rate) returnOutput) * rate)
    (crates.vsize draft.reveal * rate) _).mpr ⟨by rw [Draft.published]; omega, rfl⟩
  rw [Draft.published] at hcommit htotal
  rw [← hfee] at htotal
  have hchange := (@checkedSub_eq_some available
    (draft.fee outpoints returnOutput rate + retained) _).mpr ⟨by omega, rfl⟩
  have hleft : retained ≤ available - (draft.fee outpoints returnOutput rate + retained) := by
    omega
  simp only [settle, revealFee, hreveal, hcommit, htotal, hchange, contextService, ensureService,
    decide_eq_true hcap, decide_eq_true hleft, if_true, Except.ok_bind]
  rfl

end Settle

/-! ## Funding -/

/-- What is spent, by what is declared of it: its outputs belong to the account, and no two are
the same. -/
structure Sources (crates : PrepareCrates) (funder : Account crates.PrivateKey)
    (inputs : List FundingInput) (sources : List (OutPoint × TxOut)) : Prop where
  least : inputs ≠ []
  most : inputs.length ≤ walletMaxInputs
  prevout : List.Forall₂ (fun input source =>
    input.funding.prevout crates.toPlanCrates = .ok source ∧
      funder.script crates input.path = .ok source.2.scriptPubkey) inputs sources
  distinct : (sources.map Prod.fst).Nodup

/-- What some sources hold. -/
def held (sources : List (OutPoint × TxOut)) : ℕ :=
  (sources.map fun source => source.2.value.toNat).sum

theorem Sources.length {funder : Account crates.PrivateKey} {inputs : List FundingInput}
    {sources : List (OutPoint × TxOut)} (h : Sources crates funder inputs sources) :
    sources.length = inputs.length :=
  h.prevout.length_eq.symm

theorem Sources.outpoints_ne {funder : Account crates.PrivateKey} {inputs : List FundingInput}
    {sources : List (OutPoint × TxOut)} (h : Sources crates funder inputs sources) :
    sources.map Prod.fst ≠ [] := by
  intro hnil
  apply h.least
  rw [← List.length_eq_zero_iff, ← h.length, ← List.length_map Prod.fst, hnil, List.length_nil]

theorem Sources.outpoints_length {funder : Account crates.PrivateKey}
    {inputs : List FundingInput} {sources : List (OutPoint × TxOut)}
    (h : Sources crates funder inputs sources) :
    (sources.map Prod.fst).length ≤ walletMaxInputs := by
  rw [List.length_map, h.length]
  exact h.most

theorem prevout_value_le {funding : Funding} {source : OutPoint × TxOut}
    (h : funding.prevout crates.toPlanCrates = .ok source) :
    source.2.value.toNat ≤ 2100000000000000 := by
  simp only [Funding.prevout, Except.bind_eq_ok, contextService_eq_ok, ensureService_eq_ok,
    decide_eq_true_eq] at h
  obtain ⟨_, _, _, _, _, _, _, hvalue, hsource⟩ := h
  cases hsource
  exact hvalue

theorem held_le {inputs : List FundingInput} {sources : List (OutPoint × TxOut)}
    (h : List.Forall₂ (fun (input : FundingInput) source =>
      input.funding.prevout crates.toPlanCrates = .ok source) inputs sources) :
    held sources ≤ inputs.length * 2100000000000000 := by
  induction h with
  | nil => exact Nat.le_refl 0
  | cons hfirst hrest ih =>
      have hvalue := prevout_value_le hfirst
      rw [held] at ih ⊢
      rw [List.map_cons, List.sum_cons, List.length_cons, Nat.succ_mul]
      omega

theorem Sources.held_le {funder : Account crates.PrivateKey} {inputs : List FundingInput}
    {sources : List (OutPoint × TxOut)} (h : Sources crates funder inputs sources) :
    held sources ≤ 105000000000000000 := by
  have hheld := Runtime.held_le (h.prevout.imp fun input source hboth => hboth.1)
  have hmost := h.most
  rw [walletMaxInputs] at hmost
  omega

/-- The funding is read in its order, and summed up. -/
theorem prevoutsFrom_ok {inputs : List FundingInput} {sources : List (OutPoint × TxOut)}
    (h : List.Forall₂ (fun (input : FundingInput) source =>
      input.funding.prevout crates.toPlanCrates = .ok source) inputs sources)
    (outpoints : List OutPoint) (outputs : List TxOut) {total : ℕ}
    (hfits : total + held sources ≤ u64Max) :
    prevoutsFrom crates (inputs.map FundingInput.funding) outpoints outputs total =
      .ok (outpoints ++ sources.map Prod.fst, outputs ++ sources.map Prod.snd,
        total + held sources) := by
  induction h generalizing outpoints outputs total with
  | nil => simp [prevoutsFrom, held]
  | cons hfirst hrest ih =>
      rename_i input source inputs sources
      have hheld : held (source :: sources) = source.2.value.toNat + held sources := by
        rw [held, List.map_cons, List.sum_cons, held]
      rw [hheld] at hfits ⊢
      have hsum : checkedAdd total source.2.value.toNat = some (total + source.2.value.toNat) :=
        checkedAdd_eq_some.mpr ⟨by omega, rfl⟩
      rw [List.map_cons, prevoutsFrom, hfirst, Except.ok_bind]
      simp only [hsum, contextService, Except.ok_bind]
      rw [ih _ _ (by omega), List.append_assoc, List.append_assoc, Nat.add_assoc]
      rfl

theorem Sources.prevouts {funder : Account crates.PrivateKey} {inputs : List FundingInput}
    {sources : List (OutPoint × TxOut)} (h : Sources crates funder inputs sources) :
    Runtime.prevouts crates (inputs.map FundingInput.funding) =
      .ok (sources.map Prod.fst, sources.map Prod.snd, held sources) := by
  have hheld := h.held_le
  have hmax : u64Max = 18446744073709551615 := by decide
  have hok := prevoutsFrom_ok (h.prevout.imp fun input source hboth => hboth.1) [] []
    (show 0 + held sources ≤ u64Max by omega)
  rw [Nat.zero_add] at hok
  exact hok

/-! ## Signing -/

/-- An input that is not signed yet. -/
def blank (source : OutPoint × TxOut) : TxIn :=
  ⟨source.1, [], enableRbfNoLocktime, []⟩

/-- **What the account signs verifies**, whatever the other witnesses are. -/
theorem signInputs_ok (h : crates.Lawful) {funder : Account crates.PrivateKey}
    (hfunder : funder.Lawful crates) {tx : Transaction} {inputs : List FundingInput}
    {sources : List (OutPoint × TxOut)}
    (hsources : List.Forall₂ (fun (input : FundingInput) source =>
      funder.script crates input.path = .ok source.2.scriptPubkey) inputs sources)
    {index : ℕ} (hindex : index + sources.length ≤ tx.input.length) :
    ∃ signed : List TxIn,
      funder.signInputs crates tx index ((sources.map blank).zip
        ((sources.map Prod.snd).zip (inputs.map FundingInput.path))) = .ok signed ∧
      signed.map TxIn.strip = sources.map blank ∧
      (∀ input ∈ signed, ∃ signature key, input.witness = [signature, key] ∧
        signature.length ≤ 73 ∧ key.length = 33) ∧
      ∀ (other : Transaction) (seen : List OutPoint), other.strip = tx.strip →
        (sources.map Prod.fst).Nodup → (∀ source ∈ sources, source.1 ∉ seen) →
          Validation.verifyInputs crates.toPlanCrates other index seen (signed.zip sources) =
            .ok () := by
  induction hsources generalizing index with
  | nil =>
      refine ⟨[], rfl, rfl, ?_, fun _ _ _ _ _ => rfl⟩
      intro input hinput
      cases hinput
  | cons hfirst hrest ih =>
      rename_i input source inputs sources
      rw [List.length_cons] at hindex
      obtain ⟨signed, hsigned, hstrip, hwitness, hverifies⟩ := @ih (index + 1) (by omega)
      -- the key of the path, and what it signs
      rw [Account.script] at hfirst
      obtain ⟨key, hkey, hscript⟩ := Except.bind_eq_ok.mp hfirst
      rw [Except.ok.injEq] at hscript
      obtain ⟨child, hchild, rfl⟩ := hfunder.keys _ _ hkey
      have hp2wpkh : crates.reveal.isP2wpkh source.2.scriptPubkey = true := by
        rw [← hscript]
        exact h.newP2wpkh _
      obtain ⟨hash, hhash⟩ := h.p2wpkhSignatureHash tx index source.2.scriptPubkey
        source.2.value (by omega) hp2wpkh
      have hecdsa := h.verifyEcdsa hash child
      refine ⟨{ blank source with witness :=
        [crates.ecdsaSerialize ⟨crates.signEcdsa hash child, .all⟩, crates.publicKey child] } ::
          signed, ?_, ?_, ?_, ?_⟩
      · simp only [List.map_cons, List.zip_cons_cons, Account.signInputs, hhash, hchild, hecdsa,
          hsigned, Except.ok_bind, Account.script, hkey, hscript, ne_eq, not_true_eq_false,
          if_false]
      · rw [List.map_cons, List.map_cons, hstrip]
        rfl
      · intro other hother
        rcases List.mem_cons.mp hother with rfl | hother
        · exact ⟨_, _, rfl, h.ecdsa_length hash child, h.publicKey_length child⟩
        · exact hwitness other hother
      · intro other seen hother hnodup hseen
        rw [List.map_cons, List.nodup_cons] at hnodup
        have hnot : source.1 ∉ seen := hseen source List.mem_cons_self
        have hrest := hverifies other (source.1 :: seen) hother hnodup.2 (by
          intro later hlater hmem
          rcases List.mem_cons.mp hmem with heq | hmem
          · apply hnodup.1
            rw [← heq]
            exact List.mem_map_of_mem hlater
          · exact hseen later (List.mem_cons_of_mem _ hlater) hmem)
        have hhash' : crates.p2wpkhSignatureHash other index source.2.scriptPubkey
            source.2.value .all = .ok hash := by
          rw [h.p2wpkhSignatureHash_strip other tx index _ _ hother, hhash]
        have hcontains : seen.contains source.1 = false := by
          rw [List.contains_eq_mem, decide_eq_false_iff_not]
          exact hnot
        simp only [List.zip_cons_cons, Validation.verifyInputs, Validation.verifyInput,
          Validation.verifyP2wpkhSignature, blank, List.isEmpty_nil, List.length_cons,
          List.length_nil, List.getElem?_cons_zero, List.getElem?_cons_succ, contextService,
          ensureService, h.ecdsaFromSlice, h.publicKey_length, h.compressed, hhash', hecdsa,
          hscript, hcontains, beq_self_eq_true, Bool.not_false, Bool.and_self, if_true,
          Except.ok_bind, Nat.reduceAdd, hrest]

section Sign

variable {funder : Account crates.PrivateKey} {inputs : List FundingInput}
  {sources : List (OutPoint × TxOut)} {published change : TxOut}

theorem commitOf_input (sources : List (OutPoint × TxOut)) (published change : TxOut) :
    (commitOf (sources.map Prod.fst) published change).input = sources.map blank := by
  show (sources.map Prod.fst).map _ = _
  rw [List.map_map]
  rfl

/-- A commit is within the standard weight, signed or not. -/
theorem commit_weight_le {commit : Transaction} (hinputs : commit.input.length ≤ walletMaxInputs)
    (hscripts : ∀ input ∈ commit.input, input.scriptSig = [])
    (houtputs : commit.output = [published, change])
    (hpublished : published.scriptPubkey.length = 34) (hchange : change.scriptPubkey.length = 22)
    (hwitness : Standard.witnessSize commit.input ≤ 109 * commit.input.length) :
    commit.weight ≤ standardTxWeight := by
  rw [walletMaxInputs] at hinputs
  have hbase := commit_base_length (by omega) hscripts houtputs hpublished hchange
  have htotal := Standard.serialize_length_le commit
  rw [Transaction.weight, standardTxWeight]
  omega

theorem sumOf_ok {outputs : List TxOut} {total : ℕ}
    (hfits : total + (outputs.map fun output => output.value.toNat).sum ≤ u64Max) :
    Account.sumOf outputs total =
      .ok (total + (outputs.map fun output => output.value.toNat).sum) := by
  induction outputs generalizing total with
  | nil => rfl
  | cons output outputs ih =>
      rw [List.map_cons, List.sum_cons] at hfits ⊢
      have hsum : checkedAdd total output.value.toNat = some (total + output.value.toNat) :=
        checkedAdd_eq_some.mpr ⟨by omega, rfl⟩
      rw [Account.sumOf, hsum]
      simp only [ih (show total + output.value.toNat + _ ≤ u64Max by omega), Nat.add_assoc]

/-- The budget is that of the fee of the commit. -/
theorem budget_eq (hsources : Sources crates funder inputs sources)
    (hcovered : published.value.toNat + change.value.toNat ≤ held sources) (maximum : ℕ) :
    Account.budget (commitOf (sources.map Prod.fst) published change) (sources.map Prod.snd)
        maximum =
      if held sources - (published.value.toNat + change.value.toNat) > maximum then
        .error (walletError "BudgetExceeded") else .ok () := by
  have hheld := hsources.held_le
  have hmax : u64Max = 18446744073709551615 := by decide
  have hsum : ((sources.map Prod.snd).map fun output => output.value.toNat).sum =
      held sources := by
    rw [held, List.map_map]
    rfl
  have hinputs := @sumOf_ok (sources.map Prod.snd) 0 (by omega)
  have houtputs := @sumOf_ok [published, change] 0 (by
    simp only [List.map_cons, List.map_nil, List.sum_cons, List.sum_nil]
    omega)
  have hfee : checkedSub (held sources) (published.value.toNat + change.value.toNat) =
      some (held sources - (published.value.toNat + change.value.toNat)) :=
    checkedSub_eq_some.mpr ⟨hcovered, rfl⟩
  simp only [List.map_cons, List.map_nil, List.sum_cons, List.sum_nil, Nat.zero_add,
    Nat.add_zero] at houtputs
  rw [hsum, Nat.zero_add] at hinputs
  rw [Account.budget, hinputs, Except.ok_bind]
  show (do
    let outputs ← Account.sumOf [published, change] 0
    _) = _
  rw [houtputs, Except.ok_bind, hfee]

/-- **A commit within the budget is signed**, and its signatures verify. -/
theorem sign_ok (h : crates.Lawful) (hfunder : funder.Lawful crates)
    (hsources : Sources crates funder inputs sources)
    (hpublished : published.scriptPubkey.length = 34) (hchange : change.scriptPubkey.length = 22)
    (hcovered : published.value.toNat + change.value.toNat ≤ held sources) {maximum : ℕ}
    (hbudget : held sources - (published.value.toNat + change.value.toNat) ≤ maximum) :
    ∃ signed, funder.sign crates (commitOf (sources.map Prod.fst) published change)
        (sources.map Prod.snd) maximum (inputs.map FundingInput.path) = .ok signed ∧
      signed.strip = (commitOf (sources.map Prod.fst) published change).strip ∧
      signed.weight ≤ standardTxWeight ∧
      Validation.verifyCommit crates.toPlanCrates signed sources = .ok () := by
  let commit := commitOf (sources.map Prod.fst) published change
  have hinput : commit.input = sources.map blank := commitOf_input sources published change
  have hlength : commit.input.length = sources.length := by rw [hinput, List.length_map]
  obtain ⟨signed, hsigned, hstrip, hwitness, hverifies⟩ := @signInputs_ok crates h funder hfunder
    commit inputs sources (hsources.prevout.imp fun input source hboth => hboth.2) 0
    (by rw [hlength]; omega)
  have hcount : signed.length = sources.length := by
    have hsame := congrArg List.length hstrip
    rwa [List.length_map, List.length_map] at hsame
  refine ⟨{ commit with input := signed }, ?_, ?_, ?_, ?_⟩
  · have hempty : commit.input.isEmpty = false := by
      rw [List.isEmpty_eq_false_iff]
      intro hnil
      apply hsources.least
      rw [← List.length_eq_zero_iff, ← hsources.length, ← hlength, hnil, List.length_nil]
    have hnodup : (commit.input.map TxIn.previousOutput).Nodup := by
      rw [hinput, List.map_map]
      exact hsources.distinct
    have hscripts : commit.input.any (fun input => !input.scriptSig.isEmpty) = false := by
      rw [hinput, List.any_eq_false]
      intro input hmem
      obtain ⟨source, _, rfl⟩ := List.mem_map.mp hmem
      exact Bool.false_ne_true
    have hsame : (commit.input.length ≠ (sources.map Prod.snd).length) = False := by
      rw [hlength, List.length_map]
      exact eq_false fun hne => hne rfl
    have hpaths : (commit.input.length ≠ (inputs.map FundingInput.path).length) = False := by
      rw [hlength, List.length_map, hsources.length]
      exact eq_false fun hne => hne rfl
    have hfee := budget_eq hsources hcovered maximum
    rw [if_neg (Nat.not_lt.mpr hbudget)] at hfee
    rw [← hinput] at hsigned
    rw [Account.sign]
    simp only [commit] at hempty hsame hpaths hnodup hscripts hsigned
    simp only [hempty, hsame, hpaths, hnodup, hscripts, hfee, hsigned, decide_false,
      Bool.or_self, Bool.false_eq_true, not_true_eq_false, or_self, if_false, Except.ok_bind]
    rfl
  · show (⟨_, _, signed.map TxIn.strip, _⟩ : Transaction) = ⟨_, _, commit.input.map TxIn.strip, _⟩
    rw [hstrip, hinput, List.map_map]
    rfl
  · apply @commit_weight_le published change
    case hinputs =>
      show signed.length ≤ _
      rw [hcount, hsources.length]
      exact hsources.most
    case hscripts =>
      intro input hmem
      have hblank : input.strip ∈ sources.map blank := by
        rw [← hstrip]
        exact List.mem_map_of_mem hmem
      obtain ⟨source, _, hsource⟩ := List.mem_map.mp hblank
      exact (congrArg TxIn.scriptSig hsource).symm
    case houtputs => rfl
    case hpublished => exact hpublished
    case hchange => exact hchange
    case hwitness => exact witnessSize_le (by decide : 73 < 253) hwitness
  · have hshape : (signed.length == sources.length && [published, change].length == 2) = true := by
      rw [hcount]
      simp
    show (do
      ensureService (signed.length == sources.length && [published, change].length == 2) _
      Validation.verifyInputs crates.toPlanCrates _ 0 [] (signed.zip sources)) = _
    rw [hshape]
    apply hverifies _ _ _ hsources.distinct
    · intro source _ hmem
      cases hmem
    · show (⟨_, _, signed.map TxIn.strip, _⟩ : Transaction) = ⟨_, _, commit.input.map TxIn.strip, _⟩
      rw [hstrip, hinput, List.map_map]
      rfl

/-- Signing leaves the outputs as they are. -/
theorem sign_output {tx signed : Transaction} {previous : List TxOut} {maximum : ℕ}
    {paths : List KeyPath} (h : funder.sign crates tx previous maximum paths = .ok signed) :
    signed.output = tx.output := by
  rw [Account.sign] at h
  split at h
  · cases h
  · split at h
    · cases h
    · obtain ⟨_, _, h⟩ := Except.bind_eq_ok.mp h
      obtain ⟨_, _, h⟩ := Except.bind_eq_ok.mp h
      cases h
      rfl

end Sign

/-! ## One record -/

/-- What a prepared record is: a commit that spends its sources into the published output and the
change, and a reveal of the record by its author. -/
structure IsPrepared (crates : PrepareCrates) (author : Author) (chain : Chain)
    (inputs : List FundingInput) (sources : List (OutPoint × TxOut)) (returnScript record : Bytes)
    (rate fee : ℕ) (pair : PublicPlan) (commit reveal : Transaction) : Prop where
  pair_eq : pair =
    { version := Format.version.toNat
      chain
      funding := inputs.map FundingInput.funding
      commit := crates.encodeTransaction commit
      reveal := crates.encodeTransaction reveal
      feeRate := rate }
  commit_weight : commit.weight ≤ standardTxWeight
  reveal_weight : reveal.weight ≤ standardTxWeight
  signed : Validation.verifyCommit crates.toPlanCrates commit sources = .ok ()
  outputs : ∃ published : TxOut, commit.output = [published,
      ⟨UInt64.ofNat (held sources - (fee + publicationReturn chain)), returnScript⟩] ∧
    publicationReturn chain ≤ published.value.toNat ∧ published.value.toNat ≤
      publicationReturn chain + fee
  returned : reveal.output = [⟨UInt64.ofNat (publicationReturn chain), returnScript⟩]
  revealed : ∃ parsed, Envelope.verifyReveal crates.reveal reveal commit = .ok parsed ∧
    parsed.author = author.key ∧ parsed.record = record
  covered : fee + 2 * publicationReturn chain ≤ held sources

theorem IsPrepared.decode_reveal (h : crates.Lawful) {author : Author} {chain : Chain}
    {inputs : List FundingInput} {sources : List (OutPoint × TxOut)} {returnScript record : Bytes}
    {rate fee : ℕ} {pair : PublicPlan} {commit reveal : Transaction}
    (hpair : IsPrepared crates author chain inputs sources returnScript record rate fee pair commit
      reveal) : decodeStandard crates.toPublishCrates pair.reveal = .ok reveal := by
  rw [hpair.pair_eq]
  exact decodeBounded_encode h hpair.reveal_weight (by omega)

section Prepare

variable {author : Author} {funder : Account crates.PrivateKey} {inputs : List FundingInput}
  {sources : List (OutPoint × TxOut)} {record returnScript : Bytes} {rate maximum : ℕ}
  {draft : Draft crates}

/-- The output that value returns to. -/
def returnOutput (chain : Chain) (returnScript : Bytes) : TxOut :=
  ⟨UInt64.ofNat (publicationReturn chain), returnScript⟩

theorem publicationReturn_bounds (chain : Chain) :
    1000 ≤ publicationReturn chain ∧ publicationReturn chain ≤ 3300 := by
  cases chain <;> decide

theorem toNat_ofNat_of_lt {n : ℕ} (h : n < 2 ^ 64) : (UInt64.ofNat n).toNat = n :=
  UInt64.toNat_ofNat_of_lt' h

/-- `prepare_bytes`, of sources that are declared. -/
theorem prepareBytes_eq (hsources : Sources crates funder inputs sources)
    (hrate : 1 ≤ rate ∧ rate ≤ 100) (hreturn : crates.reveal.isP2wpkh returnScript = true)
    (chain : Chain) :
    prepareBytes crates record author (inputs.map FundingInput.funding) returnScript chain rate =
      (do
        let draft ← Runtime.draft crates record author.key (returnOutput chain returnScript)
        let (commit, published) ← settle crates draft (sources.map Prod.fst) (held sources)
          (returnOutput chain returnScript) (publicationReturn chain) rate
        let reveal ← signReveal crates draft author commit published
          (returnOutput chain returnScript)
        .ok
          { version := Format.version.toNat
            chain
            funding := inputs.map FundingInput.funding
            commit := crates.encodeTransaction commit
            reveal := crates.encodeTransaction reveal
            feeRate := rate }) := by
  have hleast : 1 ≤ (inputs.map FundingInput.funding).length := by
    rw [List.length_map]
    exact List.length_pos_iff.mpr hsources.least
  have hmost : (inputs.map FundingInput.funding).length ≤ walletMaxInputs := by
    rw [List.length_map]
    exact hsources.most
  simp only [prepareBytes, ensureService, decide_eq_true hrate.1, decide_eq_true hrate.2,
    decide_eq_true hleast, decide_eq_true hmost, hreturn, Bool.and_self, if_true, Except.ok_bind,
    hsources.prevouts, returnOutput]

/-- `prepare_signed_bytes`, of sources that are declared. -/
theorem prepareSignedBytes_eq (hsources : Sources crates funder inputs sources)
    {genesis : Bytes32} (hgenesis : crates.genesis funder.chain = .ok genesis)
    (hscript : funder.receiveScript crates = .ok returnScript) :
    prepareSignedBytes crates record author funder inputs ⟨genesis, rate, maximum⟩ =
      (do
        let plan ← prepareBytes crates record author (inputs.map FundingInput.funding) returnScript
          funder.chain rate
        let commit ← decodeStandard crates.toPublishCrates plan.commit
        let signed ← funder.sign crates commit (sources.map Prod.snd) maximum
          (inputs.map FundingInput.path)
        let reveal ← decodeStandard crates.toPublishCrates plan.reveal
        let fee ← feeWithin (held sources) signed reveal maximum
        .ok ⟨{ plan with commit := crates.encodeTransaction signed }, fee⟩) := by
  simp only [prepareSignedBytes, hgenesis, ensureService, beq_self_eq_true, if_true,
    Except.ok_bind, hsources.prevouts, hscript]

/-- **A record within the cap that its funding covers** is prepared if its fee is within the
budget, and refused if not. -/
theorem prepareSignedBytes_covered (h : crates.Lawful) (hauthor : author.Lawful crates)
    (hfunder : funder.Lawful crates) (hsources : Sources crates funder inputs sources)
    {genesis : Bytes32} (hgenesis : crates.genesis funder.chain = .ok genesis)
    (hscript : funder.receiveScript crates = .ok returnScript)
    (hrate : 1 ≤ rate ∧ rate ≤ 100) (hreturn : crates.reveal.isP2wpkh returnScript = true)
    {control : Bytes}
    (hdraft : Runtime.draft crates record author.key (returnOutput funder.chain returnScript) =
      .ok draft)
    (hdraftOf : draft.IsOf record author.key (returnOutput funder.chain returnScript) control)
    {fee : ℕ} (hfee : draft.fee (sources.map Prod.fst) (returnOutput funder.chain returnScript)
      rate = fee)
    (hcap : fee ≤ 500000) (hcovered : fee + 2 * publicationReturn funder.chain ≤ held sources) :
    (fee ≤ maximum → ∃ pair commit reveal,
      prepareSignedBytes crates record author funder inputs ⟨genesis, rate, maximum⟩ =
        .ok ⟨pair, fee⟩ ∧
      IsPrepared crates author funder.chain inputs sources returnScript record rate fee pair commit
        reveal) ∧
    (maximum < fee → ∃ error,
      prepareSignedBytes crates record author funder inputs ⟨genesis, rate, maximum⟩ =
        .error error) := by
  let retained := publicationReturn funder.chain
  let output := returnOutput funder.chain returnScript
  let change : TxOut := ⟨UInt64.ofNat (held sources - (fee + retained)), returnScript⟩
  let published := draft.published retained rate
  let commit := commitOf (sources.map Prod.fst) published change
  obtain ⟨hleastReturn, hmostReturn⟩ := publicationReturn_bounds funder.chain
  have hheld := hsources.held_le
  have hreturnLength : output.scriptPubkey.length = 22 := h.p2wpkh_length _ hreturn
  have hne := hsources.outpoints_ne
  have hlength := hsources.outpoints_length
  have hpublishedLength : published.scriptPubkey.length = 34 := hdraftOf.newP2trTweaked_length h
  -- the fee of the reveal is part of the fee
  have hsplit := @Draft.IsOf.fee_eq crates h record control author.key output published draft
    hdraftOf (sources.map Prod.fst) rate hne hlength hreturnLength rfl
  rw [hfee] at hsplit
  have hpublished : published.value.toNat = retained + crates.vsize draft.reveal * rate :=
    toNat_ofNat_of_lt (by omega)
  have hchange : change.value.toNat = held sources - (fee + retained) :=
    toNat_ofNat_of_lt (by omega)
  have houtput : output.value.toNat = retained := toNat_ofNat_of_lt (by omega)
  have hsettle := @settle_ok crates record control author.key output draft (sources.map Prod.fst)
    (held sources) retained rate h hdraftOf hne hlength hreturnLength (by rw [hfee]; exact hcap)
    (by rw [hfee]; exact hcovered)
  rw [hfee] at hsettle
  obtain ⟨signature, parsed, hsignature, hreveal, hverified, hrecord, hkey⟩ :=
    @signReveal_ok crates h author hauthor record control draft output published commit hdraftOf
      hreturn rfl rfl (by rw [UInt64.le_iff_toNat_le, hpublished, houtput]; omega)
  let reveal := revealOf ⟨crates.reveal.consensus.computeTxid commit, 0⟩ output
    [signature, draft.script, control]
  have hrevealWeight : reveal.weight ≤ standardTxWeight := by
    have hweight := @reveal_weight_le crates h record signature control author.key
      ⟨crates.reveal.consensus.computeTxid commit, 0⟩ output (validateRecord_length hdraftOf.valid)
      hreturnLength hsignature hdraftOf.tree_length
    rwa [← hdraftOf.script] at hweight
  have hcommitWeight : commit.weight ≤ standardTxWeight := by
    apply @commit_weight_le published change
    case hinputs =>
      rw [commitOf_input, List.length_map, hsources.length]
      exact hsources.most
    case hscripts =>
      intro input hmem
      rw [commitOf_input] at hmem
      obtain ⟨source, _, rfl⟩ := List.mem_map.mp hmem
      rfl
    case houtputs => rfl
    case hpublished => exact hpublishedLength
    case hchange => exact hreturnLength
    case hwitness =>
      rw [commitOf_input, Standard.witnessSize, List.map_map, List.length_map]
      have hone : sources.map ((fun input => (Standard.counted Standard.lengthed
          input.witness).length) ∘ blank) = List.replicate sources.length 1 := by
        rw [List.eq_replicate_iff]
        refine ⟨List.length_map _, ?_⟩
        intro size hsize
        obtain ⟨source, _, rfl⟩ := List.mem_map.mp hsize
        rfl
      rw [hone, List.sum_replicate_nat]
      omega
  have hbytes : prepareBytes crates record author (inputs.map FundingInput.funding) returnScript
      funder.chain rate = .ok
        { version := Format.version.toNat
          chain := funder.chain
          funding := inputs.map FundingInput.funding
          commit := crates.encodeTransaction commit
          reveal := crates.encodeTransaction reveal
          feeRate := rate } := by
    rw [prepareBytes_eq hsources hrate hreturn, hdraft, Except.ok_bind]
    have hsettled : settle crates draft (sources.map Prod.fst) (held sources)
        (returnOutput funder.chain returnScript) (publicationReturn funder.chain) rate =
          .ok (commit, published) := hsettle
    have hrevealed : signReveal crates draft author commit published
        (returnOutput funder.chain returnScript) = .ok reveal := hreveal
    simp only [hsettled, hrevealed, Except.ok_bind]
  have hcommit := @decodeBounded_encode crates h commit (standardTxWeight * 2) hcommitWeight
    (by omega)
  have hrevealDecoded := @decodeBounded_encode crates h reveal (standardTxWeight * 2) hrevealWeight
    (by omega)
  have hwithin : ∀ signed : Transaction, signed.output = [published, change] →
      feeWithin (held sources) signed reveal maximum =
        if fee > maximum then .error (walletError "BudgetExceeded") else .ok fee := by
    intro signed hsigned
    have hsum : checkedAdd change.value.toNat output.value.toNat =
        some (held sources - fee) := by
      rw [checkedAdd_eq_some, hchange, houtput]
      have hmax : u64Max = 18446744073709551615 := by decide
      omega
    have hdifference : checkedSub (held sources) (held sources - fee) = some fee := by
      rw [checkedSub_eq_some]
      omega
    simp only [feeWithin, hsigned, reveal, revealOf_output, List.getElem?_cons_succ,
      List.getElem?_cons_zero, contextService, Except.ok_bind, hsum, hdifference]
  rw [prepareSignedBytes_eq hsources hgenesis hscript, hbytes, Except.ok_bind]
  simp only [decodeStandard, hcommit, hrevealDecoded, Except.ok_bind]
  have hpaid : published.value.toNat ≤ retained + fee := by omega
  have hspent : published.value.toNat + change.value.toNat ≤ held sources := by omega
  constructor
  · intro hbudget
    obtain ⟨signed, hsigned, hstrip, hweight, hverify⟩ := @sign_ok crates funder inputs sources
      published change h hfunder hsources hpublishedLength hreturnLength hspent maximum (by omega)
    have houtputs : signed.output = [published, change] := Transaction.output_eq_of_strip hstrip
    have hsame := hwithin signed houtputs
    rw [if_neg (Nat.not_lt.mpr hbudget)] at hsame
    have htxid := h.computeTxid signed commit hstrip
    refine ⟨_, signed, reveal, ?_, rfl, hweight, hrevealWeight, hverify,
      ⟨published, houtputs, by omega, hpaid⟩, rfl, ⟨parsed, ?_, hkey, hrecord⟩, hcovered⟩
    · have hsigned : funder.sign crates commit (sources.map Prod.snd) maximum
          (inputs.map FundingInput.path) = .ok signed := hsigned
      simp only [hsigned, hsame, Except.ok_bind]
    · rw [Envelope.verifyReveal_congr htxid houtputs]
      exact hverified
  · intro hbudget
    cases hsign : funder.sign crates commit (sources.map Prod.snd) maximum
      (inputs.map FundingInput.path) with
    | error error => exact ⟨error, rfl⟩
    | ok signed =>
        have hsame := hwithin signed (sign_output hsign)
        rw [if_pos hbudget] at hsame
        simp only [hsame, Except.ok_bind]
        exact ⟨_, rfl⟩

/-- **A record beyond the cap, or that its funding does not cover,** is refused. -/
theorem prepareSignedBytes_uncovered (h : crates.Lawful)
    (hsources : Sources crates funder inputs sources)
    {genesis : Bytes32} (hgenesis : crates.genesis funder.chain = .ok genesis)
    (hscript : funder.receiveScript crates = .ok returnScript)
    (hrate : 1 ≤ rate ∧ rate ≤ 100) (hreturn : crates.reveal.isP2wpkh returnScript = true)
    {control : Bytes}
    (hdraft : Runtime.draft crates record author.key (returnOutput funder.chain returnScript) =
      .ok draft)
    (hdraftOf : draft.IsOf record author.key (returnOutput funder.chain returnScript) control)
    {fee : ℕ} (hfee : draft.fee (sources.map Prod.fst) (returnOutput funder.chain returnScript)
      rate = fee)
    (hnot : ¬ (fee ≤ 500000 ∧ fee + 2 * publicationReturn funder.chain ≤ held sources)) :
    ∃ error, prepareSignedBytes crates record author funder inputs ⟨genesis, rate, maximum⟩ =
      .error error := by
  have hsettle : ∃ error, settle crates draft (sources.map Prod.fst) (held sources)
      (returnOutput funder.chain returnScript) (publicationReturn funder.chain) rate =
        .error error := by
    cases hsettled : settle crates draft (sources.map Prod.fst) (held sources)
      (returnOutput funder.chain returnScript) (publicationReturn funder.chain) rate with
    | error error => exact ⟨error, rfl⟩
    | ok settled =>
        apply absurd _ hnot
        rw [← hfee]
        exact settle_eq_ok h hdraftOf hsources.outpoints_ne hsources.outpoints_length
          (h.p2wpkh_length _ hreturn) hsettled
  obtain ⟨error, hsettle⟩ := hsettle
  refine ⟨error, ?_⟩
  rw [prepareSignedBytes_eq hsources hgenesis hscript, prepareBytes_eq hsources hrate hreturn,
    hdraft, Except.ok_bind, hsettle]
  rfl

/-- A record that is not of the format is refused, whatever the funding. -/
theorem prepareSignedBytes_refused (hsources : Sources crates funder inputs sources)
    {genesis : Bytes32} (hgenesis : crates.genesis funder.chain = .ok genesis)
    (hscript : funder.receiveScript crates = .ok returnScript)
    (hrate : 1 ≤ rate ∧ rate ≤ 100) (hreturn : crates.reveal.isP2wpkh returnScript = true)
    {error : Error} (hrecord : Envelope.validateRecord record = .error error) :
    prepareSignedBytes crates record author funder inputs ⟨genesis, rate, maximum⟩ =
      .error (.message (crates.display error)) := by
  rw [prepareSignedBytes_eq hsources hgenesis hscript, prepareBytes_eq hsources hrate hreturn,
    draft_error hrecord]
  rfl

end Prepare

end Urma.Runtime
