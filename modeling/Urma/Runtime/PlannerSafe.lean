import Urma.Runtime.PlannerFunded
import Urma.Web.StoreAuthentic

/-!
# Planning to the end

A planner that was given its minimum prepares record after record: each of them is prepared, or
its fee goes beyond the approved maximum, or the format or the accepted amounts refuse it. What is
prepared to the end validates with the fees and the root of the plan, on disk or in memory.
-/

namespace Urma.Runtime

open Chain Lib

namespace Planner

variable {crates : PrepareCrates} {author : Author} {funder : Account crates.PrivateKey}

/-! ## The plan that is held in memory -/

/-- A planner that holds other records. -/
def withRecords (planner : Planner) (records : List PublicPlan) : Planner :=
  { planner with plan := { planner.plan with records } }

/-- Preparing a record does not look at the records that are held. -/
theorem prepareRecord_withRecords {planner next : Planner} {record : Bytes}
    {reference : ChildReference} {pair : PublicPlan} (records : List PublicPlan)
    (hprepare : planner.prepareRecord crates author funder record = .ok (reference, pair, next)) :
    (planner.withRecords records).prepareRecord crates author funder record =
        .ok (reference, pair, next.withRecords records) ∧
      next.plan.records = planner.plan.records := by
  simp only [prepareRecord, Except.bind_eq_ok] at hprepare
  obtain ⟨genesis, hgenesis, _, hrate, prepared, hprepared, reveal, hreveal, total, htotal, _,
    hwithin, hlast⟩ := hprepare
  cases hlast
  refine ⟨?_, rfl⟩
  rw [prepareRecord]
  simp only [withRecords, hgenesis, hrate, hprepared, hreveal, htotal, Except.ok_bind]
  exact Except.bind_eq_ok.mpr ⟨_, hwithin, rfl⟩

/-- Appending the records to a plan in memory is preparing them. -/
theorem appendAll_prepareAll {records : List Bytes} {planner last : Planner}
    (hall : planner.appendAll crates author funder records = .ok last)
    {held : List PublicPlan} {start : Planner} (hstart : planner = start.withRecords held) :
    ∃ pairs final, start.prepareAll crates author funder records = .ok (pairs, final) ∧
      last = final.withRecords (held ++ pairs) := by
  induction records generalizing planner held start with
  | nil =>
      cases hall
      exact ⟨[], start, rfl, by rw [hstart, List.append_nil]⟩
  | cons record records ih =>
      simp only [appendAll, append, Except.bind_eq_ok] at hall
      obtain ⟨⟨_, next⟩, ⟨⟨reference, pair, prepared⟩, hprepare, happended⟩, hrest⟩ := hall
      cases happended
      have hrecords : planner.plan.records = held := by rw [hstart]; rfl
      obtain ⟨hbare, hkept⟩ := prepareRecord_withRecords start.plan.records hprepare
      have hbare' : start.prepareRecord crates author funder record =
          .ok (reference, pair, prepared.withRecords start.plan.records) := by
        rw [← hbare, hstart]
        rfl
      obtain ⟨pairs, final, hprepared, hlast⟩ := @ih _ hrest (held ++ [pair])
        (prepared.withRecords start.plan.records) (by rw [hkept, hrecords]; rfl)
      refine ⟨pair :: pairs, final, ?_, ?_⟩
      · simp only [prepareAll, hbare', hprepared, Except.ok_bind]
      · rw [hlast, List.append_assoc]
        rfl

/-! ## The first planner -/

/-- What the minimum demands is enough for all records and for the change. -/
theorem minimum_eq_ok {chain : Chain} {limits : PlanLimits} {records least : ℕ}
    (hminimum : minimum chain limits records = .ok least) :
    0 < records ∧ 1 ≤ limits.feeRate ∧ limits.feeRate ≤ 100 ∧ 0 < limits.maxFee ∧
      limits.maxFee ≤ u64Max ∧
      least = limits.maxFee + (records + 1) * publicationReturn chain := by
  simp only [minimum, Except.bind_eq_ok, ensureService_eq_ok, Bool.and_eq_true,
    decide_eq_true_eq] at hminimum
  obtain ⟨_, ⟨hpositive, _⟩, _, ⟨⟨hleast, hmost⟩, hfee⟩, hsum⟩ := hminimum
  obtain ⟨hfits, rfl⟩ := checkedAdd_eq_some.mp (contextService_eq_ok.mp hsum)
  exact ⟨hpositive, hleast, hmost, hfee, by omega, rfl⟩

/-- A planner that was given its minimum is ready for its records. -/
theorem funded_ready {limits : PlanLimits} {inputs : List FundingInput}
    {sources : List (OutPoint × TxOut)} {records least : ℕ} {planner : Planner}
    (hsources : Sources crates funder inputs sources)
    (hminimum : minimum funder.chain limits records = .ok least) (hleast : least ≤ held sources)
    (hfunded : funded crates author funder funder.chain limits inputs = .ok planner) :
    Ready crates funder planner sources records := by
  obtain ⟨_, hrate, hrates, _, hfits, hamount⟩ := minimum_eq_ok hminimum
  simp only [funded, Except.bind_eq_ok] at hfunded
  obtain ⟨script, _, hplanner⟩ := hfunded
  cases hplanner
  refine ⟨⟨hsources, rfl, ⟨hrate, hrates⟩, hfits⟩, Nat.zero_le _, ?_⟩
  show limits.maxFee - 0 + _ ≤ _
  omega

/-- The empty run of a planner that was just funded. -/
theorem funded_underway {limits : PlanLimits} {inputs : List FundingInput} {planner : Planner}
    (hfunded : funded crates author funder funder.chain limits inputs = .ok planner)
    {returnScript : Bytes} : Underway crates author funder returnScript planner [] planner .new := by
  simp only [funded, Except.bind_eq_ok] at hfunded
  obtain ⟨script, _, hplanner⟩ := hfunded
  cases hplanner
  exact ⟨rfl, rfl, rfl, rfl, Nat.zero_le _, rfl, rfl, fun hne => absurd rfl hne⟩

/-- The plan of a run validates, with its fees and its root. -/
theorem Underway.validates (h : crates.Lawful) {limits : PlanLimits} {inputs : List FundingInput}
    {returnScript : Bytes} (hscript : funder.receiveScript crates = .ok returnScript)
    (hreturn : crates.reveal.isP2wpkh returnScript = true) {first last : Planner}
    (hfunded : funded crates author funder funder.chain limits inputs = .ok first)
    {pairs : List PublicPlan} {state : Validation}
    (hunder : Underway crates author funder returnScript first pairs last state) :
    Validation.returnScript crates.toPlanCrates last.plan.returnScript = .ok returnScript ∧
      Validation.appendAll crates.toPlanCrates last.plan.chain last.plan.author returnScript pairs
        .new = .ok state ∧
      state.finish last.plan.totalFee last.plan.rootTxid = .ok () := by
  simp only [funded, hscript, Except.ok_bind] at hfunded
  cases hfunded
  refine ⟨?_, ?_, ?_⟩
  · rw [hunder.plan]
    simp only [Validation.returnScript, h.hexDecode, hreturn, ensureService, if_true,
      Except.ok_bind]
  · rw [hunder.plan]
    exact hunder.validated
  · rw [Validation.finish, ensureService_eq_ok, Bool.and_eq_true, beq_iff_eq, beq_iff_eq]
    exact ⟨hunder.total, hunder.last⟩

/-- As many records are prepared as there are. -/
theorem prepareAll_length {records : List Bytes} {planner last : Planner} {pairs : List PublicPlan}
    (hall : planner.prepareAll crates author funder records = .ok (pairs, last)) :
    pairs.length = records.length := by
  induction records generalizing planner pairs with
  | nil =>
      cases hall
      rfl
  | cons record records ih =>
      simp only [prepareAll, Except.bind_eq_ok] at hall
      obtain ⟨⟨reference, pair, next⟩, _, ⟨others, final⟩, hrest, hlast⟩ := hall
      cases hlast
      rw [List.length_cons, List.length_cons, ih hrest]

/-- A plan that holds the records of its run is finished. -/
theorem Underway.finish (h : crates.Lawful) {limits : PlanLimits} {inputs : List FundingInput}
    {returnScript : Bytes} (hscript : funder.receiveScript crates = .ok returnScript)
    (hreturn : crates.reveal.isP2wpkh returnScript = true) {first last : Planner}
    (hfunded : funded crates author funder funder.chain limits inputs = .ok first)
    (hbudget : 0 < limits.maxFee) {pairs : List PublicPlan} {state : Validation}
    (hunder : Underway crates author funder returnScript first pairs last state)
    (hsome : 0 < pairs.length) (hfew : pairs.length ≤ PublicationPlan.maxRecords) :
    (last.withRecords pairs).finish crates = .ok (last.withRecords pairs).plan := by
  obtain ⟨hread, hvalid, hfinish⟩ := hunder.validates h hscript hreturn hfunded
  have hspent := hunder.spent
  rw [hunder.limits] at hspent
  have hplan := hunder.plan
  simp only [funded, hscript, Except.ok_bind] at hfunded
  cases hfunded
  have hversion : last.plan.version = 1 := by rw [hplan]
  have hmaximum : last.plan.maximumFee = limits.maxFee := by rw [hplan]
  have hempty : pairs.isEmpty = false := by
    rw [List.isEmpty_eq_false_iff]
    exact List.length_pos_iff.mp hsome
  have hspent' : last.plan.totalFee ≤ limits.maxFee := hspent
  simp only [Planner.finish, withRecords, PublicationPlan.validate, hversion, hmaximum, hempty,
    decide_eq_true hfew, decide_eq_true hspent', decide_eq_true hbudget, hread, hvalid, hfinish,
    ensureService, beq_self_eq_true, Bool.not_false, Bool.and_self, if_true, Except.ok_bind]

/-- How a record ends for a planner that was funded, whatever is to come. -/
theorem outcome_of_funds (h : crates.Lawful) (hauthor : author.Lawful crates)
    (hfunder : funder.Lawful crates) {planner : Planner} {remaining : ℕ} {returnScript : Bytes}
    (hscript : funder.receiveScript crates = .ok returnScript)
    (hreturn : crates.reveal.isP2wpkh returnScript = true)
    (hfunds : (∃ sources, Ready crates funder planner sources (remaining + 1)) ∨
      Stuck crates funder planner) (record : Bytes) :
    Outcome crates author funder planner record remaining := by
  rcases hfunds with ⟨sources, hready⟩ | hstuck
  · exact outcome_ready h hauthor hfunder hready hscript hreturn record
  · exact .overfull hstuck.overfull (prepareRecord_stuck hfunder hstuck record)

/-- **A funded plan is not stranded.** From the minimum, every record of a plan is prepared and
leaves what the records after it need, or its fee goes beyond the approved maximum or the cap, or
it is no record, or the change before it is above the amount a funding may have; and what is
prepared to the end validates, with the fees and the root of the plan. -/
theorem never_strands (h : crates.Lawful) (hauthor : author.Lawful crates)
    (hfunder : funder.Lawful crates) (limits : PlanLimits) (inputs : List FundingInput)
    (sources : List (OutPoint × TxOut)) (records : List Bytes) (least : ℕ) (planner : Planner)
    (hsources : Sources crates funder inputs sources) (hrecords : records.length ≤ u32Max)
    (hminimum : minimum funder.chain limits records.length = .ok least)
    (hleast : least ≤ held sources)
    (hfunded : funded crates author funder funder.chain limits inputs = .ok planner) :
    (∀ before record after, records = before ++ record :: after → ∀ pairs next,
      planner.prepareAll crates author funder before = .ok (pairs, next) →
        Outcome crates author funder next record after.length) ∧
    (∀ pairs last, planner.prepareAll crates author funder records = .ok (pairs, last) →
      ∃ returnScript state,
        Validation.returnScript crates.toPlanCrates last.plan.returnScript = .ok returnScript ∧
        Validation.appendAll crates.toPlanCrates last.plan.chain last.plan.author returnScript pairs
          .new = .ok state ∧
        state.finish last.plan.totalFee last.plan.rootTxid = .ok ()) ∧
    (∀ last, planner.appendAll crates author funder records = .ok last →
      records.length ≤ PublicationPlan.maxRecords →
        last.finish crates = .ok last.plan) := by
  obtain ⟨key, hkey⟩ := hfunder.receive
  have hscript : funder.receiveScript crates = .ok (crates.newP2wpkh key) := by
    rw [Account.receiveScript, Account.script, hkey]
    rfl
  have hreturn := h.newP2wpkh key
  have hready := funded_ready hsources hminimum hleast hfunded
  have hstart := @funded_underway crates author funder limits inputs planner hfunded
    (crates.newP2wpkh key)
  have hrun : ∀ {before pairs next remaining}, before.length + remaining = records.length →
      planner.prepareAll crates author funder before = .ok (pairs, next) →
      ∃ state, Underway crates author funder (crates.newP2wpkh key) planner pairs next state ∧
        ((∃ sources, Ready crates funder next sources remaining) ∨ Stuck crates funder next) := by
    intro before pairs next remaining hcount hall
    rw [← hcount] at hready
    exact hstart.run h hauthor hfunder hscript hreturn (.inl ⟨sources, hready⟩)
      (by rw [List.length_nil]; omega) hall
  refine ⟨?_, ?_, ?_⟩
  · intro before record after hsplit pairs next hall
    have hcount : before.length + (after.length + 1) = records.length := by
      rw [hsplit, List.length_append, List.length_cons]
    obtain ⟨state, _, hfunds⟩ := hrun hcount hall
    exact outcome_of_funds h hauthor hfunder hscript hreturn hfunds record
  · intro pairs last hall
    obtain ⟨state, hunder, _⟩ := hrun (Nat.add_zero _) hall
    exact ⟨_, state, hunder.validates h hscript hreturn hfunded⟩
  · intro last hall hcount
    obtain ⟨pairs, final, hprepared, hlast⟩ := appendAll_prepareAll hall
      (show planner = planner.withRecords planner.plan.records from rfl)
    obtain ⟨state, hunder, _⟩ := hrun (Nat.add_zero _) hprepared
    have hheld : planner.plan.records = [] := by
      simp only [funded, hscript, Except.ok_bind] at hfunded
      cases hfunded
      rfl
    have hpairs := prepareAll_length hprepared
    obtain ⟨hsome, _, _, hbudget, _⟩ := minimum_eq_ok hminimum
    rw [hlast, hheld, List.nil_append]
    exact hunder.finish h hscript hreturn hfunded hbudget (by omega) (by omega)

end Planner

namespace Planning.Sample

/-- A digit of `hex::decode`. -/
def hexValue (char : Char) : Option ℕ :=
  if 48 ≤ char.toNat ∧ char.toNat ≤ 57 then some (char.toNat - 48)
  else if 97 ≤ char.toNat ∧ char.toNat ≤ 102 then some (char.toNat - 87)
  else if 65 ≤ char.toNat ∧ char.toNat ≤ 70 then some (char.toNat - 55)
  else none

/-- `hex::decode`, of characters. -/
def unhexChars : List Char → Option Bytes
  | [] => some []
  | high :: low :: rest => do
      let high ← hexValue high
      let low ← hexValue low
      let rest ← unhexChars rest
      some (UInt8.ofNat (16 * high + low) :: rest)
  | [_] => none

def hexDecode (text : String) : Except ServiceError Bytes :=
  contextService (unhexChars text.toList) "invalid hexadecimal"

theorem hexValue_hexDigit {value : ℕ} (h : value < 16) :
    hexValue (Web.hexDigit value) = some value := by
  have hall : ∀ value : Fin 16, hexValue (Web.hexDigit value) = some value.val := by decide
  exact hall ⟨value, h⟩

theorem hexDecode_hexEncode (bytes : Bytes) :
    hexDecode (Web.hexEncode bytes) = .ok bytes := by
  have hchars : unhexChars (Web.hexChars bytes) = some bytes := by
    induction bytes with
    | nil => rfl
    | cons byte bytes ih =>
        have hbyte := byte.toNat_lt
        have hsplit : UInt8.ofNat (16 * (byte.toNat / 16) + byte.toNat % 16) = byte := by
          rw [Nat.div_add_mod]
          exact UInt8.ofNat_toNat
        rw [Web.hexChars] at ih ⊢
        simp only [List.flatMap_cons, List.cons_append, List.nil_append, unhexChars,
          hexValue_hexDigit (show byte.toNat / 16 < 16 by omega),
          hexValue_hexDigit (show byte.toNat % 16 < 16 by omega), ih, hsplit, Option.bind_eq_bind,
          Option.bind_some]
  rw [hexDecode, Web.hexEncode, String.toList_ofList, hchars, contextService]

theorem hexDigit_size {value : ℕ} (h : value < 16) : (Web.hexDigit value).utf8Size = 1 := by
  have hall : ∀ value : Fin 16, (Web.hexDigit value).utf8Size = 1 := by decide
  exact hall ⟨value, h⟩

theorem hexEncode_size (bytes : Bytes) :
    (Web.hexEncode bytes).utf8ByteSize = 2 * bytes.length := by
  induction bytes with
  | nil => rfl
  | cons byte bytes ih =>
      have hbyte := byte.toNat_lt
      rw [Web.hexEncode, Web.hexChars] at ih ⊢
      rw [List.flatMap_cons, List.cons_append, List.cons_append, List.nil_append,
        String.ofList_cons, String.ofList_cons, String.utf8ByteSize_append,
        String.utf8ByteSize_append, String.utf8ByteSize_singleton, String.utf8ByteSize_singleton,
        hexDigit_size (by omega), hexDigit_size (by omega), ih, List.length_cons]
      omega

/-- Crates with the standard encoding of transactions, whose signatures are all accepted. -/
def crates : PrepareCrates where
  reveal :=
    { script := Envelope.Sample.library
      consensus := .standard
      isP2wpkh := fun script => script.length == 22 && script.take 2 == [0, 20]
      isP2tr := fun script => script.length == 34 && script.take 2 == [81, 32]
      verifyTaprootCommitment := fun _ _ _ => true
      signatureFromSlice := .ok
      signatureHash := fun _ _ _ => .ok zeroHash
      verifySchnorr := fun _ _ _ => .ok () }
  sha256 := Sha256.hash
  decodeHex raw := do
    let bytes ← hexDecode raw
    match Standard.deserialize bytes with
    | .ok transaction => .ok transaction
    | .error _ => .error (.message "data not consumed entirely")
  weight := Transaction.weight
  genesis _ := .ok zeroHash
  display _ := "invalid record"
  hexDecode := hexDecode
  displayTxid txid := Web.hexEncode txid.bytes.toList.reverse
  displayKey key := Web.hexEncode key.serialize.toList
  ecdsaFromSlice bytes := .ok ⟨bytes.dropLast, .all⟩
  compressedFromSlice := .ok
  newP2wpkh key := 0 :: 20 :: (Sha256.hash key).toList.take 20
  p2wpkhSignatureHash _ _ _ _ _ := .ok zeroHash
  verifyEcdsa _ _ _ := .ok ()
  PrivateKey := Bytes32
  encodeTransaction tx := Web.hexEncode (Standard.serialize tx)
  hexEncode := Web.hexEncode
  newP2trTweaked info := 81 :: 32 :: info.2.serialize.toList
  publicKey key := 2 :: key.toList
  signEcdsa _ _ := List.replicate 70 48
  ecdsaSerialize signature := signature.signature ++ [1]

theorem crates_lawful : crates.Lawful where
  builder := Envelope.Sample.library_lawful
  spendInfo script key _ := ⟨(script, key), rfl⟩
  taproot script key info hinfo := by
    cases hinfo
    have hlength : (81 :: 32 :: key.serialize.toList).length = 34 := by
      rw [List.length_cons, List.length_cons, Vector.length_toList]
    refine ⟨?_, hlength, key, ?_, fun _ _ _ _ => rfl⟩
    · show ((81 :: 32 :: key.serialize.toList).length == 34 && true) = true
      rw [hlength]
      rfl
    show Envelope.Sample.keyFromSlice ((key.serialize.toList).take 32) = _
    rw [List.take_of_length_le (by rw [Vector.length_toList])]
    exact Envelope.Sample.keyFromSlice_serialize key
  newP2wpkh key := rfl
  p2wpkh_length script h := by
    simp only [crates, Bool.and_eq_true, beq_iff_eq] at h
    exact h.1
  computeTxid tx other h := by
    show (⟨Standard.sha256d (Standard.serializeBase tx)⟩ : Txid) = ⟨_⟩
    rw [← Standard.serializeBase_strip tx, h, Standard.serializeBase_strip]
  signatureHash _ _ _ _ := ⟨_, rfl⟩
  signatureHash_strip _ _ _ _ _ := rfl
  p2wpkhSignatureHash _ _ _ _ _ _ := ⟨_, rfl⟩
  p2wpkhSignatureHash_strip _ _ _ _ _ _ := rfl
  verifyEcdsa _ _ := rfl
  ecdsaFromSlice _ _ := by
    rfl
  ecdsa_length _ _ := by
    show (List.replicate 70 _ ++ [_]).length ≤ 73
    decide
  compressed _ := rfl
  publicKey_length (child : Bytes32) := by
    show child.toList.length + 1 = 33
    rw [Vector.length_toList]
  weight _ := rfl
  encode_size tx := hexEncode_size _
  decode_encode tx hweight := by
    have hlength := tx.serialize_length_le
    have hreadable : tx.Readable := Transaction.readable_of_length (by
      rw [standardTxWeight] at hweight
      omega)
    simp only [crates, hexDecode_hexEncode, Standard.deserialize_serialize hreadable, Except.ok_bind]
  hexDecode := hexDecode_hexEncode

def author : Author where
  key := Envelope.Sample.generator
  signAuthor _ := .ok (List.replicate 64 1)

theorem author_lawful : author.Lawful crates where
  key := Envelope.Sample.keyFromSlice_serialize Envelope.Sample.generator
  signs _ := ⟨_, rfl, List.length_replicate, _, rfl, rfl⟩

/-- An account with one key. -/
def funder : Account crates.PrivateKey where
  chain := .litecoinMainnet
  publicKey _ := .ok (crates.publicKey zeroHash)
  privateKey _ := .ok zeroHash

theorem funder_lawful : funder.Lawful crates where
  genesis := ⟨_, rfl⟩
  receive := ⟨_, rfl⟩
  keys _ _ h := ⟨zeroHash, rfl, by cases h; rfl⟩

/-- The receive script of the account. -/
def script : Bytes :=
  crates.newP2wpkh (crates.publicKey zeroHash)

/-- A transaction that pays the account two coins. -/
def coins (value : UInt64) : Transaction where
  version := 2
  lockTime := 0
  input := [⟨OutPoint.null, [], 0, []⟩]
  output := [⟨value, script⟩, ⟨value, script⟩]

theorem coins_weight (value : UInt64) : (coins value).weight ≤ standardTxWeight := by
  have hscript : script.length = 22 := crates_lawful.p2wpkh_length _ (crates_lawful.newP2wpkh _)
  have houtput : (Standard.output ⟨value, script⟩).length = 31 := by
    rw [output_length_small (show script.length < 253 by omega)]
    show 9 + script.length = 31
    omega
  have hinput : (Standard.counted Standard.input (coins value).input).length = 42 :=
    inputs_length (show 1 < 253 by decide) (by
      intro input hinput
      rw [List.mem_singleton.mp hinput])
  have houtputs : (Standard.counted Standard.output (coins value).output).length = 63 := by
    simp only [coins, Standard.counted_length, List.length_cons, List.length_nil, List.map_cons,
      List.map_nil, List.sum_cons, List.sum_nil, houtput,
      @compactSize_length_small (0 + 1 + 1) (by decide), Nat.reduceAdd]
  have hbase : (Standard.serializeBase (coins value)).length = 113 := by
    rw [Standard.serializeBase_length, Standard.body, List.length_append, hinput, houtputs]
  have hwitness : Standard.witnessSize (coins value).input = 1 := rfl
  have htotal := Standard.serialize_length_le (coins value)
  rw [standardTxWeight, Transaction.weight]
  omega

def coin (value : UInt64) (vout : ℕ) : FundingInput :=
  ⟨⟨crates.encodeTransaction (coins value), vout⟩, .receive⟩

def source (value : UInt64) (vout : ℕ) : OutPoint × TxOut :=
  (⟨crates.reveal.consensus.computeTxid (coins value), UInt32.ofNat vout⟩, ⟨value, script⟩)

theorem coin_prevout {value : UInt64} (hvalue : value.toNat ≤ 2100000000000000) {vout : ℕ}
    (hvout : vout < 2) :
    (coin value vout).funding.prevout crates.toPlanCrates = .ok (source value vout) := by
  have hdecode : decodeBounded crates.toPublishCrates (coin value vout).funding.rawTransaction
      8000000 = .ok (coins value) :=
    decodeBounded_encode crates_lawful (coins_weight value) (by decide)
  have houtput : (coins value).output[vout]? = some ⟨value, script⟩ := by
    cases vout with
    | zero => rfl
    | succ vout =>
        cases vout with
        | zero => rfl
        | succ vout => omega
  have hscript : crates.reveal.isP2wpkh script = true := crates_lawful.newP2wpkh _
  simp only [Funding.prevout, hdecode, Except.ok_bind]
  rw [show (coin value vout).funding.vout = vout from rfl, houtput]
  simp only [contextService, hscript, ensureService, decide_eq_true hvalue, if_true, Except.ok_bind]
  rfl

/-- The coins of an account, as they are declared. -/
theorem coin_sources {value : UInt64} (hvalue : value.toNat ≤ 2100000000000000) :
    Sources crates funder [coin value 0] [source value 0] where
  least := List.cons_ne_nil _ _
  most := by show 1 ≤ walletMaxInputs; decide
  prevout := .cons ⟨coin_prevout hvalue (by decide), rfl⟩ .nil
  distinct := List.pairwise_singleton _ _

theorem coins_sources {value : UInt64} (hvalue : value.toNat ≤ 2100000000000000) :
    Sources crates funder [coin value 0, coin value 1] [source value 0, source value 1] where
  least := List.cons_ne_nil _ _
  most := by show 2 ≤ walletMaxInputs; decide
  prevout := .cons ⟨coin_prevout hvalue (by decide), rfl⟩
    (.cons ⟨coin_prevout hvalue (by decide), rfl⟩ .nil)
  distinct := by
    rw [List.map_cons, List.map_cons, List.map_nil, List.nodup_cons]
    refine ⟨?_, List.pairwise_singleton _ _⟩
    intro hmem
    have hsame : (0 : UInt32) = 1 := congrArg OutPoint.vout (List.mem_singleton.mp hmem)
    exact absurd hsame (by decide)

def limits : PlanLimits where
  feeRate := 1
  maxFee := 2000000
  maxRecords := 1024

/-- The planner of some coins. -/
def planner (limits : PlanLimits) (inputs : List FundingInput) : Planner where
  inputs
  plan :=
    { version := 1
      chain := .litecoinMainnet
      author := crates.displayKey author.key
      returnScript := crates.hexEncode script
      rootTxid := ""
      totalFee := 0
      maximumFee := limits.maxFee
      records := [] }
  limits

/-- Two coins of the largest amount. -/
def largest : List FundingInput :=
  [coin 2100000000000000 0, coin 2100000000000000 1]

def largestSources : List (OutPoint × TxOut) :=
  [source 2100000000000000 0, source 2100000000000000 1]

end Planning.Sample

namespace Planner

open Planning

/-- The first of two records that are paid by one coin. -/
theorem never_strands_posts :
    Outcome Planning.Sample.crates Planning.Sample.author Planning.Sample.funder
      (Planning.Sample.planner Planning.Sample.limits [Planning.Sample.coin 3000000 0]) Envelope.Sample.post 1 :=
  (never_strands Planning.Sample.crates_lawful Planning.Sample.author_lawful Planning.Sample.funder_lawful Planning.Sample.limits
    [Planning.Sample.coin 3000000 0] [Planning.Sample.source 3000000 0]
    [Envelope.Sample.post, Envelope.Sample.post] 2009900
    (Planning.Sample.planner Planning.Sample.limits [Planning.Sample.coin 3000000 0])
    (Planning.Sample.coin_sources (by decide)) (by decide) (by decide) (by decide) rfl).1 []
    Envelope.Sample.post [Envelope.Sample.post] rfl [] _ rfl

/-- Two coins of the largest amount: the first record is prepared, and what it leaves to the second
is refused as a funding, whatever may still be spent on fees. Nor is every record one of the
format. -/
theorem never_strands_false :
    ∃ least reference pair next,
      minimum Planning.Sample.funder.chain Planning.Sample.limits 2 = .ok least ∧
      least ≤ held Planning.Sample.largestSources ∧
      Sources Planning.Sample.crates Planning.Sample.funder Planning.Sample.largest Planning.Sample.largestSources ∧
      prepareRecord Planning.Sample.crates Planning.Sample.author Planning.Sample.funder
        (Planning.Sample.planner Planning.Sample.limits Planning.Sample.largest) Envelope.Sample.post = .ok (reference, pair, next) ∧
      next.plan.totalFee + 500000 ≤ Planning.Sample.limits.maxFee ∧
      next.prepareRecord Planning.Sample.crates Planning.Sample.author Planning.Sample.funder Envelope.Sample.post =
        .error (.message "invalid funding amount") ∧
      prepareRecord Planning.Sample.crates Planning.Sample.author Planning.Sample.funder
        (Planning.Sample.planner Planning.Sample.limits Planning.Sample.largest) [] = .error (.message "invalid record") := by
  have hvalue : (2100000000000000 : UInt64).toNat ≤ 2100000000000000 := by decide
  have hsources : Sources Planning.Sample.crates Planning.Sample.funder Planning.Sample.largest Planning.Sample.largestSources :=
    Planning.Sample.coins_sources hvalue
  have hheld : held Planning.Sample.largestSources = 4200000000000000 := rfl
  have hminimum : minimum Planning.Sample.funder.chain Planning.Sample.limits 2 = .ok 2009900 := by decide
  have hfunded : funded Planning.Sample.crates Planning.Sample.author Planning.Sample.funder Planning.Sample.funder.chain Planning.Sample.limits
      Planning.Sample.largest = .ok (Planning.Sample.planner Planning.Sample.limits Planning.Sample.largest) := rfl
  have hready := funded_ready hsources hminimum (by rw [hheld]; decide) hfunded
  have hscript : Planning.Sample.funder.receiveScript Planning.Sample.crates = .ok Planning.Sample.script := rfl
  have hreturn : Planning.Sample.crates.reveal.isP2wpkh Planning.Sample.script = true :=
    Planning.Sample.crates_lawful.newP2wpkh _
  have hrefused : prepareRecord Planning.Sample.crates Planning.Sample.author Planning.Sample.funder
      (Planning.Sample.planner Planning.Sample.limits Planning.Sample.largest) [] = .error (.message "invalid record") := by
    rcases prepareRecord_ready Planning.Sample.crates_lawful Planning.Sample.author_lawful Planning.Sample.funder_lawful hready
      hscript hreturn [] with ⟨error, _, herror⟩ | ⟨fee, hfee, _⟩
    · exact herror
    · obtain ⟨_, _, _, _, draft, _, _, hdraft, _⟩ := hfee
      cases hdraft
  have hlength : (Envelope.recordScript Planning.Sample.crates.reveal.script Envelope.Sample.post
      Planning.Sample.author.key).length = 56 := by decide
  have hvalid : Envelope.validateRecord Envelope.Sample.post = .ok () := by decide
  rcases prepareRecord_ready Planning.Sample.crates_lawful Planning.Sample.author_lawful Planning.Sample.funder_lawful hready
    hscript hreturn Envelope.Sample.post with ⟨error, hinvalid, _⟩ | ⟨fee, hfee, hcases⟩
  · rw [hvalid] at hinvalid
    cases hinvalid
  · have hcost := hfee.eq_pairFee Planning.Sample.crates_lawful Planning.Sample.author_lawful hready.declared hscript
      hreturn
    rw [hlength] at hcost
    replace hcost : fee = 343 := hcost
    rcases hcases with ⟨_, pair, commit, reveal, hok, hpair⟩ | ⟨habove, _⟩
    · have hstuck := after_stuck Planning.Sample.crates_lawful hsources rfl (by decide) hreturn hpair
        (by rw [hheld, hcost]; decide)
      refine ⟨_, _, _, _, hminimum, by rw [hheld]; decide, hsources, hok, ?_,
        prepareRecord_stuck Planning.Sample.funder_lawful hstuck _, hrefused⟩
      show 0 + fee + 500000 ≤ 2000000
      omega
    · exfalso
      change 2000000 < 0 + fee ∨ 500000 < fee at habove
      omega

end Planner

end Urma.Runtime
