import Urma.Runtime.Planner
import Urma.Runtime.PrepareExact

/-!
# A funded plan is not stranded

What a planner holds is the fees it may still spend and a retained value for every record to come,
and one for the change. Preparing a record keeps that, so no record fails for want of funding
while the fees stay within the approved maximum, and what is prepared passes validation.
-/

namespace Urma.Runtime

open Chain Lib

/-! ## What is prepared is valid -/

section Validate

variable {crates : PrepareCrates} {author : Author} {funder : Account crates.PrivateKey}
  {inputs : List FundingInput} {sources : List (OutPoint × TxOut)} {returnScript record : Bytes}
  {rate fee : ℕ} {pair : PublicPlan} {commit reveal : Transaction}

theorem declaredFunding_ok (hsources : Sources crates funder inputs sources) {pair : PublicPlan}
    (hpair : pair.funding = inputs.map FundingInput.funding) :
    Validation.declaredFunding crates.toPlanCrates pair = .ok sources := by
  have hmap : ∀ {inputs : List FundingInput} {sources : List (OutPoint × TxOut)},
      List.Forall₂ (fun (input : FundingInput) source =>
        input.funding.prevout crates.toPlanCrates = .ok source) inputs sources →
      (inputs.map FundingInput.funding).mapM (Funding.prevout crates.toPlanCrates) =
        .ok sources := by
    intro inputs sources hall
    induction hall with
    | nil => rfl
    | cons hfirst hrest ih =>
        rw [List.map_cons, List.mapM_cons, hfirst, Except.ok_bind, ih]
        rfl
  rw [Validation.declaredFunding, hpair]
  exact hmap (hsources.prevout.imp fun input source hboth => hboth.1)

theorem sumValues_ok {message : String} {outputs : List TxOut} {total : ℕ}
    (hfits : total + (outputs.map fun output => output.value.toNat).sum ≤ u64Max) :
    Validation.sumValues message outputs total =
      .ok (total + (outputs.map fun output => output.value.toNat).sum) := by
  induction outputs generalizing total with
  | nil => rfl
  | cons output outputs ih =>
      rw [List.map_cons, List.sum_cons] at hfits ⊢
      have hsum : checkedAdd total output.value.toNat = some (total + output.value.toNat) :=
        checkedAdd_eq_some.mpr ⟨by omega, rfl⟩
      rw [Validation.sumValues, hsum, contextService, Except.ok_bind, ih (by omega), Nat.add_assoc]

/-- The validator computes the fee that was prepared. -/
theorem IsPrepared.recordFee (hsources : Sources crates funder inputs sources) {chain : Chain}
    (hpair : IsPrepared crates author chain inputs sources returnScript record rate fee pair commit
      reveal) : Validation.recordFee sources commit reveal = .ok fee := by
  obtain ⟨published, houtputs, hleast, hmost⟩ := hpair.outputs
  have hheld := hsources.held_le
  have hbounds := publicationReturn_bounds chain
  have hcovered := hpair.covered
  have hmax : u64Max = 18446744073709551615 := by decide
  have hsum : ((sources.map Prod.snd).map fun output => output.value.toNat).sum =
      held sources := by
    rw [held, List.map_map]
    rfl
  have havailable := @sumValues_ok "funding sum overflow" (sources.map Prod.snd) 0 (by omega)
  rw [hsum, Nat.zero_add] at havailable
  have hchange : (UInt64.ofNat (held sources - (fee + publicationReturn chain))).toNat =
      held sources - (fee + publicationReturn chain) := toNat_ofNat_of_lt (by omega)
  have hreturned : (UInt64.ofNat (publicationReturn chain)).toNat = publicationReturn chain :=
    toNat_ofNat_of_lt (by omega)
  have hcommitted : checkedAdd published.value.toNat
      (held sources - (fee + publicationReturn chain)) =
        some (published.value.toNat + (held sources - (fee + publicationReturn chain))) :=
    checkedAdd_eq_some.mpr ⟨by omega, rfl⟩
  have hwithin : published.value.toNat + (held sources - (fee + publicationReturn chain)) ≤
      held sources := by omega
  have hpaid : checkedAdd (held sources - (fee + publicationReturn chain))
      (publicationReturn chain) = some (held sources - fee) :=
    checkedAdd_eq_some.mpr ⟨by omega, by omega⟩
  have hfee : checkedSub (held sources) (held sources - fee) = some fee :=
    checkedSub_eq_some.mpr ⟨by omega, by omega⟩
  simp only [Validation.recordFee, havailable, houtputs, hpair.returned, contextService,
    List.getElem?_cons_zero, List.getElem?_cons_succ, hchange, hreturned, hcommitted, ensureService,
    decide_eq_true hwithin, hpaid, hfee, if_true, Except.ok_bind]

/-- **What is prepared is appended** to the validation of the records before it. -/
theorem IsPrepared.append (h : crates.Lawful) (hsources : Sources crates funder inputs sources)
    {genesis : Bytes32} {chain : Chain} (hgenesis : crates.genesis chain = .ok genesis)
    (hrate : 1 ≤ rate ∧ rate ≤ 100)
    (hpair : IsPrepared crates author chain inputs sources returnScript record rate fee pair commit
      reveal) {state : Validation}
    (hchained : state.count ≠ 0 → inputs.map FundingInput.funding = [⟨state.previousCommit, 1⟩])
    (htotal : state.total + fee ≤ u64Max) (hcount : state.count + 1 ≤ u32Max) :
    state.append crates.toPlanCrates pair chain (crates.displayKey author.key) returnScript =
      .ok (record,
        { count := state.count + 1
          total := state.total + fee
          previousCommit := pair.commit
          last := crates.displayTxid (crates.reveal.consensus.computeTxid reveal) }) := by
  obtain ⟨parsed, hverified, hkey, hrecord⟩ := hpair.revealed
  obtain ⟨published, houtputs, hleast, hmost⟩ := hpair.outputs
  have hheld := hsources.held_le
  have hbounds := publicationReturn_bounds chain
  have hcovered := hpair.covered
  have hchange : (UInt64.ofNat (held sources - (fee + publicationReturn chain))).toNat =
      held sources - (fee + publicationReturn chain) := toNat_ofNat_of_lt (by omega)
  have hreturned : (UInt64.ofNat (publicationReturn chain)).toNat = publicationReturn chain :=
    toNat_ofNat_of_lt (by omega)
  have hfunding : Validation.verifyFunding state pair = .ok () := by
    rw [Validation.verifyFunding]
    split
    · have hlength : pair.funding.length = inputs.length := by
        rw [hpair.pair_eq, List.length_map]
      have hpositive := List.length_pos_iff.mpr hsources.least
      rw [Validation.verifyFirstFunding, hlength, ensureService_eq_ok, Bool.and_eq_true,
        decide_eq_true_eq, decide_eq_true_eq]
      exact ⟨hpositive, hsources.most⟩
    · next hcount =>
        have hone : pair.funding = [⟨state.previousCommit, 1⟩] := by
          rw [hpair.pair_eq]
          exact hchained hcount
        rw [Validation.verifyChainedFunding, hone, ensureService_eq_ok]
        simp
  have hdeclared := declaredFunding_ok hsources
    (show pair.funding = inputs.map FundingInput.funding by rw [hpair.pair_eq])
  have hlimit : 2 * standardTxWeight ≤ usizeMax := by decide
  have hcommit : Validation.transaction crates.toPlanCrates pair.commit = .ok commit := by
    rw [hpair.pair_eq]
    exact decodeBounded_encode h hpair.commit_weight hlimit
  have hreveal : Validation.transaction crates.toPlanCrates pair.reveal = .ok reveal := by
    rw [hpair.pair_eq]
    exact decodeBounded_encode h hpair.reveal_weight hlimit
  have hpolicy : Validation.verifyPolicy crates.toPlanCrates commit reveal chain = .ok () := by
    have hrest : publicationReturn chain ≤ held sources - (fee + publicationReturn chain) := by
      omega
    simp only [Validation.verifyPolicy, h.weight, ensureService, decide_eq_true hpair.commit_weight,
      decide_eq_true hpair.reveal_weight, houtputs, hpair.returned, contextService,
      List.getElem?_cons_zero, List.getElem?_cons_succ, hchange, hreturned, decide_eq_true hleast,
      decide_eq_true hrest, Nat.le_refl, decide_true, Bool.and_self, if_true, Except.ok_bind]
  have hgenesis' : crates.genesis pair.chain = .ok genesis := by
    rw [hpair.pair_eq]
    exact hgenesis
  have hversion : (pair.version == Format.version.toNat) = true := by
    rw [hpair.pair_eq]
    exact beq_self_eq_true _
  have hrates : pair.feeRate = rate := by rw [hpair.pair_eq]
  have hsum := (@checkedAdd_eq_some state.total fee _).mpr ⟨htotal, rfl⟩
  have hnext : MultipartConsistency.checkedAdd32 state.count 1 = some (state.count + 1) :=
    if_pos hcount
  simp only [Validation.append, hgenesis', hgenesis, hversion, hrates, ensureService,
    decide_eq_true hrate.1, decide_eq_true hrate.2, beq_self_eq_true, Bool.and_self, if_true,
    hfunding, hdeclared, hcommit, hreveal, hpair.signed, hverified, PlanCrates.protocol, hpolicy,
    hkey, houtputs, hpair.returned, List.getElem?_cons_zero, List.getElem?_cons_succ,
    Option.map_some, hpair.recordFee hsources, hsum, hnext, contextService, hrecord,
    Except.ok_bind]

end Validate

namespace Planner

variable (crates : PrepareCrates) (author : Author) (funder : Account crates.PrivateKey)

/-! ## How preparing a record ends -/

/-- What a record costs from the inputs of a planner: the fees of the commit and of the reveal that
`prepare_bytes` would build. -/
def FeeOf (planner : Planner) (record : Bytes) (fee : ℕ) : Prop :=
  ∃ returnScript outpoints outputs available draft,
    funder.receiveScript crates = .ok returnScript ∧
    prevouts crates (planner.inputs.map FundingInput.funding) =
      .ok (outpoints, outputs, available) ∧
    Runtime.draft crates record author.key (returnOutput funder.chain returnScript) = .ok draft ∧
    draft.fee outpoints (returnOutput funder.chain returnScript) planner.limits.feeRate = fee

/-- The only input is the change of a commit, and above the largest amount that is accepted. -/
def Overfull (planner : Planner) : Prop :=
  ∃ raw commit output, planner.inputs = [⟨⟨raw, 1⟩, .receive⟩] ∧
    Validation.transaction crates.toPlanCrates raw = .ok commit ∧
    commit.output[1]? = some output ∧ 2100000000000000 < output.value.toNat

/-- How preparing a record ends when so many are still to come. -/
inductive Outcome (planner : Planner) (record : Bytes) (remaining : ℕ) : Prop
  /-- It is prepared, and the change keeps a retained value, the fees that are left and a retained
  value for every record to come. -/
  | prepared (reference : ChildReference) (pair : PublicPlan) (next : Planner)
      (commit : Transaction) (change : TxOut)
      (ok : planner.prepareRecord crates author funder record = .ok (reference, pair, next))
      (decoded : Validation.transaction crates.toPlanCrates pair.commit = .ok commit)
      (output : commit.output[1]? = some change)
      (enough : publicationReturn funder.chain +
        (planner.limits.maxFee - next.plan.totalFee) +
          remaining * publicationReturn funder.chain ≤ change.value.toNat)
  /-- Its fee is above the cap, or would take the fees beyond the approved maximum. -/
  | beyond (error : ServiceError) (fee : ℕ)
      (failed : planner.prepareRecord crates author funder record = .error error)
      (cost : FeeOf crates author funder planner record fee)
      (above : planner.limits.maxFee < planner.plan.totalFee + fee ∨ 500000 < fee)
  /-- It is no record of the format. -/
  | refused (error : Error) (invalid : Envelope.validateRecord record = .error error)
      (failed : planner.prepareRecord crates author funder record =
        .error (.message (crates.display error)))
  /-- The change it would spend is above the largest amount that is accepted. -/
  | overfull (amount : Overfull crates planner)
      (failed : planner.prepareRecord crates author funder record =
        .error (.message "invalid funding amount"))

/-! ## What a planner holds -/

/-- A planner whose inputs are declared, at a rate that is accepted. -/
structure Declared (planner : Planner) (sources : List (OutPoint × TxOut)) : Prop where
  declared : Sources crates funder planner.inputs sources
  chain : planner.plan.chain = funder.chain
  rate : 1 ≤ planner.limits.feeRate ∧ planner.limits.feeRate ≤ 100
  fits : planner.limits.maxFee ≤ u64Max

/-- A planner that can still pay: its inputs hold the fees that are left and a retained value for
every record to come, and one more. -/
structure Ready (planner : Planner) (sources : List (OutPoint × TxOut)) (remaining : ℕ) : Prop
    extends Declared crates funder planner sources where
  spent : planner.plan.totalFee ≤ planner.limits.maxFee
  enough : planner.limits.maxFee - planner.plan.totalFee +
    (remaining + 1) * publicationReturn funder.chain ≤ held sources

variable {crates author funder}

/-- The planner after a prepared record. -/
def after (crates : PrepareCrates) (planner : Planner) (pair : PublicPlan) (reveal : Transaction)
    (fee : ℕ) : Planner :=
  { planner with
    plan := { planner.plan with
      totalFee := planner.plan.totalFee + fee
      rootTxid := crates.displayTxid (crates.reveal.consensus.computeTxid reveal) }
    inputs := [⟨⟨pair.commit, 1⟩, .receive⟩] }

/-- `prepare_record`, by what `prepare_signed_bytes` does. -/
theorem prepareRecord_eq {planner : Planner} {sources : List (OutPoint × TxOut)}
    (hready : Declared crates funder planner sources) {genesis : Bytes32}
    (hgenesis : crates.genesis funder.chain = .ok genesis) (record : Bytes) :
    planner.prepareRecord crates author funder record = (do
      let prepared ← prepareSignedBytes crates record author funder planner.inputs
        ⟨genesis, planner.limits.feeRate, planner.limits.maxFee⟩
      let reveal ← decodeStandard crates.toPublishCrates prepared.plan.reveal
      let totalFee ← contextService (checkedAdd planner.plan.totalFee prepared.fee)
        "fee sum overflow"
      ensureService (totalFee ≤ planner.limits.maxFee) "publication exceeds approved maximum fee"
      let txid := crates.reveal.consensus.computeTxid reveal
      .ok (⟨txid, crates.sha256 record⟩, prepared.plan,
        { planner with
          plan := { planner.plan with totalFee, rootTxid := crates.displayTxid txid }
          inputs := [⟨⟨prepared.plan.commit, 1⟩, .receive⟩] })) := by
  have hrate : (planner.limits.feeRate != 0) = true := by
    have hleast := hready.rate.1
    rw [bne_iff_ne]
    omega
  simp only [prepareRecord, hready.chain, hgenesis, hrate, ensureService, if_true, Except.ok_bind]

/-- **One record.** It is prepared exactly when its fee is within the cap, within what is left of
the approved maximum, and covered by the funding with both retained values. -/
theorem prepareRecord_declared (h : crates.Lawful) (hauthor : author.Lawful crates)
    (hfunder : funder.Lawful crates) {planner : Planner} {sources : List (OutPoint × TxOut)}
    (hready : Declared crates funder planner sources)
    {returnScript : Bytes} (hscript : funder.receiveScript crates = .ok returnScript)
    (hreturn : crates.reveal.isP2wpkh returnScript = true) (record : Bytes) :
    (∃ error, Envelope.validateRecord record = .error error ∧
      planner.prepareRecord crates author funder record =
        .error (.message (crates.display error))) ∨
    ∃ fee, FeeOf crates author funder planner record fee ∧
      ((planner.plan.totalFee + fee ≤ planner.limits.maxFee ∧ ∃ pair commit reveal,
        planner.prepareRecord crates author funder record =
          .ok (⟨crates.reveal.consensus.computeTxid reveal, crates.sha256 record⟩, pair,
            planner.after crates pair reveal fee) ∧
        IsPrepared crates author funder.chain planner.inputs sources returnScript record
          planner.limits.feeRate fee pair commit reveal) ∨
      ((planner.limits.maxFee < planner.plan.totalFee + fee ∨ 500000 < fee ∨
          held sources < fee + 2 * publicationReturn funder.chain) ∧
        ∃ error, planner.prepareRecord crates author funder record = .error error)) := by
  obtain ⟨genesis, hgenesis⟩ := hfunder.genesis
  have hfits := hready.fits
  have hlength : (returnOutput funder.chain returnScript).scriptPubkey.length = 22 :=
    h.p2wpkh_length _ hreturn
  rw [prepareRecord_eq hready hgenesis]
  cases hvalid : Envelope.validateRecord record with
  | error error =>
      left
      refine ⟨error, rfl, ?_⟩
      rw [prepareSignedBytes_refused hready.declared hgenesis hscript hready.rate hreturn hvalid]
      rfl
  | ok _ =>
      right
      obtain ⟨draft, control, hdraft, hdraftOf⟩ := draft_ok h hvalid hauthor.key hlength
      refine ⟨_, ⟨returnScript, _, _, _, draft, hscript, hready.declared.prevouts, hdraft, rfl⟩, ?_⟩
      generalize hfee : draft.fee (sources.map Prod.fst) (returnOutput funder.chain returnScript)
        planner.limits.feeRate = fee
      by_cases hcovered : fee ≤ 500000 ∧ fee + 2 * publicationReturn funder.chain ≤ held sources
      · obtain ⟨hok, herror⟩ := @prepareSignedBytes_covered crates author funder
          planner.inputs sources record returnScript planner.limits.feeRate planner.limits.maxFee
          draft h hauthor hfunder hready.declared genesis hgenesis hscript hready.rate hreturn
          control hdraft hdraftOf fee hfee hcovered.1 hcovered.2
        by_cases hwithin : planner.plan.totalFee + fee ≤ planner.limits.maxFee
        · left
          obtain ⟨pair, commit, reveal, hprepared, hpair⟩ := hok (by omega)
          refine ⟨hwithin, pair, commit, reveal, ?_, hpair⟩
          have hdecode := hpair.decode_reveal h
          have htotal : checkedAdd planner.plan.totalFee fee =
              some (planner.plan.totalFee + fee) := by
            rw [checkedAdd_eq_some]
            omega
          simp only [hprepared, hdecode, htotal, contextService, ensureService,
            decide_eq_true hwithin, if_true, Except.ok_bind]
          rfl
        · right
          refine ⟨.inl (by omega), ?_⟩
          by_cases hbudget : fee ≤ planner.limits.maxFee
          · obtain ⟨pair, commit, reveal, hprepared, hpair⟩ := hok hbudget
            have hdecode := hpair.decode_reveal h
            simp only [hprepared, hdecode, Except.ok_bind]
            cases htotal : checkedAdd planner.plan.totalFee fee with
            | none => exact ⟨_, rfl⟩
            | some total =>
                obtain ⟨_, rfl⟩ := checkedAdd_eq_some.mp htotal
                simp only [contextService, ensureService, decide_eq_false hwithin,
                  Bool.false_eq_true, if_false, Except.ok_bind]
                exact ⟨_, rfl⟩
          · obtain ⟨error, herror⟩ := herror (by omega)
            rw [herror]
            exact ⟨error, rfl⟩
      · right
        obtain ⟨error, herror⟩ := @prepareSignedBytes_uncovered crates author funder
          planner.inputs sources record returnScript planner.limits.feeRate planner.limits.maxFee
          draft h hready.declared genesis hgenesis hscript hready.rate hreturn control
          hdraft hdraftOf fee hfee hcovered
        rw [herror]
        refine ⟨?_, error, rfl⟩
        right
        omega

/-- A planner that can still pay prepares a record unless its fee is too high. -/
theorem prepareRecord_ready (h : crates.Lawful) (hauthor : author.Lawful crates)
    (hfunder : funder.Lawful crates) {planner : Planner} {sources : List (OutPoint × TxOut)}
    {remaining : ℕ} (hready : Ready crates funder planner sources (remaining + 1))
    {returnScript : Bytes} (hscript : funder.receiveScript crates = .ok returnScript)
    (hreturn : crates.reveal.isP2wpkh returnScript = true) (record : Bytes) :
    (∃ error, Envelope.validateRecord record = .error error ∧
      planner.prepareRecord crates author funder record =
        .error (.message (crates.display error))) ∨
    ∃ fee, FeeOf crates author funder planner record fee ∧
      ((planner.plan.totalFee + fee ≤ planner.limits.maxFee ∧ ∃ pair commit reveal,
        planner.prepareRecord crates author funder record =
          .ok (⟨crates.reveal.consensus.computeTxid reveal, crates.sha256 record⟩, pair,
            planner.after crates pair reveal fee) ∧
        IsPrepared crates author funder.chain planner.inputs sources returnScript record
          planner.limits.feeRate fee pair commit reveal) ∨
      ((planner.limits.maxFee < planner.plan.totalFee + fee ∨ 500000 < fee) ∧
        ∃ error, planner.prepareRecord crates author funder record = .error error)) := by
  have hspent := hready.spent
  have henough := hready.enough
  rw [Nat.add_mul, Nat.add_mul, Nat.one_mul] at henough
  rcases prepareRecord_declared h hauthor hfunder hready.toDeclared hscript hreturn record with
    hrefused | ⟨fee, hfee, hok | ⟨hreason, herror⟩⟩
  · exact .inl hrefused
  · exact .inr ⟨fee, hfee, .inl hok⟩
  · refine .inr ⟨fee, hfee, .inr ⟨?_, herror⟩⟩
    omega

/-- The fee of a record by its inputs and its script. -/
theorem FeeOf.eq_pairFee (h : crates.Lawful) (hauthor : author.Lawful crates) {planner : Planner}
    {sources : List (OutPoint × TxOut)} (hsources : Sources crates funder planner.inputs sources)
    {returnScript : Bytes} (hscript : funder.receiveScript crates = .ok returnScript)
    (hreturn : crates.reveal.isP2wpkh returnScript = true) {record : Bytes} {fee : ℕ}
    (hfee : FeeOf crates author funder planner record fee) :
    fee = pairFee planner.inputs.length
      (Envelope.recordScript crates.reveal.script record author.key).length
      planner.limits.feeRate := by
  obtain ⟨_, _, _, _, draft, hscript', hprevouts, hdraft, rfl⟩ := hfee
  rw [hscript] at hscript'
  cases hscript'
  rw [hsources.prevouts] at hprevouts
  cases hprevouts
  have hlength : (returnOutput funder.chain returnScript).scriptPubkey.length = 22 :=
    h.p2wpkh_length _ hreturn
  obtain ⟨control, hdraftOf⟩ := draft_eq_ok h hauthor.key hlength hdraft
  rw [hdraftOf.fee_eq_pairFee h hsources.outpoints_ne hsources.outpoints_length hlength,
    List.length_map, hsources.length]

/-! ## The change of a prepared record -/

/-- The change of a commit, as it is spent by the next record. -/
def chainedSource (crates : PrepareCrates) (commit : Transaction) (change : ℕ)
    (returnScript : Bytes) : OutPoint × TxOut :=
  (⟨crates.reveal.consensus.computeTxid commit, 1⟩, ⟨UInt64.ofNat change, returnScript⟩)

section Chained

variable {inputs : List FundingInput} {sources : List (OutPoint × TxOut)}
  {returnScript record : Bytes} {rate fee : ℕ} {pair : PublicPlan} {commit reveal : Transaction}
  {chain : Chain}

/-- Reading the change of a prepared commit: it is accepted up to the largest amount. -/
theorem prevout_chained (h : crates.Lawful)
    (hreturn : crates.reveal.isP2wpkh returnScript = true)
    (hheld : held sources ≤ 105000000000000000)
    (hpair : IsPrepared crates author chain inputs sources returnScript record rate fee pair commit
      reveal) :
    Funding.prevout crates.toPlanCrates ⟨pair.commit, 1⟩ =
      if held sources - (fee + publicationReturn chain) ≤ 2100000000000000 then
        .ok (chainedSource crates commit (held sources - (fee + publicationReturn chain))
          returnScript)
      else .error (.message "invalid funding amount") := by
  obtain ⟨published, houtputs, _⟩ := hpair.outputs
  have hdecode : decodeBounded crates.toPublishCrates pair.commit 8000000 = .ok commit := by
    rw [hpair.pair_eq]
    exact decodeBounded_encode h hpair.commit_weight (by decide)
  have hchange : (UInt64.ofNat (held sources - (fee + publicationReturn chain))).toNat =
      held sources - (fee + publicationReturn chain) := toNat_ofNat_of_lt (by omega)
  simp only [Funding.prevout, hdecode, houtputs, contextService, List.getElem?_cons_succ,
    List.getElem?_cons_zero, ensureService, hreturn, hchange, if_true, Except.ok_bind]
  by_cases hfits : held sources - (fee + publicationReturn chain) ≤ 2100000000000000
  · rw [if_pos hfits, if_pos (by rw [decide_eq_true_eq]; exact hfits)]
    rfl
  · rw [if_neg hfits, if_neg (by rw [decide_eq_true_eq]; exact hfits)]
    rfl

/-- The change is a declared source of the account, if it is accepted at all. -/
theorem sources_chained (h : crates.Lawful) (hscript : funder.receiveScript crates = .ok returnScript)
    (hreturn : crates.reveal.isP2wpkh returnScript = true)
    (hheld : held sources ≤ 105000000000000000)
    (hpair : IsPrepared crates author chain inputs sources returnScript record rate fee pair commit
      reveal)
    (hfits : held sources - (fee + publicationReturn chain) ≤ 2100000000000000) :
    Sources crates funder [⟨⟨pair.commit, 1⟩, .receive⟩]
      [chainedSource crates commit (held sources - (fee + publicationReturn chain))
        returnScript] := by
  have hprevout := prevout_chained h hreturn hheld hpair
  rw [if_pos hfits] at hprevout
  exact ⟨List.cons_ne_nil _ _, (by decide : 1 ≤ walletMaxInputs),
    .cons ⟨hprevout, hscript⟩ .nil, List.pairwise_singleton _ _⟩

end Chained

/-! ## A run -/

/-- What holds of a planner after some records, and of their validation: it is funded by the
change of the last of them, and has the same fees and root as the validation. -/
structure Underway (crates : PrepareCrates) (author : Author) (funder : Account crates.PrivateKey)
    (returnScript : Bytes) (first : Planner) (pairs : List PublicPlan) (planner : Planner)
    (state : Validation) : Prop where
  limits : planner.limits = first.limits
  plan : planner.plan = { first.plan with
    totalFee := planner.plan.totalFee, rootTxid := planner.plan.rootTxid }
  validated : Validation.appendAll crates.toPlanCrates funder.chain (crates.displayKey author.key)
    returnScript pairs .new = .ok state
  count : state.count = pairs.length
  spent : planner.plan.totalFee ≤ planner.limits.maxFee
  total : state.total = planner.plan.totalFee
  last : state.last = planner.plan.rootTxid
  chained : pairs ≠ [] → planner.inputs = [⟨⟨state.previousCommit, 1⟩, .receive⟩]

/-- A planner that cannot go on: the change it would spend is not accepted. -/
structure Stuck (crates : PrepareCrates) (funder : Account crates.PrivateKey) (planner : Planner) :
    Prop where
  overfull : Overfull crates planner
  chain : planner.plan.chain = funder.chain
  rate : 1 ≤ planner.limits.feeRate
  refused : ∃ funding path, planner.inputs = [⟨funding, path⟩] ∧
    funding.prevout crates.toPlanCrates = .error (.message "invalid funding amount")

/-- A change above the largest amount leaves the planner stuck. -/
theorem after_stuck (h : crates.Lawful) {planner : Planner} {sources : List (OutPoint × TxOut)}
    (hsources : Sources crates funder planner.inputs sources)
    (hchain : planner.plan.chain = funder.chain) (hrate : 1 ≤ planner.limits.feeRate)
    {returnScript record : Bytes} (hreturn : crates.reveal.isP2wpkh returnScript = true) {fee : ℕ}
    {pair : PublicPlan} {commit reveal : Transaction}
    (hpair : IsPrepared crates author funder.chain planner.inputs sources returnScript record
      planner.limits.feeRate fee pair commit reveal)
    (habove : 2100000000000000 < held sources - (fee + publicationReturn funder.chain)) :
    Stuck crates funder (planner.after crates pair reveal fee) := by
  have hheld := hsources.held_le
  obtain ⟨published, houtputs, _⟩ := hpair.outputs
  have hprevout := prevout_chained h hreturn hheld hpair
  rw [if_neg (by omega)] at hprevout
  refine ⟨⟨pair.commit, commit, _, rfl, ?_, by rw [houtputs]; rfl, ?_⟩, hchain, hrate,
    ⟨_, _, rfl, hprevout⟩⟩
  · rw [hpair.pair_eq]
    exact decodeBounded_encode h hpair.commit_weight (by decide)
  · show 2100000000000000 < (UInt64.ofNat _).toNat
    rw [toNat_ofNat_of_lt (by omega)]
    exact habove

/-- What is left of some sources by a record is declared for the next one, or refused. -/
theorem after_declared (h : crates.Lawful) {planner : Planner}
    {sources : List (OutPoint × TxOut)} (hready : Declared crates funder planner sources)
    {returnScript record : Bytes} (hscript : funder.receiveScript crates = .ok returnScript)
    (hreturn : crates.reveal.isP2wpkh returnScript = true) {fee : ℕ} {pair : PublicPlan}
    {commit reveal : Transaction}
    (hpair : IsPrepared crates author funder.chain planner.inputs sources returnScript record
      planner.limits.feeRate fee pair commit reveal) :
    (∃ chained, Declared crates funder (planner.after crates pair reveal fee) chained ∧
      held chained = held sources - (fee + publicationReturn funder.chain)) ∨
        Stuck crates funder (planner.after crates pair reveal fee) := by
  have hheld := hready.declared.held_le
  by_cases hfits : held sources - (fee + publicationReturn funder.chain) ≤ 2100000000000000
  · left
    refine ⟨_, ⟨sources_chained h hscript hreturn hheld hpair hfits, hready.chain, hready.rate,
      hready.fits⟩, ?_⟩
    rw [held, List.map_singleton, List.sum_singleton]
    exact toNat_ofNat_of_lt (by omega)
  · right
    exact after_stuck h hready.declared hready.chain hready.rate.1 hreturn hpair (by omega)

/-- **One record more.** What it leaves is ready for the records to come, or stuck. -/
theorem after_ready (h : crates.Lawful) {planner : Planner} {sources : List (OutPoint × TxOut)}
    {remaining : ℕ} (hready : Ready crates funder planner sources (remaining + 1))
    {returnScript record : Bytes} (hscript : funder.receiveScript crates = .ok returnScript)
    (hreturn : crates.reveal.isP2wpkh returnScript = true) {fee : ℕ} {pair : PublicPlan}
    {commit reveal : Transaction}
    (hwithin : planner.plan.totalFee + fee ≤ planner.limits.maxFee)
    (hpair : IsPrepared crates author funder.chain planner.inputs sources returnScript record
      planner.limits.feeRate fee pair commit reveal) :
    (∃ sources, Ready crates funder (planner.after crates pair reveal fee) sources remaining) ∨
      Stuck crates funder (planner.after crates pair reveal fee) := by
  have henough := hready.enough
  have hspent := hready.spent
  rw [Nat.add_mul, Nat.add_mul, Nat.one_mul] at henough
  rcases after_declared h hready.toDeclared hscript hreturn hpair with ⟨chained, hnext, hleft⟩ | hstuck
  · left
    refine ⟨chained, hnext, hwithin, ?_⟩
    rw [hleft, Nat.add_mul, Nat.one_mul]
    show planner.limits.maxFee - (planner.plan.totalFee + fee) + _ ≤ _
    omega
  · exact .inr hstuck

/-- A stuck planner refuses every record. -/
theorem prepareRecord_stuck (hfunder : funder.Lawful crates) {planner : Planner}
    (hstuck : Stuck crates funder planner) (record : Bytes) :
    planner.prepareRecord crates author funder record =
      .error (.message "invalid funding amount") := by
  obtain ⟨genesis, hgenesis⟩ := hfunder.genesis
  obtain ⟨funding, path, hinputs, hrefused⟩ := hstuck.refused
  have hrate : (planner.limits.feeRate != 0) = true := by
    have hleast := hstuck.rate
    rw [bne_iff_ne]
    omega
  have hprevouts : prevouts crates [funding] = .error (.message "invalid funding amount") := by
    rw [prevouts, prevoutsFrom, hrefused]
    rfl
  simp only [prepareRecord, hstuck.chain, hgenesis, hrate, ensureService, if_true, Except.ok_bind,
    prepareSignedBytes, beq_self_eq_true, hinputs, List.map_cons, List.map_nil, hprevouts]
  rfl

/-- **How a record ends** for a planner that is ready for it. -/
theorem outcome_ready (h : crates.Lawful) (hauthor : author.Lawful crates)
    (hfunder : funder.Lawful crates) {planner : Planner} {sources : List (OutPoint × TxOut)}
    {remaining : ℕ} (hready : Ready crates funder planner sources (remaining + 1))
    {returnScript : Bytes} (hscript : funder.receiveScript crates = .ok returnScript)
    (hreturn : crates.reveal.isP2wpkh returnScript = true) (record : Bytes) :
    Outcome crates author funder planner record remaining := by
  rcases prepareRecord_ready h hauthor hfunder hready hscript hreturn record with
    ⟨error, hvalid, herror⟩ | ⟨fee, hfee, ⟨hwithin, pair, commit, reveal, hok, hpair⟩ |
      ⟨habove, error, herror⟩⟩
  · exact .refused error hvalid herror
  · obtain ⟨published, houtputs, _⟩ := hpair.outputs
    have hheld := hready.declared.held_le
    have henough := hready.enough
    have hcovered := hpair.covered
    rw [Nat.add_mul, Nat.add_mul, Nat.one_mul] at henough
    refine .prepared _ pair _ commit _ hok ?_ (by rw [houtputs]; rfl) ?_
    · rw [hpair.pair_eq]
      exact decodeBounded_encode h hpair.commit_weight (by decide)
    · show publicationReturn funder.chain + (planner.limits.maxFee - (planner.plan.totalFee + fee)) +
        _ ≤ (UInt64.ofNat _).toNat
      rw [toNat_ofNat_of_lt (by omega)]
      omega
  · exact .beyond error fee herror hfee habove

/-- What a prepared record adds to the run. -/
theorem Underway.step (h : crates.Lawful) (hfunder : funder.Lawful crates) {returnScript : Bytes}
    {first planner : Planner} {pairs : List PublicPlan} {state : Validation}
    (hunder : Underway crates author funder returnScript first pairs planner state)
    {sources : List (OutPoint × TxOut)} {remaining : ℕ}
    (hready : Ready crates funder planner sources (remaining + 1)) {record : Bytes} {fee : ℕ}
    {pair : PublicPlan} {commit reveal : Transaction}
    (hwithin : planner.plan.totalFee + fee ≤ planner.limits.maxFee)
    (hcount : pairs.length + 1 ≤ u32Max)
    (hpair : IsPrepared crates author funder.chain planner.inputs sources returnScript record
      planner.limits.feeRate fee pair commit reveal) :
    ∃ state, Underway crates author funder returnScript first (pairs ++ [pair])
      (planner.after crates pair reveal fee) state := by
  obtain ⟨genesis, hgenesis⟩ := hfunder.genesis
  have hfits := hready.fits
  have hchained : state.count ≠ 0 →
      planner.inputs.map FundingInput.funding = [⟨state.previousCommit, 1⟩] := by
    intro hne
    rw [hunder.chained]
    · rfl
    · intro hnil
      apply hne
      rw [hunder.count, hnil, List.length_nil]
  have happend := hpair.append h hready.declared hgenesis hready.rate hchained
    (by rw [hunder.total]; omega) (by rw [hunder.count]; exact hcount)
  let next : Validation :=
    { count := state.count + 1
      total := state.total + fee
      previousCommit := pair.commit
      last := crates.displayTxid (crates.reveal.consensus.computeTxid reveal) }
  refine ⟨next, hunder.limits, ?_, ?_, ?_, hwithin, ?_, rfl, fun _ => rfl⟩
  · show ({ planner.plan with totalFee := _, rootTxid := _ } : PublicationPlan) = _
    rw [hunder.plan]
    rfl
  · rw [Validation.appendAll_append, hunder.validated, Except.ok_bind, Validation.appendAll,
      happend]
    rfl
  · show state.count + 1 = _
    rw [hunder.count, List.length_append, List.length_singleton]
  · show state.total + fee = planner.plan.totalFee + fee
    rw [hunder.total]

/-- **All records of a run.** -/
theorem Underway.run (h : crates.Lawful) (hauthor : author.Lawful crates)
    (hfunder : funder.Lawful crates) {returnScript : Bytes}
    (hscript : funder.receiveScript crates = .ok returnScript)
    (hreturn : crates.reveal.isP2wpkh returnScript = true) {first planner last : Planner}
    {pairs added : List PublicPlan} {state : Validation}
    (hunder : Underway crates author funder returnScript first pairs planner state)
    {records : List Bytes} {remaining : ℕ}
    (hfunds : (∃ sources, Ready crates funder planner sources (records.length + remaining)) ∨
      Stuck crates funder planner)
    (hcount : pairs.length + records.length ≤ u32Max)
    (hall : planner.prepareAll crates author funder records = .ok (added, last)) :
    ∃ state, Underway crates author funder returnScript first (pairs ++ added) last state ∧
      ((∃ sources, Ready crates funder last sources remaining) ∨ Stuck crates funder last) := by
  induction records generalizing planner pairs added state with
  | nil =>
      cases hall
      rw [List.length_nil, Nat.zero_add] at hfunds
      rw [List.append_nil]
      exact ⟨state, hunder, hfunds⟩
  | cons record records ih =>
      simp only [prepareAll, Except.bind_eq_ok] at hall
      obtain ⟨⟨reference, pair, next⟩, hprepare, ⟨others, final⟩, hrest, hlast⟩ := hall
      cases hlast
      rw [List.length_cons] at hcount
      rcases hfunds with ⟨sources, hready⟩ | hstuck
      · rw [List.length_cons, Nat.succ_add] at hready
        rcases prepareRecord_ready h hauthor hfunder hready hscript hreturn record with
          ⟨_, _, herror⟩ | ⟨fee, _, ⟨hwithin, pair', commit, reveal, hok, hpair⟩ |
            ⟨_, _, herror⟩⟩
        · rw [herror] at hprepare
          cases hprepare
        · rw [hok] at hprepare
          cases hprepare
          obtain ⟨state, hnext⟩ := hunder.step h hfunder hready hwithin (by omega) hpair
          obtain ⟨state, hdone⟩ := ih hnext
            (after_ready h hready hscript hreturn hwithin hpair)
            (by rw [List.length_append, List.length_singleton]; omega) hrest
          rw [List.append_assoc] at hdone
          exact ⟨state, hdone⟩
        · rw [herror] at hprepare
          cases hprepare
      · rw [prepareRecord_stuck hfunder hstuck record] at hprepare
        cases hprepare

end Planner

end Urma.Runtime
