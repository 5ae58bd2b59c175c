import Urma.Runtime.CoinChoice
import Urma.Runtime.PlannerSafe
import Urma.Runtime.TransferSizes

/-!
# What a transfer accounts for

A transfer that is prepared spends what it pays, its fee and its change, and no selection of coins
leaves it short. Coins that cover the amount and the fee of their number are refused where they do
not also cover the fee of one input more.
-/

namespace Urma.Runtime

open Chain Lib

section Transfer

variable {crates : PrepareCrates} {node : TransferNode} {account : Account crates.PrivateKey}
  {request : TransferRequest} {live : Coin → Except ServiceError Bool} {coins picked : List Coin}
  {minimum perInput total : ℕ} {liveness : Liveness}

/-! ## Pricing -/

namespace Transfer

/-- The size of the outputs of a transfer without change. -/
def paidSize (request : TransferRequest) : ℕ :=
  outputsSize [⟨request.amount, request.destination⟩]

theorem draft_input (outpoints : List OutPoint) (request : TransferRequest)
    (change : Option TxOut) :
    (draft outpoints request change).input.length = outpoints.length ∧
      ∀ input ∈ (draft outpoints request change).input, input.scriptSig = [] := by
  refine ⟨List.length_map _, ?_⟩
  intro input hinput
  obtain ⟨outpoint, -, rfl⟩ := List.mem_map.mp hinput
  rfl

/-- The virtual size of the draft of a transfer without change. -/
def alone (crates : PrepareCrates) (request : TransferRequest) (inputs : ℕ) : ℕ :=
  signedVsize crates (draft (List.replicate inputs OutPoint.null) request none)

theorem alone_le (h : crates.Weighs) {inputs : ℕ} (hinputs : inputs ≤ walletMaxInputs) :
    alone crates request inputs ≤ draftVsize inputs (paidSize request) := by
  rw [walletMaxInputs] at hinputs
  obtain ⟨hlength, hscripts⟩ := draft_input (List.replicate inputs OutPoint.null) request none
  rw [List.length_replicate] at hlength
  have hle := signedVsize_le h (by omega) hscripts
  rw [hlength] at hle
  exact hle

theorem alone_eq (h : crates.Weighs) {inputs : ℕ} (hpos : 0 < inputs)
    (hinputs : inputs ≤ walletMaxInputs) :
    alone crates request inputs = draftVsize inputs (paidSize request) := by
  rw [walletMaxInputs] at hinputs
  obtain ⟨hlength, hscripts⟩ := draft_input (List.replicate inputs OutPoint.null) request none
  rw [List.length_replicate] at hlength
  have hne : (draft (List.replicate inputs OutPoint.null) request none).input ≠ [] := by
    rw [← List.length_pos_iff, hlength]
    exact hpos
  have heq := signedVsize_eq h (by omega) hne hscripts
  rw [hlength] at heq
  exact heq

/-- The fee of a transfer without change. -/
theorem quote_none {inputs fee : ℕ} : quote crates request inputs none = .ok fee ↔
    alone crates request inputs * request.rate ≤ u64Max ∧
      fee = alone crates request inputs * request.rate := by
  rw [quote, contextService_eq_ok, checkedMul_eq_some]
  exact Iff.rfl

/-- **The targets**: the amount with the fee of one input, and 68 virtual bytes for each. -/
theorem targets_eq (h : crates.Weighs) : targets crates request = .ok (minimum, perInput) ↔
    alone crates request 2 * request.rate ≤ u64Max ∧
      request.amount.toNat + alone crates request 1 * request.rate ≤ u64Max ∧
      minimum = request.amount.toNat + alone crates request 1 * request.rate ∧
      perInput = 68 * request.rate := by
  have hone := @alone_eq crates request h 1 (by decide) (by decide)
  have htwo := @alone_eq crates request h 2 (by decide) (by decide)
  rw [draftVsize_two, ← hone] at htwo
  have hdouble : alone crates request 2 * request.rate =
      alone crates request 1 * request.rate + 68 * request.rate := by
    rw [htwo, Nat.add_mul]
  constructor
  · intro htargets
    simp only [targets, Except.bind_eq_ok] at htargets
    obtain ⟨single, hsingle, double, hdoubled, per, hper, least, hleast, hresult⟩ := htargets
    obtain ⟨-, rfl⟩ := quote_none.mp hsingle
    obtain ⟨hfits, rfl⟩ := quote_none.mp hdoubled
    rw [contextService_eq_ok, checkedSub, hdouble, if_pos (Nat.le_add_right _ _),
      Nat.add_sub_cancel_left] at hper
    rw [contextService_eq_ok, checkedAdd] at hleast
    split at hleast
    · next hsum =>
      cases hleast
      cases hper
      cases hresult
      exact ⟨hfits, hsum, rfl, rfl⟩
    · cases hleast
  · rintro ⟨hfits, hsum, rfl, rfl⟩
    have hsingle : quote crates request 1 none = .ok (alone crates request 1 * request.rate) :=
      quote_none.mpr ⟨by omega, rfl⟩
    have hdoubled : quote crates request 2 none = .ok (alone crates request 2 * request.rate) :=
      quote_none.mpr ⟨hfits, rfl⟩
    simp only [targets, hsingle, hdoubled, Except.ok_bind, checkedSub, hdouble,
      if_pos (Nat.le_add_right _ _), Nat.add_sub_cancel_left, contextService, checkedAdd,
      if_pos hsum]

/-- **What covers the targets covers the fee**, for every number of inputs. -/
theorem amount_and_fee_le (h : crates.Weighs) {inputs : ℕ}
    (htargets : targets crates request = .ok (minimum, perInput))
    (hinputs : inputs ≤ walletMaxInputs) (hcovered : perInput * inputs + minimum ≤ total) :
    request.amount.toNat + alone crates request inputs * request.rate ≤ total := by
  obtain ⟨-, -, rfl, rfl⟩ := (targets_eq h).mp htargets
  have hone := @alone_eq crates request h 1 (by decide) (by decide)
  have hle := (@alone_le crates request h inputs hinputs).trans
    (draftVsize_le_linear hinputs (paidSize request))
  rw [← hone] at hle
  have hfee := Nat.mul_le_mul_right request.rate hle
  rw [Nat.add_mul] at hfee
  have hcommuted : 68 * request.rate * inputs = 68 * inputs * request.rate := by
    rw [Nat.mul_assoc, Nat.mul_comm request.rate, ← Nat.mul_assoc]
  omega

end Transfer

/-! ## Settling -/

/-- What a transfer spends is what its coins are worth. -/
theorem fundingInputs_spec {inputs : List FundingInput}
    (h : fundingInputs crates node account coins = .ok inputs) :
    inputs.length = coins.length ∧ ∃ sources, Transfer.spent crates inputs = .ok sources ∧
      (sources.map fun source => source.2.value.toNat).sum = worth coins := by
  induction coins generalizing inputs with
  | nil =>
      cases h
      exact ⟨rfl, [], rfl, rfl⟩
  | cons coin coins ih =>
      simp only [fundingInputs, Except.bind_eq_ok] at h
      obtain ⟨funding, hparent, rest, hrest, hinputs⟩ := h
      cases hinputs
      obtain ⟨hlength, sources, hsources, hsum⟩ := ih hrest
      simp only [parent, Except.bind_eq_ok, Prod.exists] at hparent
      obtain ⟨raw, -, outpoint, previous, hprevout, _, hagrees, script, -, _, -, hfunding⟩ := hparent
      cases hfunding
      rw [ensureService_eq_ok, Bool.and_eq_true, beq_iff_eq, beq_iff_eq] at hagrees
      refine ⟨by rw [List.length_cons, hlength, List.length_cons], (outpoint, previous) :: sources,
        ?_, ?_⟩
      · rw [Transfer.spent, hprevout, Except.ok_bind, hsources]
        rfl
      · rw [List.map_cons, List.sum_cons, hsum, hagrees.2]
        rfl

/-- **What a selection holds**: at most fifty inputs, worth its total, which covers the targets. -/
theorem chosen_spec {selection : Selection}
    (h : chosen crates node account coins minimum perInput liveness = .ok selection) :
    selection.inputs.length ≤ walletMaxInputs ∧
      perInput * selection.inputs.length + minimum ≤ selection.total ∧
      ∃ sources, Transfer.spent crates selection.inputs = .ok sources ∧
        (sources.map fun source => source.2.value.toNat).sum = selection.total := by
  simp only [chosen, Except.bind_eq_ok, Prod.exists] at h
  obtain ⟨picked, total, hchoose, inputs, hinputs, hselection⟩ := h
  cases hselection
  obtain ⟨htotal, hfew, hcovered⟩ := choose_spec hchoose
  obtain ⟨hlength, sources, hsources, hsum⟩ := fundingInputs_spec hinputs
  exact ⟨hlength ▸ hfew, hlength ▸ hcovered, sources, hsources, hsum.trans htotal.symm⟩

namespace Transfer

variable {selection : Selection} {retained fee : ℕ} {change : Option Change}

/-- What the change is worth. -/
def changeValue (change : Option Change) : ℕ :=
  change.elim 0 Change.value

/-- **A selection that was accepted is settled**, unless its change has no script or the fee is out
of range. -/
theorem settle_error (h : crates.Weighs) {error : ServiceError}
    (htargets : targets crates request = .ok (minimum, perInput))
    (hfew : selection.inputs.length ≤ walletMaxInputs)
    (hcovered : perInput * selection.inputs.length + minimum ≤ selection.total)
    (hsettle : settle crates account request selection retained = .error error) :
    account.script crates ⟨.internal, selection.nextChange⟩ = .error error ∨
      error = .message "transfer fee overflow" := by
  have henough := amount_and_fee_le h htargets hfew hcovered
  have hrest : checkedSub selection.total request.amount.toNat =
      some (selection.total - request.amount.toNat) := by
    rw [checkedSub, if_pos (by omega)]
  have hquote : ∀ (inputs : ℕ) (script : Option Bytes) (cause : ServiceError),
      quote crates request inputs script = .error cause → cause = .message "transfer fee overflow" := by
    intro inputs script cause hcause
    rw [quote] at hcause
    cases hfee : checkedMul (signedVsize crates (draft (List.replicate inputs OutPoint.null) request
        (script.map fun script => ⟨0, script⟩))) request.rate with
    | none =>
        rw [hfee] at hcause
        cases hcause
        rfl
    | some fee =>
        rw [hfee] at hcause
        cases hcause
  simp only [settle, hrest, contextService, Except.ok_bind] at hsettle
  cases hscript : account.script crates ⟨.internal, selection.nextChange⟩ with
  | error cause =>
      rw [hscript] at hsettle
      cases hsettle
      exact Or.inl rfl
  | ok script =>
      right
      rw [hscript, Except.ok_bind] at hsettle
      cases hfee : quote crates request selection.inputs.length (some script) with
      | error cause =>
          rw [hfee] at hsettle
          cases hsettle
          exact hquote _ _ _ hfee
      | ok fee =>
          rw [hfee, Except.ok_bind] at hsettle
          cases hleast : checkedAdd fee retained with
          | none =>
              rw [hleast] at hsettle
              cases hsettle
              rfl
          | some least =>
              rw [hleast, Except.ok_bind] at hsettle
              split at hsettle
              · cases hsettle
              · cases halone : quote crates request selection.inputs.length none with
                | error cause =>
                    rw [halone] at hsettle
                    cases hsettle
                    exact hquote _ _ _ halone
                | ok single =>
                    obtain ⟨-, rfl⟩ := quote_none.mp halone
                    have hle : alone crates request selection.inputs.length * request.rate ≤
                        selection.total - request.amount.toNat := by omega
                    rw [halone, Except.ok_bind, ensureService, decide_eq_true hle] at hsettle
                    cases hsettle

variable (crates account request) in
/-- What settling makes of a selection. -/
structure Settled (selection : Selection) (retained fee : ℕ) (change : Option Change) : Prop where
  total : selection.total = request.amount.toNat + fee + changeValue change
  retained : ∀ kept ∈ change, retained ≤ kept.value
  /-- The fee pays for the draft, with the script of the change where there is one. -/
  fee : ∀ output, changeOutput crates account change = .ok output →
    signedVsize crates (draft (List.replicate selection.inputs.length OutPoint.null) request
      (output.map fun output => ⟨0, output.scriptPubkey⟩)) * request.rate ≤ fee

/-- **What is settled adds up.** -/
theorem settle_ok (hsettle : settle crates account request selection retained = .ok (fee, change)) :
    Settled crates account request selection retained fee change := by
  simp only [settle, Except.bind_eq_ok] at hsettle
  obtain ⟨rest, hrest, script, hscript, quoted, hquoted, least, hleast, hsettle⟩ := hsettle
  rw [contextService_eq_ok, checkedSub] at hrest
  rw [contextService_eq_ok, checkedAdd] at hleast
  split at hrest
  case isFalse => cases hrest
  split at hleast
  case isFalse => cases hleast
  next hamount _ =>
  cases hrest
  cases hleast
  split at hsettle
  · next hfits =>
    cases hsettle
    rw [quote, contextService_eq_ok, checkedMul_eq_some] at hquoted
    refine ⟨?_, ?_, ?_⟩
    · show _ = request.amount.toNat + fee + (selection.total - request.amount.toNat - fee)
      omega
    · rintro _ ⟨⟩
      show retained ≤ selection.total - request.amount.toNat - fee
      omega
    · intro output houtput
      rw [changeOutput, hscript] at houtput
      cases houtput
      exact hquoted.2.ge
  · simp only [Except.bind_eq_ok] at hsettle
    obtain ⟨single, hsingle, _, hensure, hresult⟩ := hsettle
    cases hresult
    obtain ⟨-, rfl⟩ := quote_none.mp hsingle
    rw [ensureService_eq_ok, decide_eq_true_eq] at hensure
    refine ⟨?_, ?_, ?_⟩
    · show _ = request.amount.toNat + (selection.total - request.amount.toNat) + 0
      omega
    · rintro _ ⟨⟩
    · intro output houtput
      cases houtput
      exact hensure

/-! ## Preparing -/

variable (crates node account request) in
/-- What a prepared transfer accounts for. -/
structure Balanced (transfer : Transfer) : Prop where
  /-- The inputs hold the amount, the fee and the change. -/
  spends : ∃ sources, spent crates transfer.inputs = .ok sources ∧
    transfer.transaction.input.map TxIn.previousOutput = sources.map Prod.fst ∧
    (sources.map fun source => source.2.value.toNat).sum =
      request.amount.toNat + transfer.fee + changeValue transfer.change
  pays : ∃ output, changeOutput crates account transfer.change = .ok output ∧
    transfer.transaction.output = ⟨request.amount, request.destination⟩ :: output.toList
  fee_le : transfer.fee ≤ request.maxFee
  /-- The fee is at least the rate for the virtual size, of what is signed and of its draft. -/
  fee_ge : request.rate * crates.vsize transfer.transaction ≤ transfer.fee ∧
    request.rate * signedVsize crates transfer.transaction ≤ transfer.fee
  change : ∀ kept ∈ transfer.change, publicationReturn node.chain ≤ kept.value

theorem spent_length {inputs : List FundingInput} {sources : List (OutPoint × TxOut)}
    (h : spent crates inputs = .ok sources) : sources.length = inputs.length := by
  induction inputs generalizing sources with
  | nil =>
      cases h
      rfl
  | cons input inputs ih =>
      simp only [spent, Except.bind_eq_ok] at h
      obtain ⟨source, -, rest, hrest, hsources⟩ := h
      cases hsources
      rw [List.length_cons, List.length_cons, ih hrest]

/-- The fee of a draft pays for what is signed. -/
theorem fee_ge_of_signed (h : crates.Weighs) {outpoints : List OutPoint} {output : Option TxOut}
    {signed : Transaction} (hfew : outpoints.length ≤ walletMaxInputs)
    (hsigned : IsSigned (draft outpoints request output) signed)
    (hfee : signedVsize crates (draft (List.replicate outpoints.length OutPoint.null) request
      (output.map fun output => ⟨0, output.scriptPubkey⟩)) * request.rate ≤ fee) :
    request.rate * crates.vsize signed ≤ fee ∧
      request.rate * signedVsize crates signed ≤ fee := by
  rw [walletMaxInputs] at hfew
  obtain ⟨hlength, hscripts⟩ := draft_input outpoints request output
  obtain ⟨hlength', hscripts'⟩ := draft_input (List.replicate outpoints.length OutPoint.null) request
    (output.map fun output => ⟨0, output.scriptPubkey⟩)
  rw [List.length_replicate] at hlength'
  have hpos : 0 < outpoints.length := by
    rw [← hlength]
    exact List.length_pos_iff.mpr hsigned.some_input
  have hsize := signedVsize_eq h (by omega) (by rw [← List.length_pos_iff]; omega) hscripts'
  have houtputs : outputsSize (draft (List.replicate outpoints.length OutPoint.null) request
      (output.map fun output => ⟨0, output.scriptPubkey⟩)).output =
        outputsSize (draft outpoints request output).output := by
    apply outputsSize_congr
    cases output with
    | none => rfl
    | some output => rfl
  obtain ⟨hvsize, hdraft⟩ := hsigned.vsize_le h (by omega) hscripts
  rw [hsize, hlength', houtputs, ← hlength, Nat.mul_comm] at hfee
  exact ⟨(Nat.mul_le_mul_left _ hvsize).trans hfee, (Nat.mul_le_mul_left _ hdraft).trans hfee⟩

/-- **A prepared transfer adds up.** -/
theorem prepare_ok (h : crates.Weighs) {transfer : Transfer}
    (hprepare : prepare crates node account request = .ok transfer) :
    Balanced crates node account request transfer := by
  simp only [prepare, Except.bind_eq_ok, Prod.exists] at hprepare
  obtain ⟨_, -, _, -, minimum, perInput, htargets, selection, hselection, fee, change, hsettle, _,
    hmax, sources, hsources, output, houtput, _, -, signed, hsigned, htransfer⟩ := hprepare
  cases htransfer
  simp only [selectCoins, Except.bind_eq_ok] at hselection
  obtain ⟨view, -, hchosen⟩ := hselection
  obtain ⟨hfew, -, sources', hsources', hsum⟩ := chosen_spec hchosen
  cases hsources.symm.trans hsources'
  obtain ⟨htotal, hretained, hfee⟩ := settle_ok hsettle
  have hsigned := sign_isSigned h hsigned
  rw [ensureService_eq_ok, decide_eq_true_eq] at hmax
  have hlength : (sources.map Prod.fst).length = selection.inputs.length := by
    rw [List.length_map, spent_length hsources]
  refine ⟨⟨sources, hsources, ?_, hsum.trans htotal⟩, ⟨output, houtput, hsigned.output⟩, hmax, ?_,
    hretained⟩
  · rw [hsigned.outpoints]
    show ((sources.map Prod.fst).map _).map TxIn.previousOutput = _
    rw [List.map_map]
    exact List.map_id _
  · apply fee_ge_of_signed h (by rw [hlength]; exact hfew) hsigned
    rw [hlength]
    exact hfee output houtput

/-! ## Covering -/

variable (crates node account request) in
/-- Coins are chosen from what the wallet shows, by these targets. -/
structure Chooses (view : WalletView) (minimum perInput : ℕ) : Prop where
  amount : publicationReturn node.chain ≤ request.amount.toNat
  destination : isOpReturn request.destination = false
  targets : targets crates request = .ok (minimum, perInput)
  view : wallet node.toWalletNode = .ok view

variable (crates node account request) in
/-- `prepare` reports that the coins of the wallet do not cover the spend. -/
structure ReportsUncovered (view : WalletView) (error : ServiceError) : Prop where
  prepare : prepare crates node account request = .error error
  uncovered : IsUncovered error
  choose : ∃ minimum perInput, Chooses crates node request view minimum perInput ∧
    choose node.live view.coins minimum perInput .scanned = .error error

variable (crates request) in
/-- The first coins cover the amount and the fee without change for their number. -/
def Affords (coins : List Coin) (inputs : ℕ) : Prop :=
  request.amount.toNat + request.rate * alone crates request inputs ≤ worth (coins.take inputs)

variable (crates node account request) in
/-- What a transfer accounts for: what is prepared adds up, what is selected is settled, and coins
are refused only where no prefix of them is enough. -/
structure Accounting : Prop where
  balanced : ∀ transfer, prepare crates node account request = .ok transfer →
    Balanced crates node account request transfer
  /-- What was chosen is never short of funding: only the script of the change, or the range of the
  fee, can fail. -/
  settled : ∀ (coins : List Coin) (minimum perInput retained : ℕ) (liveness : Liveness)
    (selection : Selection) (error : ServiceError),
    targets crates request = .ok (minimum, perInput) →
    chosen crates node account coins minimum perInput liveness = .ok selection →
    settle crates account request selection retained = .error error →
      account.script crates ⟨.internal, selection.nextChange⟩ = .error error ∨
        error = .message "transfer fee overflow"
  covered : ∀ view error, ReportsUncovered crates node account request view error →
    ∀ inputs ≤ view.coins.length, inputs ≤ walletMaxInputs →
      ¬Affords crates request view.coins inputs

variable (crates request) in
/-- The amount, the fee of one input, and 68 virtual bytes for each input. -/
def linearTarget (inputs : ℕ) : ℕ :=
  request.amount.toNat + request.rate * (alone crates request 1 + 68 * inputs)

variable (crates node request) in
/-- **No coins fall into the gap**: where some of the largest live coins cover the amount and the
fee of their number, some of them also cover the linear target, which has one input more, or leave
the range of the arithmetic. -/
def NoGap : Prop :=
  ∀ view, wallet node.toWalletNode = .ok view →
    publicationReturn node.chain ≤ request.amount.toNat →
    isOpReturn request.destination = false →
    request.rate * alone crates request 2 ≤ u64Max →
    request.amount.toNat + request.rate * alone crates request 1 ≤ u64Max →
    (∃ inputs ≤ view.coins.length, inputs ≤ walletMaxInputs ∧
      Affords crates request view.coins inputs) →
    ∃ inputs ≤ view.coins.length, inputs ≤ walletMaxInputs ∧
      (linearTarget crates request inputs ≤ worth (view.coins.take inputs) ∨
        u64Max < worth (view.coins.take inputs) ∨ u64Max < linearTarget crates request inputs)

/-- The targets of so many coins are the linear target. -/
theorem linearTarget_eq (h : crates.Weighs) {inputs : ℕ}
    (htargets : targets crates request = .ok (minimum, perInput)) :
    perInput * inputs + minimum = linearTarget crates request inputs := by
  obtain ⟨-, -, rfl, rfl⟩ := (targets_eq h).mp htargets
  rw [linearTarget, Nat.mul_add, Nat.mul_comm 68, Nat.mul_assoc, Nat.mul_comm request.rate (alone _ _ _)]
  omega

theorem prepare_of_choose {view : WalletView} {error : ServiceError}
    (h : Chooses crates node request view minimum perInput)
    (hchoose : choose node.live view.coins minimum perInput .scanned = .error error) :
    prepare crates node account request = .error error := by
  have hselect : selectCoins crates node account minimum perInput = .error error := by
    rw [selectCoins, h.view, Except.ok_bind, chosen, hchoose]
    rfl
  simp only [prepare, ensureService, decide_eq_true h.amount, h.destination, Bool.not_false, if_true,
    Except.ok_bind, h.targets, hselect]
  rfl

/-- **When coins are refused**: every prefix of them is short of the linear target. -/
theorem reports_iff (h : crates.Weighs) {view : WalletView}
    (hchooses : Chooses crates node request view minimum perInput) :
    (∃ error, ReportsUncovered crates node account request view error) ↔
      ∀ inputs ≤ view.coins.length, inputs ≤ walletMaxInputs →
        worth (view.coins.take inputs) ≤ u64Max ∧ linearTarget crates request inputs ≤ u64Max ∧
          worth (view.coins.take inputs) < linearTarget crates request inputs := by
  have hrefused := @refused_iff node.live view.coins minimum perInput 0 [] (Nat.zero_le _)
    (Nat.zero_le _)
  have hshort : (∀ inputs ≤ view.coins.length, inputs ≤ walletMaxInputs →
        worth (view.coins.take inputs) ≤ u64Max ∧ linearTarget crates request inputs ≤ u64Max ∧
          worth (view.coins.take inputs) < linearTarget crates request inputs) ↔
      ∀ j ≤ view.coins.length, ([] : List Coin).length + j ≤ walletMaxInputs →
        Short minimum perInput (0 + worth (view.coins.take j)) (([] : List Coin).length + j) := by
    simp only [List.length_nil, Nat.zero_add, Short, linearTarget_eq h hchooses.targets]
  rw [hshort, ← hrefused, ← choose_eq]
  constructor
  · rintro ⟨error, hreports⟩
    obtain ⟨minimum', perInput', hchooses', hchoose⟩ := hreports.choose
    have htargets := hchooses.targets.symm.trans hchooses'.targets
    cases htargets
    exact ⟨error, hreports.uncovered, hchoose⟩
  · rintro ⟨error, huncovered, hchoose⟩
    exact ⟨error, prepare_of_choose hchooses hchoose, huncovered, minimum, perInput, hchooses,
      hchoose⟩

/-- **Transfers account for every coin, but in the gap.** What is prepared adds up and pays its
fee, and no selection is short of funding; coins are refused only where no prefix of at most fifty
of them is enough, if and only if no coins fall into the gap between the fee of their number and
that of one input more. -/
theorem transfer_accounting (h : crates.Weighs) :
    Accounting crates node account request ↔ NoGap crates node request := by
  constructor
  · intro haccounting view hview hamount hdestination hdouble hleast haffords
    obtain ⟨enough, hlength, hfew, hafford⟩ := haffords
    by_contra hgap
    have hchooses : Chooses crates node request view
        (request.amount.toNat + alone crates request 1 * request.rate) (68 * request.rate) :=
      ⟨hamount, hdestination, (targets_eq h).mpr ⟨by rwa [Nat.mul_comm], by rwa [Nat.mul_comm],
        rfl, rfl⟩, hview⟩
    have hshort : ∀ inputs ≤ view.coins.length, inputs ≤ walletMaxInputs →
        worth (view.coins.take inputs) ≤ u64Max ∧ linearTarget crates request inputs ≤ u64Max ∧
          worth (view.coins.take inputs) < linearTarget crates request inputs := by
      intro inputs hle hmax
      by_contra hreach
      exact hgap ⟨inputs, hle, hmax, by omega⟩
    obtain ⟨error, hreports⟩ := (@reports_iff _ node account _ _ _ h view hchooses).mpr hshort
    exact haccounting.covered view error hreports enough hlength hfew hafford
  · intro hgap
    refine ⟨fun transfer => prepare_ok h, ?_, ?_⟩
    · intro coins minimum perInput retained liveness selection error htargets hchosen hsettle
      obtain ⟨hfew, hcovered, -⟩ := chosen_spec hchosen
      exact settle_error h htargets hfew hcovered hsettle
    · intro view error hreports inputs hlength hfew hafford
      obtain ⟨minimum, perInput, hchooses, -⟩ := hreports.choose
      obtain ⟨hdouble, hleast, -, -⟩ := (targets_eq h).mp hchooses.targets
      obtain ⟨enough, hle, hmax, hreach⟩ := hgap view hchooses.view hchooses.amount
        hchooses.destination (by rwa [Nat.mul_comm]) (by rwa [Nat.mul_comm request.rate])
        ⟨inputs, hlength, hfew, hafford⟩
      obtain ⟨hworth, htarget, hshort⟩ := (reports_iff h hchooses).mp ⟨error, hreports⟩ enough hle hmax
      omega

end Transfer

end Transfer

/-! ## Two wallets -/

namespace Transfer.Sample

/-- A request to pay 50000 base units at one base unit for each virtual byte. -/
def request : TransferRequest where
  destination := 0 :: 20 :: List.replicate 20 7
  amount := 50000
  rate := 1
  rate_pos := Nat.one_pos
  maxFee := 10000

/-- A coin of some value. -/
def coin (value : ℕ) : Coin where
  outpoint := ⟨⟨Vector.replicate 32 4⟩, 0⟩
  value
  height := 1
  path := KeyPath.receive

/-- A node that reports one live coin. -/
def node (value : ℕ) : TransferNode where
  verifyNetwork := .ok ()
  accountGenesis := .ok zeroHash
  nodeGenesis := .ok zeroHash
  coins := .ok [coin value]
  live _ := .ok true
  chain := .bitcoinRegtest
  parentRaw _ := .error (.message "missing funding bytes")

/-- The wallet shows that coin. -/
def view (value : ℕ) : WalletView where
  coins := [coin value]
  nextChange := 0
  reported := 1
  verified := true
  skipped := 0

theorem wallet_node (value : ℕ) : wallet (node value).toWalletNode = .ok (view value) := rfl

theorem worth_take (value inputs : ℕ) (h : 0 < inputs) :
    worth ((view value).coins.take inputs) = value := by
  cases inputs with
  | zero => exact absurd h (Nat.lt_irrefl 0)
  | succ inputs =>
      show worth ([coin value].take (inputs + 1)) = value
      rw [List.take_succ_cons, List.take_nil]
      rfl

theorem alone_one : alone Planning.Sample.crates request 1 = 110 := by
  rw [alone_eq Planning.Sample.crates_lawful.weighs (by decide) (by decide)]
  decide

theorem alone_two : alone Planning.Sample.crates request 2 = 178 := by
  rw [alone_eq Planning.Sample.crates_lawful.weighs (by decide) (by decide)]
  decide

/-- The request is one that coins are chosen for. -/
theorem chooses (value : ℕ) :
    Chooses Planning.Sample.crates (node value) request (view value) 50110 68 where
  amount := by
    show publicationReturn .bitcoinRegtest ≤ request.amount.toNat
    decide
  destination := rfl
  targets := by
    rw [targets_eq Planning.Sample.crates_lawful.weighs, alone_one, alone_two]
    decide
  view := wallet_node value

end Transfer.Sample

/-- A wallet with more than enough is served. -/
theorem transfer_accounting_ample :
    Transfer.Accounting Planning.Sample.crates (Transfer.Sample.node 100000)
      Planning.Sample.funder Transfer.Sample.request := by
  refine (Transfer.transfer_accounting Planning.Sample.crates_lawful.weighs).mpr ?_
  intro view hview _ _ _ _ _
  cases (Transfer.Sample.wallet_node 100000).symm.trans hview
  refine ⟨1, Nat.le_refl 1, by decide, Or.inl ?_⟩
  rw [Transfer.Sample.worth_take 100000 1 Nat.one_pos, Transfer.linearTarget,
    Transfer.Sample.alone_one]
  decide

/-- A coin of exactly the amount and the fee is refused. -/
theorem transfer_accounting_false :
    ¬Transfer.Accounting Planning.Sample.crates (Transfer.Sample.node 50110)
      Planning.Sample.funder Transfer.Sample.request := by
  intro haccounting
  have hshort : ∀ inputs ≤ (Transfer.Sample.view 50110).coins.length, inputs ≤ walletMaxInputs →
      worth ((Transfer.Sample.view 50110).coins.take inputs) ≤ u64Max ∧
        Transfer.linearTarget Planning.Sample.crates Transfer.Sample.request inputs ≤ u64Max ∧
        worth ((Transfer.Sample.view 50110).coins.take inputs) <
          Transfer.linearTarget Planning.Sample.crates Transfer.Sample.request inputs := by
    intro inputs hlength _
    rw [Transfer.linearTarget, Transfer.Sample.alone_one]
    have hle : inputs ≤ 1 := hlength
    rcases Nat.le_one_iff_eq_zero_or_eq_one.mp hle with rfl | rfl
    · decide
    · decide
  obtain ⟨error, hreports⟩ := (@Transfer.reports_iff _ (Transfer.Sample.node 50110)
    Planning.Sample.funder _ _ _ Planning.Sample.crates_lawful.weighs _
    (Transfer.Sample.chooses 50110)).mpr hshort
  apply haccounting.covered (Transfer.Sample.view 50110) error hreports 1 (Nat.le_refl 1) (by decide)
  rw [Transfer.Affords, Transfer.Sample.alone_one]
  decide

end Urma.Runtime
