import Urma.Runtime.Prepare

/-!
# The planner

`urma_runtime::planner` and the plans that are prepared with it: records are prepared one after
another, the first one from the selected coins and every later one from the change before it, as
long as their fees stay within the approved maximum.
-/

namespace Urma.Runtime

open Chain Lib

/-- `plan::PlanLimits`. -/
structure PlanLimits where
  feeRate : ℕ
  maxFee : ℕ
  maxRecords : ℕ
  deriving DecidableEq

/-- `planner::Planner`, without author and funder. -/
structure Planner where
  inputs : List FundingInput
  plan : PublicationPlan
  limits : PlanLimits
  deriving DecidableEq

namespace Planner

variable (crates : PrepareCrates) (author : Author) (funder : Account crates.PrivateKey)

/-- `Planner::minimum`. -/
def minimum (chain : Chain) (limits : PlanLimits) (records : ℕ) : Except ServiceError ℕ := do
  ensureService (0 < records && records ≤ limits.maxRecords)
    "publication exceeds caller record budget"
  ensureService (1 ≤ limits.feeRate && limits.feeRate ≤ 100 && 0 < limits.maxFee)
    "invalid publication fee limits"
  contextService (checkedAdd limits.maxFee ((records + 1) * publicationReturn chain))
    "funding budget overflow"

/-- `Planner::funded`. -/
def funded (chain : Chain) (limits : PlanLimits) (inputs : List FundingInput) :
    Except ServiceError Planner := do
  let script ← funder.receiveScript crates
  .ok
    { inputs
      limits
      plan :=
        { version := 1
          chain
          author := crates.displayKey author.key
          returnScript := crates.hexEncode script
          rootTxid := ""
          totalFee := 0
          maximumFee := limits.maxFee
          records := [] } }

/-- `Planner::prepare_record`. -/
def prepareRecord (planner : Planner) (record : Bytes) :
    Except ServiceError (ChildReference × PublicPlan × Planner) := do
  let genesis ← crates.genesis planner.plan.chain
  ensureService (planner.limits.feeRate != 0) "zero fee rate"
  let budget : FeeBudget := ⟨genesis, planner.limits.feeRate, planner.limits.maxFee⟩
  let prepared ← prepareSignedBytes crates record author funder planner.inputs budget
  let pair := prepared.plan
  let reveal ← decodeStandard crates.toPublishCrates pair.reveal
  let totalFee ← contextService (checkedAdd planner.plan.totalFee prepared.fee) "fee sum overflow"
  ensureService (totalFee ≤ planner.limits.maxFee) "publication exceeds approved maximum fee"
  let txid := crates.reveal.consensus.computeTxid reveal
  .ok (⟨txid, crates.sha256 record⟩, pair,
    { planner with
      plan := { planner.plan with totalFee, rootTxid := crates.displayTxid txid }
      inputs := [⟨⟨pair.commit, 1⟩, .receive⟩] })

/-- `Planner::append`. -/
def append (planner : Planner) (record : Bytes) :
    Except ServiceError (ChildReference × Planner) := do
  let (reference, pair, planner) ← planner.prepareRecord crates author funder record
  .ok (reference, { planner with
    plan := { planner.plan with records := planner.plan.records ++ [pair] } })

/-- `Planner::finish`. -/
def finish (planner : Planner) : Except ServiceError PublicationPlan := do
  planner.plan.validate crates.toPlanCrates
  .ok planner.plan

/-- The records of a publication, prepared one after another, with what they were prepared to. -/
def prepareAll : List Bytes → Planner → Except ServiceError (List PublicPlan × Planner)
  | [], planner => .ok ([], planner)
  | record :: records, planner => do
      let (_, pair, planner) ← planner.prepareRecord crates author funder record
      let (pairs, planner) ← prepareAll records planner
      .ok (pair :: pairs, planner)

/-- The same records, appended to the plan that is held in memory. -/
def appendAll : List Bytes → Planner → Except ServiceError Planner
  | [], planner => .ok planner
  | record :: records, planner => do
      let (_, planner) ← planner.append crates author funder record
      appendAll records planner

end Planner

end Urma.Runtime
