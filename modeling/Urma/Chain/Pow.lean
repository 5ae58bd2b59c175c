import Urma.Chain.Block
import Urma.Chain.Config

/-!
# Proof of work

`urma_chain::pow`: the proof of work of a header, the work of a chain and the difficulty the next
header must have. Targets are numbers below `2 ^ 256`; the retarget multiplies and divides them
in four limbs of 64 bits, as the source does.
-/

namespace Urma.Chain

/-- `PowError`. -/
inductive PowError where
  | scryptParams
  | scrypt
  | invalidTarget
  | unmet
  | emptyWindow
  | shortWindow (needed got : ℕ)
  | missingDifficultyContext (firstHeight : ℕ)
  | heightOverflow
  | timeOverflow
  | width
  deriving DecidableEq, Repr

/-- What the error displays; the causes of other crates are left out. -/
def PowError.text : PowError → String
  | scryptParams => "scrypt parameters"
  | scrypt => "scrypt output"
  | invalidTarget => "header target is zero or above the chain limit"
  | unmet => "header hash does not meet its target"
  | emptyWindow => "header window is empty"
  | shortWindow needed got => s!"retarget needs {needed} headers, window holds {got}"
  | missingDifficultyContext firstHeight =>
      s!"minimum-difficulty lookup lacks context before first available height {firstHeight}"
  | heightOverflow => "header height overflow"
  | timeOverflow => "header time overflow"
  | width => "integer width"

/-- What `pow` takes from the `bitcoin` and `scrypt` crates. -/
structure PowCrate where
  /-- `Header::block_hash`. -/
  blockHash : Header → Bytes32
  /-- `scrypt` of the serialized header under the parameters of the chain. -/
  scrypt : Header → Except PowError Bytes32
  /-- `Target::from_compact`. -/
  fromCompact : UInt32 → ℕ
  /-- `Target::to_compact_lossy`. -/
  toCompactLossy : ℕ → UInt32
  /-- `Target::is_met_by`. -/
  isMetBy : ℕ → Bytes32 → Bool
  /-- `Header::work`. -/
  work : Header → ℕ
  /-- `Work::add`. -/
  addWork : ℕ → ℕ → ℕ

/-- What the code relies on: every header has some work, and adding works is exact as long as
the sum fits 256 bits. -/
structure PowCrate.Lawful (crate : PowCrate) : Prop where
  work_pos : ∀ header, 0 < crate.work header
  addWork : ∀ a b, a + b < 2 ^ 256 → crate.addWork a b = a + b

namespace Standard

/-- `Target::from_compact`: a signed mantissa of three bytes and an exponent. -/
def fromCompact (bits : UInt32) : ℕ :=
  let exponent := bits.toNat / 2 ^ 24
  let mantissa :=
    if exponent ≤ 3 then bits.toNat % 2 ^ 24 / 2 ^ (8 * (3 - exponent)) else bits.toNat % 2 ^ 24
  if 0x7fffff < mantissa then 0 else mantissa * 2 ^ (8 * (exponent - 3))

/-- `Target::to_compact_lossy`. -/
def toCompactLossy (target : ℕ) : UInt32 :=
  let size := (Nat.size target + 7) / 8
  let mantissa := target * 2 ^ (8 * (3 - size)) / 2 ^ (8 * (size - 3))
  if mantissa / 2 ^ 23 % 2 = 1 then UInt32.ofNat (mantissa / 2 ^ 8 + (size + 1) * 2 ^ 24)
  else UInt32.ofNat (mantissa + size * 2 ^ 24)

/-- The number of hashes a target takes on average. -/
def work (header : Header) : ℕ :=
  let target := fromCompact header.bits
  if target = 0 then 2 ^ 256 - 1 else (2 ^ 256 - 1 - target) / (target + 1) + 1

end Standard

/-- The crate for the chains that use double SHA-256. -/
def PowCrate.standard : PowCrate where
  blockHash header := Standard.sha256d (Standard.serializeHeader header)
  scrypt _ := .error .scryptParams
  fromCompact := Standard.fromCompact
  toCompactLossy := Standard.toCompactLossy
  isMetBy target hash := Lib.Layout.fromLe hash.toList ≤ target
  work := Standard.work
  addWork a b := (a + b) % 2 ^ 256

theorem PowCrate.standard_lawful : PowCrate.standard.Lawful where
  work_pos header := by
    show 0 < Standard.work header
    rw [Standard.work]
    split
    · decide
    · exact Nat.succ_pos _
  addWork _ _ h := Nat.mod_eq_of_lt h

variable (crate : PowCrate)

/-! ## The work of headers -/

/-- `pow_hash`. -/
def powHash (header : Header) (chain : Chain) : Except PowError Bytes32 :=
  match chain.params.pow with
  | .sha256d => .ok (crate.blockHash header)
  | .scrypt => crate.scrypt header

/-- `pow_limit`. -/
def powLimit (chain : Chain) : ℕ :=
  crate.fromCompact chain.params.powLimitBits

/-- `check_header_pow`. -/
def checkHeaderPow (header : Header) (chain : Chain) : Except PowError Unit := do
  let target := crate.fromCompact header.bits
  if target = 0 ∨ powLimit crate chain < target then .error .invalidTarget
  else do
    let hash ← powHash crate header chain
    if crate.isMetBy target hash then .ok () else .error .unmet

/-- `chain_work`. -/
def chainWork (headers : List Header) : Except PowError ℕ :=
  match headers with
  | [] => .error .emptyWindow
  | first :: rest =>
      .ok (rest.foldl (fun total header => crate.addWork total (crate.work header))
        (crate.work first))

/-! ## Targets in limbs -/

/-- `limbs`: the four words of a target, least significant first. -/
def limbs (target : ℕ) : List ℕ :=
  (List.range 4).map fun i => target / 2 ^ (64 * i) % 2 ^ 64

/-- `Target::from_le_bytes` of `bytes`: the number four words write. -/
def fromLimbs : List ℕ → ℕ
  | [] => 0
  | limb :: rest => limb + 2 ^ 64 * fromLimbs rest

/-- The loop of `mul_mod_2_256`, from a carry. -/
def mulLimbs (factor : ℕ) : List ℕ → ℕ → List ℕ
  | [], _ => []
  | limb :: rest, carry =>
      let product := limb * factor + carry
      product % 2 ^ 64 :: mulLimbs factor rest (product / 2 ^ 64)

/-- `mul_mod_2_256`. Its only error is that of a word above 64 bits, and words are cut to that. -/
def mulMod (words : List ℕ) (factor : ℕ) : List ℕ :=
  mulLimbs factor words 0

/-- The loop of `div_u64`, over the words from the most significant one, from a remainder. -/
def divLimbs (divisor : ℕ) : List ℕ → ℕ → Except PowError (List ℕ)
  | [], _ => .ok []
  | limb :: rest, remainder => do
      let current := remainder * 2 ^ 64 + limb
      if 2 ^ 64 ≤ current / divisor then .error .width
      else do
        let quotients ← divLimbs divisor rest (current % divisor)
        .ok (current / divisor :: quotients)

/-- `div_u64`. -/
def divU64 (words : List ℕ) (divisor : ℕ) : Except PowError (List ℕ) := do
  let quotients ← divLimbs divisor words.reverse 0
  .ok quotients.reverse

/-! ## The required difficulty -/

/-- `i64::clamp` of the time a window took. -/
def clampSpan (last first : Header) (timespan : ℕ) : ℕ :=
  let actual : Int := last.time.toNat - first.time.toNat
  (max (timespan / 4 : Int) (min actual (timespan * 4))).toNat

/-- `retarget`, of the first header of the window. -/
def retarget (last first : Header) (timespan limit : ℕ) : Except PowError ℕ := do
  let actual := clampSpan last first timespan
  let scaled ← divU64 (mulMod (limbs (crate.fromCompact last.bits)) actual) timespan
  let fresh := fromLimbs scaled
  .ok (if limit < fresh then limit else fresh)

/-- `last_regular_bits`, over the headers from the newest one: back to a header on a boundary or
with bits of its own. -/
def lastRegularBits (interval : ℕ) (limitBits : UInt32) : List Header → ℕ → Except PowError UInt32
  | [], height => .error (.missingDifficultyContext height)
  | [header], height =>
      if height % interval ≠ 0 ∧ header.bits = limitBits then
        .error (.missingDifficultyContext height)
      else .ok header.bits
  | header :: older, height =>
      if height % interval ≠ 0 ∧ header.bits = limitBits then
        lastRegularBits interval limitBits older (height - 1)
      else .ok header.bits

/-- The number of headers before the last one that a retarget looks back over. -/
def lookback (params : ChainParams) (nextHeight : ℕ) : ℕ :=
  if nextHeight = params.retargetInterval then params.retargetInterval - 1
  else params.retargetLookback

/-- The bits a retarget over a window gives. -/
def windowBits (chain : Chain) (last first : Header) : Except PowError UInt32 := do
  let target ← retarget crate last first chain.params.targetTimespan (powLimit crate chain)
  .ok (crate.toCompactLossy target)

/-- The bits a retarget gives the next header. -/
def retargetBits (chain : Chain) (headers : List Header) (last : Header) (nextHeight : ℕ) :
    Except PowError UInt32 :=
  let needed := lookback chain.params nextHeight + 1
  if h : headers.length < needed then .error (.shortWindow needed headers.length)
  else windowBits crate chain last (headers.get ⟨headers.length - needed, by omega⟩)

/-- `expected_bits`. -/
def expectedBits (chain : Chain) (headers : List Header) (firstHeight : ℕ) (nextTime : UInt32) :
    Except PowError UInt32 :=
  let params := chain.params
  match headers.getLast? with
  | none => .error .emptyWindow
  | some last =>
      let lastHeight := firstHeight + (headers.length - 1)
      if u64Max < lastHeight + 1 then .error .heightOverflow
      else if !params.retargets then .ok last.bits
      else if (lastHeight + 1) % params.retargetInterval ≠ 0 then
        if !params.allowMinDifficulty then .ok last.bits
        else if u32Max < last.time.toNat + params.targetSpacing * 2 then .error .timeOverflow
        else if last.time.toNat + params.targetSpacing * 2 < nextTime.toNat then
          .ok params.powLimitBits
        else lastRegularBits params.retargetInterval params.powLimitBits headers.reverse lastHeight
      else retargetBits crate chain headers last (lastHeight + 1)

end Urma.Chain
