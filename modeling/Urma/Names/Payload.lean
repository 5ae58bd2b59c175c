import Urma.Names.Name

/-!
# Registry rules and record payloads

`urma_names::payload`: the rules a registry's genesis record fixes, and the six other
operations a names record can carry.
-/

namespace Urma.Names

/-- `urma_names::payload::Mode`. -/
inductive Mode where
  | «open»
  | administered
  deriving DecidableEq

/-- `urma_names::payload::Genesis`: the rules of one registry. -/
structure Genesis where
  mode : Mode
  expiryBlocks : UInt32
  revealMaxBlocks : UInt16
  threshold : UInt8
  approvers : List XOnlyPublicKey
  deriving DecidableEq

/-- `Genesis::MAX_APPROVERS`. -/
def Genesis.maxApprovers : Nat := 255

/-- `pair[0] < pair[1]` over all windows of two: each key's bytes are below the next's. -/
def ascending : List XOnlyPublicKey → Bool
  | a :: b :: rest => (compare a.serialize b.serialize).isLT && ascending (b :: rest)
  | _ => true

/-- `Genesis::validate`. -/
def Genesis.validate (self : Genesis) : Except Error Unit := do
  ensure (1 ≤ self.revealMaxBlocks.toNat) "reveal_max_blocks must be at least 1"
  ensure (self.revealMaxBlocks.toNat < self.expiryBlocks.toNat)
    "expiry_blocks must exceed reveal_max_blocks"
  match self.mode with
  | .«open» =>
    ensure (self.threshold == 0 && self.approvers.isEmpty)
      "open registries carry no threshold or approvers"
  | .administered =>
    ensure (!self.approvers.isEmpty && self.approvers.length ≤ Genesis.maxApprovers)
      "administered registries need 1..255 approvers"
    ensure (1 ≤ self.threshold.toNat && self.threshold.toNat ≤ self.approvers.length)
      "threshold must be 1..=approver count"
  ensure (ascending self.approvers) "approvers must be unique and ascending"

/-- `Genesis::is_approver`. -/
def Genesis.isApprover (self : Genesis) (key : XOnlyPublicKey) : Bool :=
  self.approvers.contains key

/-- `urma_names::payload::OwnerOp`: the body of a claim, an update or a renewal. -/
structure OwnerOp where
  registry : Txid
  salt : Vector UInt8 16
  name : Name
  target : Txid
  deriving DecidableEq

/-- `OwnerOp::is_reserving`: an all-zero target. -/
def OwnerOp.isReserving (self : OwnerOp) : Bool :=
  self.target.bytes == Vector.replicate 32 0

/-- `urma_names::payload::Approval`. -/
structure Approval where
  registry : Txid
  recordTxid : Txid
  recordSha256 : Bytes32
  deriving DecidableEq

/-- `urma_names::payload::NameOp`: the body of a suspension or a restoration. -/
structure NameOp where
  registry : Txid
  name : Name
  deriving DecidableEq

/-- `urma_names::payload::Payload`. -/
inductive Payload where
  | genesis (rules : Genesis)
  | claim (op : OwnerOp)
  | update (op : OwnerOp)
  | renew (op : OwnerOp)
  | approve (approval : Approval)
  | suspend (op : NameOp)
  | restore (op : NameOp)
  deriving DecidableEq

/-- The operations that only approvers sign, handled before all others of a block. -/
def Payload.isApproverOp : Payload → Bool
  | .approve _ | .suspend _ | .restore _ => true
  | .genesis _ | .claim _ | .update _ | .renew _ => false

/-! ## What validation guarantees -/

/-- The rules a registry can run under. -/
structure Genesis.Valid (rules : Genesis) : Prop where
  window : 1 ≤ rules.revealMaxBlocks.toNat
  expiry : rules.revealMaxBlocks.toNat < rules.expiryBlocks.toNat
  «open» : rules.mode = .«open» → rules.threshold = 0 ∧ rules.approvers = []
  administered : rules.mode = .administered →
    1 ≤ rules.threshold.toNat ∧ rules.threshold.toNat ≤ rules.approvers.length
  ascending : ascending rules.approvers = true

theorem Genesis.valid_of_validate {rules : Genesis} (h : rules.validate = .ok ()) :
    rules.Valid := by
  unfold Genesis.validate at h
  obtain ⟨_, hwindow, h⟩ := Except.bind_eq_ok.mp h
  obtain ⟨_, hexpiry, h⟩ := Except.bind_eq_ok.mp h
  rw [ensure_eq_ok, decide_eq_true_eq] at hwindow hexpiry
  cases hmode : rules.mode with
  | «open» =>
      rw [hmode] at h
      obtain ⟨_, hopen, hasc⟩ := Except.bind_eq_ok.mp h
      rw [ensure_eq_ok] at hopen hasc
      simp only [Bool.and_eq_true, beq_iff_eq, List.isEmpty_iff] at hopen
      exact ⟨hwindow, hexpiry, fun _ => hopen, fun h => by simp [hmode] at h, hasc⟩
  | administered =>
      rw [hmode] at h
      obtain ⟨_, _, h⟩ := Except.bind_eq_ok.mp h
      obtain ⟨_, hthreshold, hasc⟩ := Except.bind_eq_ok.mp h
      rw [ensure_eq_ok] at hthreshold hasc
      simp only [Bool.and_eq_true, decide_eq_true_eq] at hthreshold
      exact ⟨hwindow, hexpiry, fun h => by simp [hmode] at h, fun _ => hthreshold, hasc⟩

end Urma.Names
