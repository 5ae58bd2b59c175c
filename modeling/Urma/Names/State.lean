import Mathlib.Data.Finset.Card
import Urma.Names.Payload

/-!
# Registry state

`urma_names::state`: what the registry stores about a name and about a pending record,
what it is told about a block, and what it answers.

The key sets (`BTreeSet<XOnlyPublicKey>`) are only inserted into, counted and cleared,
so they are finite sets; no order is observed.
-/

namespace Urma.Names

open Std

/-- `urma_names::state::Target`. -/
inductive Target where
  | reserved
  | publication (txid : Txid)
  deriving DecidableEq

/-- `urma_names::state::Bound`. -/
structure Bound where
  owner : XOnlyPublicKey
  target : Target
  expiry : Nat
  claimTxid : Txid
  lastTxid : Txid
  deriving DecidableEq

/-- `urma_names::state::Binding`. -/
inductive Binding where
  | unbound
  | bound (bound : Bound)
  deriving DecidableEq

/-- `urma_names::state::NameState`. -/
structure NameState where
  binding : Binding
  suspended : Bool
  suspendVotes : Finset XOnlyPublicKey
  restoreVotes : Finset XOnlyPublicKey
  deriving DecidableEq

/-- `NameState::unbound`. -/
def NameState.unbound : NameState where
  binding := .unbound
  suspended := false
  suspendVotes := ∅
  restoreVotes := ∅

/-- `urma_names::config::state_of`: the state of a name, `unbound` when it is absent. -/
def stateOf (names : ExtTreeMap Name NameState) (name : Name) : NameState :=
  match names[name]? with
  | some state => state
  | none => .unbound

/-- `urma_names::state::PendingKind`. -/
inductive PendingKind where
  | request
  | update
  deriving DecidableEq

/-- `urma_names::state::PendingRecord`. -/
structure PendingRecord where
  kind : PendingKind
  name : Name
  author : XOnlyPublicKey
  target : Txid
  sha256 : Bytes32
  height : Nat
  approvals : Finset XOnlyPublicKey
  completed : Bool
  deriving DecidableEq

/-- `urma_names::state::Commit`: where the commit output of a reveal is. -/
structure Commit where
  txid : Txid
  vout : Nat
  height : Nat
  position : Nat
  deriving DecidableEq

/-- `urma_names::state::Observation`: one names record of a block. -/
structure Observation where
  txid : Txid
  author : XOnlyPublicKey
  recordSha256 : Bytes32
  payload : Payload
  height : Nat
  position : Nat
  commit : Commit
  deriving DecidableEq

/-- `urma_names::state::Rejection`. -/
inductive Rejection where
  | foreignRegistry
  | commitNotAfterGenesis
  | revealWindow
  | overflow
  | openRegistry
  | notApprover
  | unknownRecord
  | hashMismatch
  | completed
  | repeated
  | zeroTarget
  | nameBound
  | nameUnbound
  | notOwner
  | targetChanged
  | nameSuspended
  | ownerChanged
  | wrongPhase
  | lostRace
  deriving DecidableEq

/-- `urma_names::state::Verdict`. -/
inductive Verdict where
  | applied
  | pending
  | inert (rejection : Rejection)
  | invalid (rejection : Rejection)
  deriving DecidableEq

/-- `urma_names::state::Outcome`. -/
structure Outcome where
  txid : Txid
  position : Nat
  verdict : Verdict
  deriving DecidableEq

/-- `Outcome::new`. -/
def Outcome.new (observation : Observation) (verdict : Verdict) : Outcome :=
  ⟨observation.txid, observation.position, verdict⟩

/-- `urma_names::state::Resolution`. -/
inductive Resolution where
  | unbound
  | bound (bound : Bound)
  | suspended
  deriving DecidableEq

/-! ## Reading a state -/

/-- The expiry a state carries in its binding, if it is bound. -/
def NameState.expiry? (state : NameState) : Option Nat :=
  match state.binding with
  | .bound bound => some bound.expiry
  | .unbound => none

theorem NameState.expiry?_eq_some {state : NameState} {expiry : Nat} :
    state.expiry? = some expiry ↔
      ∃ bound, state.binding = .bound bound ∧ bound.expiry = expiry := by
  unfold NameState.expiry?
  cases hbinding : state.binding with
  | unbound => simp
  | bound bound => simp

@[simp] theorem NameState.unbound_binding : NameState.unbound.binding = .unbound := rfl

theorem stateOf_eq_getD (names : ExtTreeMap Name NameState) (name : Name) :
    stateOf names name = (names[name]?).getD .unbound := by
  unfold stateOf
  cases names[name]? <;> rfl

/-- A stored state, read through `stateOf`. -/
theorem stateOf_of_get {names : ExtTreeMap Name NameState} {name : Name} {state : NameState}
    (h : names[name]? = some state) : stateOf names name = state := by
  rw [stateOf_eq_getD, h]; rfl

/-- A bound name is a stored name. -/
theorem stateOf_bound {names : ExtTreeMap Name NameState} {name : Name} {bound : Bound}
    (h : (stateOf names name).binding = .bound bound) :
    names[name]? = some (stateOf names name) := by
  unfold stateOf at h ⊢
  cases hget : names[name]? with
  | none => rw [hget] at h; cases h
  | some state => rfl

/-- The expiry of a stored state and of `stateOf` agree: an absent name is unbound. -/
theorem bind_expiry?_eq (names : ExtTreeMap Name NameState) (name : Name) :
    (names[name]?).bind NameState.expiry? = (stateOf names name).expiry? := by
  unfold stateOf
  cases names[name]? <;> rfl

end Urma.Names
