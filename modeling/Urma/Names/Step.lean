import Mathlib.Logic.Relation
import Urma.Names.Engine

/-!
# What one step of a block can do

The passes of `connect_delta` are loops over observations with many early exits. This
module says once what a pass can do to the registry: `Step c trigger c'` has one
constructor for each way the source writes, with every guard that was checked on the way,
labelled by the observation that caused it (`none` for the expiry sweep).

`Connecting.applyBlock_steps` (in `Urma.Names.Passes`) shows that a whole block is a
sequence of such steps, so an invariant is proved by looking at the constructors.
-/

namespace Urma.Names

open Std
open Urma.Lib.Journal (put)
open Urma.Lib.SecondaryIndex (Exact add drop)

/-! ## Admission reads only what a block never writes -/

/-- The fields that no pass of a block changes. -/
structure SameTerms (c c' : Core) : Prop where
  genesis : c'.genesis = c.genesis
  genesisHeight : c'.genesisHeight = c.genesisHeight
  rules : c'.rules = c.rules
  height : c'.height = c.height

theorem SameTerms.refl (c : Core) : SameTerms c c := ⟨rfl, rfl, rfl, rfl⟩

theorem SameTerms.symm {c c' : Core} (h : SameTerms c c') : SameTerms c' c :=
  ⟨h.genesis.symm, h.genesisHeight.symm, h.rules.symm, h.height.symm⟩

theorem SameTerms.trans {a b c : Core} (h₁ : SameTerms a b) (h₂ : SameTerms b c) :
    SameTerms a c :=
  ⟨h₂.genesis.trans h₁.genesis, h₂.genesisHeight.trans h₁.genesisHeight,
    h₂.rules.trans h₁.rules, h₂.height.trans h₁.height⟩

theorem SameTerms.admitObservation {c c' : Core} (h : SameTerms c c') (observation : Observation)
    (registry : Txid) : c'.admitObservation observation registry = c.admitObservation observation registry := by
  simp only [Core.admitObservation, h.genesis, h.genesisHeight, h.rules]

theorem SameTerms.admitApprover {c c' : Core} (h : SameTerms c c')
    (observation : Observation) (registry : Txid) :
    c'.admitApprover observation registry = c.admitApprover observation registry := by
  simp only [Core.admitApprover, h.admitObservation, h.rules]

theorem SameTerms.expiryAfter {c c' : Core} (h : SameTerms c c') (height : Nat) :
    c'.expiryAfter height = c.expiryAfter height := by
  simp only [Core.expiryAfter, h.rules]

namespace Connecting

/-! ## Frame lemmas for the primitive writes -/

section Primitive

variable (c : Connecting) (name : Name) (state : NameState) (txid : Txid)
  (record : PendingRecord)

/-- Remember a pending key, then store a record under it. -/
def setPending : Connecting :=
  (c.rememberPending txid).storePending txid record

@[simp] theorem rememberName_toCore : (c.rememberName name).toCore = c.toCore := by
  unfold rememberName; split <;> rfl

@[simp] theorem rememberPending_toCore : (c.rememberPending txid).toCore = c.toCore := by
  unfold rememberPending; split <;> rfl

@[simp] theorem rememberName_pendingFrame :
    (c.rememberName name).frame.pending = c.frame.pending := by
  unfold rememberName; split <;> rfl

@[simp] theorem rememberPending_nameFrame :
    (c.rememberPending txid).frame.names = c.frame.names := by
  unfold rememberPending; split <;> rfl

@[simp] theorem setName_names :
    (c.setName name state).names = c.names.insert name state := by
  simp [setName, Core.store]

@[simp] theorem setName_pending : (c.setName name state).pending = c.pending := by
  simp [setName, Core.store]

@[simp] theorem setName_rules : (c.setName name state).rules = c.rules := by
  simp [setName, Core.store]

@[simp] theorem setName_height : (c.setName name state).height = c.height := by
  simp [setName, Core.store]

@[simp] theorem setName_genesis : (c.setName name state).genesis = c.genesis := by
  simp [setName, Core.store]

@[simp] theorem setName_genesisHeight :
    (c.setName name state).genesisHeight = c.genesisHeight := by
  simp [setName, Core.store]

theorem setName_toCore : (c.setName name state).toCore = c.toCore.store name state := by
  simp [setName]

@[simp] theorem setPending_pending :
    (c.setPending txid record).pending = c.pending.insert txid record := by
  simp [setPending, storePending]

@[simp] theorem setPending_names : (c.setPending txid record).names = c.names := by
  simp [setPending, storePending]

@[simp] theorem setPending_expiries : (c.setPending txid record).expiries = c.expiries := by
  simp [setPending, storePending]

@[simp] theorem setPending_rules : (c.setPending txid record).rules = c.rules := by
  simp [setPending, storePending]

@[simp] theorem setPending_height : (c.setPending txid record).height = c.height := by
  simp [setPending, storePending]

@[simp] theorem setPending_genesis : (c.setPending txid record).genesis = c.genesis := by
  simp [setPending, storePending]

@[simp] theorem setPending_genesisHeight :
    (c.setPending txid record).genesisHeight = c.genesisHeight := by
  simp [setPending, storePending]

/-- The name frame and the pending frame are separate lists. -/
theorem rememberPending_setName :
    (c.rememberPending txid).setName name state =
      (c.setName name state).rememberPending txid := by
  unfold setName rememberName rememberPending
  simp only [Core.store]
  split <;> split <;> simp_all

end Primitive

theorem stateOf_insert (names : ExtTreeMap Name NameState) (name other : Name)
    (state : NameState) :
    stateOf (names.insert name state) other =
      if name = other then state else stateOf names other := by
  unfold stateOf
  rw [ExtTreeMap.getElem?_insert]
  by_cases h : name = other <;> simp [h]

@[simp] theorem stateOf_setName_self (c : Connecting) (name : Name) (state : NameState) :
    stateOf (c.setName name state).names name = state := by
  rw [setName_names, stateOf_insert, if_pos rfl]

theorem stateOf_setName_of_ne (c : Connecting) {name other : Name} (h : name ≠ other)
    (state : NameState) :
    stateOf (c.setName name state).names other = stateOf c.names other := by
  rw [setName_names, stateOf_insert, if_neg h]

@[simp] theorem countVote_binding (threshold : Nat) (state : NameState)
    (author : XOnlyPublicKey) (suspend : Bool) :
    (countVote threshold state author suspend).binding = state.binding := by
  simp only [countVote]
  split
  · rfl
  · split <;> rfl

theorem setName_sameTerms (c : Connecting) (name : Name) (state : NameState) :
    SameTerms c.toCore (c.setName name state).toCore :=
  ⟨by simp, by simp, by simp, by simp⟩

theorem setPending_sameTerms (c : Connecting) (txid : Txid) (record : PendingRecord) :
    SameTerms c.toCore (c.setPending txid record).toCore :=
  ⟨by simp, by simp, by simp, by simp⟩

/-! ## The steps -/

/-- The guards of an approval that is counted. -/
structure Counts (c : Connecting) (observation : Observation) (approval : Approval)
    (record : PendingRecord) : Prop where
  payload : observation.payload = .approve approval
  admitted : c.admitApprover observation approval.registry = .admitted
  found : c.pending[approval.recordTxid]? = some record
  hash : record.sha256 = approval.recordSha256
  incomplete : record.completed = false
  fresh : observation.author ∉ record.approvals

/-- A record with one more approval. -/
def endorsed (record : PendingRecord) (author : XOnlyPublicKey) : PendingRecord :=
  { record with approvals := insert author record.approvals }

/-- A record whose last approval reached the quorum. -/
def closed (record : PendingRecord) (author : XOnlyPublicKey) : PendingRecord :=
  { endorsed record author with completed := true }

/-- The payload of a vote. -/
def votePayload (op : NameOp) (suspend : Bool) : Payload :=
  if suspend then .suspend op else .restore op

/-- The binding a completed request, or a winning claim, gives a name. -/
def firstBinding (owner : XOnlyPublicKey) (target : Target) (expiry : Nat)
    (claimTxid lastTxid : Txid) : Bound :=
  ⟨owner, target, expiry, claimTxid, lastTxid⟩

/-- One write of a pass, with its guards and the observation that caused it. -/
inductive Step (c : Connecting) : Option Observation → Connecting → Prop
  | expire {name bound} :
      (stateOf c.names name).binding = .bound bound → bound.expiry ≤ c.height →
      Step c none (c.setName name { stateOf c.names name with binding := .unbound })
  | endorse {o approval record} : Counts c o approval record →
      (endorsed record o.author).approvals.card < c.rules.threshold.toNat →
      Step c (some o) (c.setPending approval.recordTxid (endorsed record o.author))
  /-- The quorum is reached but the record has no effect on its name. -/
  | close {o approval record} : Counts c o approval record →
      ¬ (endorsed record o.author).approvals.card < c.rules.threshold.toNat →
      Step c (some o) (c.setPending approval.recordTxid (closed record o.author))
  | grant {o approval record expiry} : Counts c o approval record →
      ¬ (endorsed record o.author).approvals.card < c.rules.threshold.toNat →
      record.kind = .request → (stateOf c.names record.name).suspended = false →
      (stateOf c.names record.name).binding = .unbound →
      c.expiryAfter o.height = some expiry →
      Step c (some o)
        ((c.setName record.name { stateOf c.names record.name with
            binding := .bound (firstBinding record.author (.publication record.target) expiry
              approval.recordTxid o.txid) }).setPending
          approval.recordTxid (closed record o.author))
  | retarget {o approval record bound} : Counts c o approval record →
      ¬ (endorsed record o.author).approvals.card < c.rules.threshold.toNat →
      record.kind = .update → (stateOf c.names record.name).binding = .bound bound →
      bound.owner = record.author →
      Step c (some o)
        ((c.setName record.name { stateOf c.names record.name with
            binding := .bound { bound with
              target := .publication record.target, lastTxid := o.txid } }).setPending
          approval.recordTxid (closed record o.author))
  | vote {o op suspend} : o.payload = votePayload op suspend →
      c.admitApprover o op.registry = .admitted →
      (stateOf c.names op.name).suspended ≠ suspend →
      o.author ∉ votesOf (stateOf c.names op.name) suspend →
      Step c (some o) (c.setName op.name
        (countVote c.rules.threshold.toNat (stateOf c.names op.name) o.author suspend))
  | claim {o op expiry} : c.rules.mode = .«open» → o.payload = .claim op →
      c.admitObservation o op.registry = .admitted →
      (stateOf c.names op.name).binding = .unbound →
      c.expiryAfter o.height = some expiry →
      Step c (some o) (c.setName op.name { stateOf c.names op.name with
        binding := .bound (firstBinding o.author (targetOf op) expiry o.txid o.txid) })
  | request {o op} : c.rules.mode = .administered → o.payload = .claim op →
      c.admitObservation o op.registry = .admitted → op.isReserving = false →
      Step c (some o) (c.insertPending o .request op)
  | propose {o op bound} : c.rules.mode = .administered → o.payload = .update op →
      c.admitObservation o op.registry = .admitted →
      (stateOf c.names op.name).binding = .bound bound → bound.owner = o.author →
      op.isReserving = false →
      Step c (some o) (c.insertPending o .update op)
  | update {o op bound} : c.rules.mode = .«open» → o.payload = .update op →
      c.admitObservation o op.registry = .admitted →
      (stateOf c.names op.name).binding = .bound bound → bound.owner = o.author →
      Step c (some o) (c.setName op.name { stateOf c.names op.name with
        binding := .bound { bound with target := targetOf op, lastTxid := o.txid } })
  | renew {o op bound expiry target} : o.payload = .renew op →
      c.admitObservation o op.registry = .admitted → c.expiryAfter o.height = some expiry →
      (stateOf c.names op.name).binding = .bound bound → bound.owner = o.author →
      (c.rules.mode = .«open» → target = targetOf op) →
      (c.rules.mode = .administered →
        target = bound.target ∧ bound.target = .publication op.target) →
      Step c (some o) (c.setName op.name { stateOf c.names op.name with
        binding := .bound { bound with target, expiry, lastTxid := o.txid } })

/-- Steps caused by observations of a block, or by its expiry sweep. -/
def Steps (observations : List Observation) : Connecting → Connecting → Prop :=
  Relation.ReflTransGen fun c c' =>
    ∃ trigger, (∀ o, trigger = some o → o ∈ observations) ∧ Step c trigger c'

theorem Steps.refl {observations : List Observation} (c : Connecting) :
    Steps observations c c :=
  Relation.ReflTransGen.refl

theorem Steps.trans {observations : List Observation} {a b c : Connecting}
    (h₁ : Steps observations a b) (h₂ : Steps observations b c) :
    Steps observations a c :=
  Relation.ReflTransGen.trans h₁ h₂

theorem Steps.single {observations : List Observation} {c c' : Connecting}
    {trigger : Option Observation} (hmem : ∀ o, trigger = some o → o ∈ observations)
    (h : Step c trigger c') : Steps observations c c' :=
  Relation.ReflTransGen.single ⟨trigger, hmem, h⟩

/-- **The invariant rule.** What holds at the start of a block's steps and is kept by each
of them holds at the end. -/
theorem Steps.invariant {observations : List Observation} (inv : Connecting → Prop)
    (hstep : ∀ c c' trigger, (∀ o, trigger = some o → o ∈ observations) →
      Step c trigger c' → inv c → inv c')
    {c c' : Connecting} (h : Steps observations c c') (hinv : inv c) : inv c' := by
  induction h with
  | refl => exact hinv
  | tail _ hlast ih =>
      obtain ⟨trigger, hmem, hone⟩ := hlast
      exact hstep _ _ trigger hmem hone ih

/-! ## Pending records across a step -/

/-- The payload that proposes a record of a kind. -/
def payloadOf (kind : PendingKind) (op : OwnerOp) : Payload :=
  match kind with
  | .request => .claim op
  | .update => .update op

variable {c c' : Connecting}

/-- The record that a claim or an update starts. -/
def proposedRecord (o : Observation) (kind : PendingKind) (op : OwnerOp) : PendingRecord where
  kind := kind
  name := op.name
  author := o.author
  target := op.target
  sha256 := o.recordSha256
  height := o.height
  approvals := ∅
  completed := false

theorem insertPending_pending (c : Connecting) (o : Observation) (kind : PendingKind)
    (op : OwnerOp) :
    (c.insertPending o kind op).pending = c.pending.insert o.txid (proposedRecord o kind op) :=
  setPending_pending c o.txid (proposedRecord o kind op)

theorem insertPending_names (c : Connecting) (o : Observation) (kind : PendingKind)
    (op : OwnerOp) : (c.insertPending o kind op).names = c.names :=
  setPending_names c o.txid (proposedRecord o kind op)

/-- Where a pending record of the state after a step comes from. -/
inductive PendingFrom (c : Connecting) (trigger : Option Observation) (txid : Txid)
    (record : PendingRecord) : Prop
  | before : c.pending[txid]? = some record → PendingFrom c trigger txid record
  | approved {o approval old} : trigger = some o → Counts c o approval old →
      approval.recordTxid = txid →
      record = endorsed old o.author ∨ record = closed old o.author →
      PendingFrom c trigger txid record
  | proposed {o kind op} : trigger = some o → o.txid = txid → o.payload = payloadOf kind op →
      c.admitObservation o op.registry = .admitted → record = proposedRecord o kind op →
      PendingFrom c trigger txid record

/-- **Every record of the new state is an old one, an approved one or a proposed one.** -/
theorem Step.pending_from {trigger : Option Observation} (h : Step c trigger c') {txid : Txid} {record : PendingRecord}
    (hget : c'.pending[txid]? = some record) : PendingFrom c trigger txid record := by
  -- reading a map after one insertion
  have hread : ∀ {pending : ExtTreeMap Txid PendingRecord} {key : Txid}
      {value : PendingRecord}, (pending.insert key value)[txid]? = some record →
      (key = txid ∧ value = record) ∨ pending[txid]? = some record := by
    intro pending key value hinsert
    rw [ExtTreeMap.getElem?_insert] at hinsert
    split at hinsert
    · next heq => exact Or.inl ⟨LawfulEqCmp.compare_eq_iff_eq.mp heq, Option.some.inj hinsert⟩
    · exact Or.inr hinsert
  have hwritten : ∀ {o approval old} {value : PendingRecord}, trigger = some o →
      Counts c o approval old → value = endorsed old o.author ∨ value = closed old o.author →
      (c.pending.insert approval.recordTxid value)[txid]? = some record →
      PendingFrom c trigger txid record := by
    intro o approval old value htrigger hcounts hvalue hinsert
    rcases hread hinsert with ⟨heq, rfl⟩ | hbefore
    · exact .approved htrigger hcounts heq hvalue
    · exact .before hbefore
  have hnew : ∀ {o : Observation} {kind : PendingKind} {op : OwnerOp}, trigger = some o →
      o.payload = payloadOf kind op → c.admitObservation o op.registry = .admitted →
      (c.pending.insert o.txid (proposedRecord o kind op))[txid]? = some record →
      PendingFrom c trigger txid record := by
    intro o kind op htrigger hpayload hadmission hinsert
    rcases hread hinsert with ⟨heq, hrecord⟩ | hbefore
    · exact .proposed htrigger heq hpayload hadmission hrecord.symm
    · exact .before hbefore
  cases h with
  | expire => rw [setName_pending] at hget; exact .before hget
  | endorse hcounts =>
      rw [setPending_pending] at hget
      exact hwritten rfl hcounts (Or.inl rfl) hget
  | close hcounts =>
      rw [setPending_pending] at hget
      exact hwritten rfl hcounts (Or.inr rfl) hget
  | grant hcounts =>
      rw [setPending_pending, setName_pending] at hget
      exact hwritten rfl hcounts (Or.inr rfl) hget
  | retarget hcounts =>
      rw [setPending_pending, setName_pending] at hget
      exact hwritten rfl hcounts (Or.inr rfl) hget
  | vote => rw [setName_pending] at hget; exact .before hget
  | claim => rw [setName_pending] at hget; exact .before hget
  | @request o op _ hpayload hadmission =>
      rw [insertPending_pending] at hget
      exact @hnew o .request op rfl hpayload hadmission hget
  | @propose o op _ _ hpayload hadmission =>
      rw [insertPending_pending] at hget
      exact @hnew o .update op rfl hpayload hadmission hget
  | update => rw [setName_pending] at hget; exact .before hget
  | renew => rw [setName_pending] at hget; exact .before hget

/-- Every pending record stands under one of these txids. -/
def Keys (txids : List Txid) (pending : ExtTreeMap Txid PendingRecord) : Prop :=
  ∀ (txid : Txid) (record : PendingRecord), pending[txid]? = some record → txid ∈ txids

/-- A step adds at most the txid of a claim or an update. -/
theorem Step.keys {txids : List Txid} {trigger : Option Observation} (h : Step c trigger c')
    (hc : Keys txids c.pending)
    (hmore : ∀ o, trigger = some o → o.payload.isApproverOp = false → o.txid ∈ txids) :
    Keys txids c'.pending := by
  intro txid record hget
  cases h.pending_from hget with
  | before hbefore => exact hc _ _ hbefore
  | approved _ hcounts htxid =>
      have hfound := hcounts.found
      rw [htxid] at hfound
      exact hc _ _ hfound
  | @proposed o kind op htrigger htxid hpayload =>
      rw [← htxid]
      apply hmore o htrigger
      rw [hpayload]
      cases kind <;> rfl

theorem Steps.keys {observations : List Observation} {txids : List Txid}
    (h : Steps observations c c') (hc : Keys txids c.pending)
    (hmore : ∀ o ∈ observations, o.payload.isApproverOp = false → o.txid ∈ txids) :
    Keys txids c'.pending := by
  refine h.invariant (fun c' => Keys txids c'.pending) ?_ hc
  intro a b trigger hmem hstep hkeys
  apply hstep.keys hkeys
  intro o htrigger hkind
  exact hmore o (hmem o htrigger) hkind

/-- No record stands under the txid of any of these observations. -/
def Unused (observations : List Observation) (pending : ExtTreeMap Txid PendingRecord) : Prop :=
  ∀ o ∈ observations, pending[o.txid]? = none

/-- A txid outside the keys is unused. -/
theorem Keys.unused {txids : List Txid} {pending : ExtTreeMap Txid PendingRecord}
    (h : Keys txids pending) {observations : List Observation}
    (hnew : ∀ o ∈ observations, o.txid ∉ txids) : Unused observations pending := by
  intro o ho
  cases hget : pending[o.txid]? with
  | none => rfl
  | some record => exact absurd (h _ _ hget) (hnew o ho)

/-- A step leaves unused what its own observation does not use. -/
theorem Step.unused {observations : List Observation} {trigger : Option Observation}
    (h : Step c trigger c') (hc : Unused observations c.pending)
    (hother : ∀ o, trigger = some o → o.payload.isApproverOp = false →
      ∀ o' ∈ observations, o.txid ≠ o'.txid) : Unused observations c'.pending := by
  intro o' ho'
  have hnone := hc o' ho'
  cases hget : c'.pending[o'.txid]? with
  | none => rfl
  | some record =>
      cases h.pending_from hget with
      | before hbefore =>
          rw [hnone] at hbefore
          cases hbefore
      | approved _ hcounts htxid =>
          have hfound := hcounts.found
          rw [htxid, hnone] at hfound
          cases hfound
      | @proposed o kind op htrigger htxid hpayload =>
          have hkind : o.payload.isApproverOp = false := by
            rw [hpayload]
            cases kind <;> rfl
          exact absurd htxid (hother o htrigger hkind o' ho')

/-! ## Every step is a write of a name, a write of a record, or both -/

/-- The two primitive writes: both remember the key they write. -/
inductive Write (c : Connecting) : Connecting → Prop
  | name (name : Name) (state : NameState) : Write c (c.setName name state)
  | pending (txid : Txid) (record : PendingRecord) : Write c (c.setPending txid record)

theorem Step.writes {c c' : Connecting} {trigger : Option Observation}
    (h : Step c trigger c') : Relation.ReflTransGen Write c c' := by
  cases h with
  | expire => exact .single (.name _ _)
  | endorse => exact .single (.pending _ _)
  | close => exact .single (.pending _ _)
  | grant => exact .tail (.single (.name _ _)) (.pending _ _)
  | retarget => exact .tail (.single (.name _ _)) (.pending _ _)
  | vote => exact .single (.name _ _)
  | claim => exact .single (.name _ _)
  | request => exact .single (.pending _ _)
  | propose => exact .single (.pending _ _)
  | update => exact .single (.name _ _)
  | renew => exact .single (.name _ _)

theorem Steps.writes {observations : List Observation} {c c' : Connecting}
    (h : Steps observations c c') : Relation.ReflTransGen Write c c' := by
  induction h with
  | refl => exact .refl
  | tail _ hlast ih =>
      obtain ⟨_, _, hone⟩ := hlast
      exact ih.trans hone.writes

theorem Write.sameTerms {c c' : Connecting} (h : Write c c') :
    SameTerms c.toCore c'.toCore := by
  cases h with
  | name name state => exact setName_sameTerms c name state
  | pending txid record => exact setPending_sameTerms c txid record

theorem Steps.sameTerms {observations : List Observation} {c c' : Connecting}
    (h : Steps observations c c') : SameTerms c.toCore c'.toCore := by
  have hwrites := h.writes
  clear h
  induction hwrites with
  | refl => exact SameTerms.refl _
  | tail _ hlast ih => exact ih.trans hlast.sameTerms

end Connecting

/-! ## The expiry index -/

namespace Core

/-- `expiries` is the index of `names` by expiry. -/
def IndexExact (c : Core) : Prop :=
  Exact NameState.expiry? c.expiries c.names

theorem store_names (c : Core) (name : Name) (state : NameState) :
    (c.store name state).names = put c.names name (some state) := rfl

theorem forget_names (c : Core) (name : Name) :
    (c.forget name).names = put c.names name none := rfl

theorem store_expiries (c : Core) (name : Name) (state : NameState) :
    (c.store name state).expiries =
      add (drop c.expiries name (stateOf c.names name).expiry?) name state.expiry? := by
  simp only [store, NameState.expiry?]
  cases (stateOf c.names name).binding <;> cases state.binding <;> rfl

theorem forget_expiries (c : Core) (name : Name) :
    (c.forget name).expiries = drop c.expiries name (stateOf c.names name).expiry? := by
  simp only [forget, NameState.expiry?]
  cases (stateOf c.names name).binding <;> rfl

theorem IndexExact.store {c : Core} (h : c.IndexExact) (name : Name) (state : NameState) :
    (c.store name state).IndexExact := by
  have hput := Exact.put h name (some state)
  rw [bind_expiry?_eq] at hput
  unfold IndexExact
  rw [store_names, store_expiries]
  exact hput

theorem IndexExact.forget {c : Core} (h : c.IndexExact) (name : Name) :
    (c.forget name).IndexExact := by
  have hput := Exact.put h name none
  rw [bind_expiry?_eq] at hput
  unfold IndexExact
  rw [forget_names, forget_expiries]
  exact hput

/-- An exact index holds a pair exactly for a name bound until then. -/
theorem IndexExact.mem_iff {c : Core} (h : c.IndexExact) {expiry : Nat} {name : Name} :
    (expiry, name) ∈ c.expiries ↔
      ∃ bound, (stateOf c.names name).binding = .bound bound ∧ bound.expiry = expiry := by
  rw [h expiry name, ← NameState.expiry?_eq_some, ← bind_expiry?_eq, Option.bind_eq_some_iff]

end Core

namespace Connecting

theorem Write.indexExact {c c' : Connecting} (h : Write c c') (hc : c.IndexExact) :
    c'.IndexExact := by
  cases h with
  | name name state =>
      rw [setName_toCore]
      exact hc.store name state
  | pending txid record =>
      unfold Core.IndexExact
      rw [setPending_expiries, setPending_names]
      exact hc

theorem Steps.indexExact {observations : List Observation} {c c' : Connecting}
    (h : Steps observations c c') (hc : c.IndexExact) : c'.IndexExact := by
  have hwrites := h.writes
  clear h
  induction hwrites with
  | refl => exact hc
  | tail _ hlast ih => exact hlast.indexExact ih

end Connecting

end Urma.Names
