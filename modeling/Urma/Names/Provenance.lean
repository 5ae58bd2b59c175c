import Urma.Names.Quorum

/-!
# Provenance in an administered registry

Every binding of an administered registry rests on completed records that are still in
`pending`: the request of its claim, and the record that set its target. A completed
record is never written again, because a step writes only the incomplete record it
approves or a record under a new txid (`Step.completed_persist`). New txids are new only
if the active chain does not repeat one, which is the hypothesis here.

The records themselves come from the chain (`Traced`): a pending record is an observed
claim or update, and each of its approvals is an observed approval of that very record.
-/

namespace Urma.Names

open Std

/-! ## Records and their observations -/

namespace Core

/-- `o` is the admitted observation that a pending record was made from. -/
structure Proposes (c : Core) (o : Observation) (txid : Txid) (record : PendingRecord) :
    Prop where
  txid : o.txid = txid
  author : o.author = record.author
  sha256 : o.recordSha256 = record.sha256
  payload : ∃ op, o.payload = Connecting.payloadOf record.kind op ∧ op.name = record.name ∧
    op.target = record.target ∧ c.admitObservation o op.registry = .admitted

/-- `o` is an admitted approval by `key` of the record under `txid` with that digest. -/
def Endorses (c : Core) (o : Observation) (key : XOnlyPublicKey) (txid : Txid)
    (record : PendingRecord) : Prop :=
  o.author = key ∧ ∃ approval, o.payload = .approve approval ∧ approval.recordTxid = txid ∧
    approval.recordSha256 = record.sha256 ∧
    c.admitApprover o approval.registry = .admitted

/-- A binding rests on the completed request of its claim, and its target is that of the
request or of a completed update by the owner. -/
def Backed (c : Core) (name : Name) (bound : Bound) : Prop :=
  ∃ request : PendingRecord, c.pending[bound.claimTxid]? = some request ∧ request.completed = true ∧
    request.kind = .request ∧ request.name = name ∧ request.author = bound.owner ∧
    ∃ target, bound.target = .publication target ∧
      (request.target = target ∨
        ∃ (txid : Txid) (update : PendingRecord), c.pending[txid]? = some update ∧ update.completed = true ∧
          update.kind = .update ∧ update.name = name ∧ update.author = bound.owner ∧
          update.target = target)

/-- Everything a registry holds, traced to the observations seen so far. -/
structure Traced (c : Core) (seen : List Observation) : Prop where
  proposed : ∀ (txid : Txid) (record : PendingRecord), c.pending[txid]? = some record →
    ∃ o ∈ seen, c.Proposes o txid record
  endorsed : ∀ (txid : Txid) (record : PendingRecord), c.pending[txid]? = some record →
    ∀ key ∈ record.approvals, ∃ o ∈ seen, c.Endorses o key txid record
  backed : ∀ (name : Name) (bound : Bound), (stateOf c.names name).binding = .bound bound →
    c.Backed name bound

end Core

namespace Connecting

variable {c c' : Connecting} {seen : List Observation} {trigger : Option Observation}

/-- A txid under which a step may start a new record: none is there yet. -/
def FreshFor (c : Connecting) (trigger : Option Observation) : Prop :=
  ∀ o, trigger = some o → o.payload.isApproverOp = false → c.pending[o.txid]? = none

/-- **Completed records stay.** -/
theorem Step.completed_persist (h : Step c trigger c') (hfresh : FreshFor c trigger)
    {txid : Txid} {record : PendingRecord} (hget : c.pending[txid]? = some record)
    (hcompleted : record.completed = true) : c'.pending[txid]? = some record := by
  -- an approved record is incomplete, so it is not this one
  have happroved : ∀ {o approval record'}, Counts c o approval record' →
      approval.recordTxid ≠ txid := by
    intro o approval record' hcounts heq
    have hfound := hcounts.found
    rw [heq, hget] at hfound
    cases hfound
    rw [hcounts.incomplete] at hcompleted
    cases hcompleted
  -- a proposed record is new, so it is not this one
  have hproposed : ∀ {o : Observation}, trigger = some o → o.payload.isApproverOp = false →
      o.txid ≠ txid := by
    intro o htrigger hkind heq
    have hnone := hfresh o htrigger hkind
    rw [heq, hget] at hnone
    cases hnone
  have hinsert : ∀ {key : Txid} {value : PendingRecord}, key ≠ txid →
      (c.pending.insert key value)[txid]? = some record := by
    intro key value hne
    rw [ExtTreeMap.getElem?_insert, if_neg]
    · exact hget
    · rw [LawfulEqCmp.compare_eq_iff_eq]
      exact hne
  cases h with
  | expire => rw [setName_pending]; exact hget
  | endorse hcounts => rw [setPending_pending]; exact hinsert (happroved hcounts)
  | close hcounts => rw [setPending_pending]; exact hinsert (happroved hcounts)
  | grant hcounts =>
      rw [setPending_pending, setName_pending]
      exact hinsert (happroved hcounts)
  | retarget hcounts =>
      rw [setPending_pending, setName_pending]
      exact hinsert (happroved hcounts)
  | vote => rw [setName_pending]; exact hget
  | claim => rw [setName_pending]; exact hget
  | request _ hpayload =>
      exact (setPending_pending _ _ _).symm ▸ hinsert (hproposed rfl (by rw [hpayload]; rfl))
  | propose _ hpayload =>
      exact (setPending_pending _ _ _).symm ▸ hinsert (hproposed rfl (by rw [hpayload]; rfl))
  | update => rw [setName_pending]; exact hget
  | renew => rw [setName_pending]; exact hget

end Connecting

/-! ## What a step keeps -/

theorem SameTerms.proposes {c c' : Core} (h : SameTerms c c') {o : Observation} {txid : Txid}
    {record : PendingRecord} (hp : c.Proposes o txid record) : c'.Proposes o txid record := by
  obtain ⟨op, hpayload, hname, htarget, hadmission⟩ := hp.payload
  rw [← h.admitObservation] at hadmission
  exact ⟨hp.txid, hp.author, hp.sha256, op, hpayload, hname, htarget, hadmission⟩

theorem SameTerms.endorses {c c' : Core} (h : SameTerms c c') {o : Observation}
    {key : XOnlyPublicKey} {txid : Txid} {record : PendingRecord}
    (he : c.Endorses o key txid record) : c'.Endorses o key txid record := by
  obtain ⟨hauthor, approval, hpayload, htxid, hsha, hadmitted⟩ := he
  rw [← h.admitApprover] at hadmitted
  exact ⟨hauthor, approval, hpayload, htxid, hsha, hadmitted⟩

/-- A binding stays backed while completed records stay. -/
theorem Core.Backed.persist {c c' : Core} {name : Name} {bound : Bound}
    (h : c.Backed name bound)
    (hpersist : ∀ (txid : Txid) (record : PendingRecord), c.pending[txid]? = some record →
      record.completed = true → c'.pending[txid]? = some record) :
    c'.Backed name bound := by
  obtain ⟨request, hget, hcompleted, hkind, hname, howner, target, htarget, hsource⟩ := h
  refine ⟨request, hpersist _ _ hget hcompleted, hcompleted, hkind, hname, howner, target,
    htarget, ?_⟩
  rcases hsource with hsource | ⟨txid, update, hupdate, hdone, hrest⟩
  · exact Or.inl hsource
  · exact Or.inr ⟨txid, update, hpersist _ _ hupdate hdone, hdone, hrest⟩

namespace Connecting

variable {c c' : Connecting} {seen : List Observation} {trigger : Option Observation}

/-- The records after a step are still traced to observations. -/
theorem Step.proposed (h : Step c trigger c') (hmem : ∀ o, trigger = some o → o ∈ seen)
    (hc : c.Traced seen) {txid : Txid} {record : PendingRecord}
    (hget : c'.pending[txid]? = some record) : ∃ o ∈ seen, c'.Proposes o txid record := by
  have hterms := (Steps.single hmem h).sameTerms
  cases h.pending_from hget with
  | before hbefore =>
      obtain ⟨o, ho, hp⟩ := hc.proposed _ _ hbefore
      exact ⟨o, ho, hterms.proposes hp⟩
  | @approved o approval old htrigger hcounts htxid hrecord =>
      -- an approval changes neither the proposal nor its author
      have hfound := hcounts.found
      rw [htxid] at hfound
      obtain ⟨o', ho', hp⟩ := hc.proposed _ _ hfound
      have hp' := hterms.proposes hp
      refine ⟨o', ho', ?_⟩
      rcases hrecord with rfl | rfl
      · exact ⟨hp'.txid, hp'.author, hp'.sha256, hp'.payload⟩
      · exact ⟨hp'.txid, hp'.author, hp'.sha256, hp'.payload⟩
  | @proposed o kind op htrigger htxid hpayload hadmission hrecord =>
      subst hrecord
      rw [← hterms.admitObservation] at hadmission
      exact ⟨o, hmem o htrigger, htxid, rfl, rfl, op, hpayload, rfl, rfl, hadmission⟩

/-- So are their approvals. -/
theorem Step.endorsed (h : Step c trigger c') (hmem : ∀ o, trigger = some o → o ∈ seen)
    (hc : c.Traced seen) {txid : Txid} {record : PendingRecord}
    (hget : c'.pending[txid]? = some record) {key : XOnlyPublicKey}
    (hkey : key ∈ record.approvals) : ∃ o ∈ seen, c'.Endorses o key txid record := by
  have hterms := (Steps.single hmem h).sameTerms
  cases h.pending_from hget with
  | before hbefore =>
      obtain ⟨o, ho, he⟩ := hc.endorsed _ _ hbefore key hkey
      exact ⟨o, ho, hterms.endorses he⟩
  | @approved o approval old htrigger hcounts htxid hrecord =>
      have hfound := hcounts.found
      rw [htxid] at hfound
      have hsame : record.sha256 = old.sha256 ∧
          record.approvals = insert o.author old.approvals := by
        rcases hrecord with rfl | rfl <;> exact ⟨rfl, rfl⟩
      rw [hsame.2] at hkey
      rcases Finset.mem_insert.mp hkey with rfl | hkey
      · have hadmitted := hcounts.admitted
        rw [← hterms.admitApprover] at hadmitted
        exact ⟨o, hmem o htrigger, rfl, approval, hcounts.payload, htxid,
          hcounts.hash.symm.trans hsame.1.symm, hadmitted⟩
      · obtain ⟨o', ho', hauthor, approval', hpayload, htxid', hsha, hadmitted⟩ :=
          hc.endorsed _ _ hfound key hkey
        rw [← hterms.admitApprover] at hadmitted
        exact ⟨o', ho', hauthor, approval', hpayload, htxid', hsha.trans hsame.1.symm,
          hadmitted⟩
  | @proposed o kind op htrigger htxid hpayload hadmission hrecord =>
      subst hrecord
      simp [proposedRecord] at hkey

/-- Every binding after a step is backed by completed records. -/
theorem Step.backed (h : Step c trigger c') (hmode : c.rules.mode = .administered)
    (hfresh : FreshFor c trigger) (hc : c.Traced seen) {name : Name} {bound : Bound}
    (hbound : (stateOf c'.names name).binding = .bound bound) : c'.Backed name bound := by
  have hpersist : ∀ (txid : Txid) (record : PendingRecord), c.pending[txid]? = some record →
      record.completed = true → c'.pending[txid]? = some record := by
    intro txid record hget hcompleted
    exact h.completed_persist hfresh hget hcompleted
  have hold : (stateOf c.names name).binding = .bound bound → c'.Backed name bound := by
    intro hbefore
    exact (hc.backed name bound hbefore).persist hpersist
  -- this registry has no open claims and no immediate updates
  have hopen : c.rules.mode ≠ .«open» := by
    rw [hmode]
    intro heq
    cases heq
  cases h with
  | expire =>
      rw [setName_names, stateOf_insert] at hbound
      split at hbound
      · cases hbound
      · exact hold hbound
  | endorse => rw [setPending_names] at hbound; exact hold hbound
  | close => rw [setPending_names] at hbound; exact hold hbound
  | @grant o approval record expiry hcounts _ hkind =>
      rw [setPending_names, setName_names, stateOf_insert] at hbound
      split at hbound
      · next heq =>
        cases hbound
        refine ⟨closed record o.author, ?_, rfl, hkind, heq, rfl, record.target, rfl,
          Or.inl rfl⟩
        rw [setPending_pending]
        exact ExtTreeMap.getElem?_insert_self
      · exact hold hbound
  | @retarget o approval record b hcounts _ hkind hbefore howner =>
      rw [setPending_names, setName_names, stateOf_insert] at hbound
      split at hbound
      · next heq =>
        subst heq
        cases hbound
        obtain ⟨request, hget, hdone, hrequest, hname, hauthor, _⟩ :=
          (hc.backed _ _ hbefore).persist hpersist
        refine ⟨request, hget, hdone, hrequest, hname, hauthor, record.target, rfl,
          Or.inr ⟨approval.recordTxid, closed record o.author, ?_, rfl, hkind, rfl,
            howner.symm, rfl⟩⟩
        rw [setPending_pending]
        exact ExtTreeMap.getElem?_insert_self
      · exact hold hbound
  | vote =>
      rw [setName_names, stateOf_insert] at hbound
      split at hbound
      · next heq =>
        rw [countVote_binding, heq] at hbound
        exact hold hbound
      · exact hold hbound
  | claim hmode' => exact absurd hmode' hopen
  | request => rw [insertPending_names] at hbound; exact hold hbound
  | propose => rw [insertPending_names] at hbound; exact hold hbound
  | update hmode' => exact absurd hmode' hopen
  | @renew o op b expiry target _ _ _ hbefore _ _ hkept =>
      rw [setName_names, stateOf_insert] at hbound
      split at hbound
      · next heq =>
        subst heq
        cases hbound
        -- a renewal keeps the target in this mode
        obtain ⟨rfl, _⟩ := hkept hmode
        exact (hc.backed _ _ hbefore).persist hpersist
      · exact hold hbound

/-- **Every step keeps the trace.** -/
theorem Step.traced (h : Step c trigger c') (hmode : c.rules.mode = .administered)
    (hmem : ∀ o, trigger = some o → o ∈ seen) (hfresh : FreshFor c trigger)
    (hc : c.Traced seen) : c'.Traced seen where
  proposed := fun _ _ hget => h.proposed hmem hc hget
  endorsed := fun _ _ hget _ hkey => h.endorsed hmem hc hget hkey
  backed := fun _ _ hbound => h.backed hmode hfresh hc hbound

/-! ## A whole block -/

/-- The sweep and the approver pass start no record. -/
theorem Steps.traced_approvers {observations later : List Observation}
    (h : Steps observations c c') (hmode : c.rules.mode = .administered)
    (hkind : ∀ o ∈ observations, o.payload.isApproverOp = true)
    (hmem : ∀ o ∈ observations, o ∈ seen) (hc : c.Traced seen)
    (hunused : Unused later c.pending) : c'.Traced seen ∧ Unused later c'.pending := by
  let inv (c' : Connecting) : Prop :=
    SameTerms c.toCore c'.toCore ∧ c'.Traced seen ∧ Unused later c'.pending
  suffices hend : inv c' from hend.2
  refine h.invariant inv ?_ ⟨SameTerms.refl _, hc, hunused⟩
  intro a b trigger hin hstep hinv
  obtain ⟨hterms, htraced, hunused⟩ := hinv
  have happrover : ∀ o, trigger = some o → o.payload.isApproverOp = false → False := by
    intro o htrigger hfalse
    rw [hkind o (hin o htrigger)] at hfalse
    cases hfalse
  have hmode' : a.rules.mode = .administered := by
    rw [hterms.rules]
    exact hmode
  refine ⟨hterms.trans (Steps.single hin hstep).sameTerms, ?_, ?_⟩
  · apply hstep.traced hmode' (fun o htrigger => hmem o (hin o htrigger)) ?_ htraced
    intro o htrigger hfalse
    exact (happrover o htrigger hfalse).elim
  · apply hstep.unused hunused
    intro o htrigger hfalse
    exact (happrover o htrigger hfalse).elim

/-- The owner pass starts each record under a txid that no record has yet. -/
theorem ownerRecords_traced (sorted : List Observation) (outcomes : List Outcome)
    (hmode : c.rules.mode = .administered) (hmem : ∀ o ∈ sorted, o ∈ seen)
    (hdistinct : DistinctTxids sorted) (hunused : Unused sorted c.pending)
    (hc : c.Traced seen) : (c.ownerRecords sorted outcomes).1.Traced seen := by
  let inv (handled : List Observation) (c' : Connecting) : Prop :=
    SameTerms c.toCore c'.toCore ∧ c'.Traced seen ∧
      ∀ rest, sorted = handled ++ rest → Unused rest c'.pending
  suffices hend : inv sorted (c.ownerRecords sorted outcomes).1 from hend.2.1
  -- an observation that is skipped, or has no effect, is no longer to be handled
  have hskip : ∀ {handled : List Observation} {o : Observation} {c' : Connecting},
      (∀ rest, sorted = handled ++ rest → Unused rest c'.pending) →
      ∀ rest, sorted = (handled ++ [o]) ++ rest → Unused rest c'.pending := by
    intro handled o c' hrest rest hsplit o' ho'
    rw [List.append_assoc] at hsplit
    exact hrest _ hsplit o' (List.mem_cons_of_mem o ho')
  refine eachRecord_invariant inv ?_ ?_ c outcomes ⟨SameTerms.refl _, hc, ?_⟩
  · intro handled o rest c' _ _ hinv
    exact ⟨hinv.1, hinv.2.1, hskip hinv.2.2⟩
  · intro handled o rest c' result hwhole hresult hinv
    obtain ⟨hterms, htraced, hrest⟩ := hinv
    rcases (ownerRecord_step hresult).2 with heq | hstep
    · rw [heq]
      exact ⟨hterms, htraced, hskip hrest⟩
    · have hin : o ∈ sorted := by rw [hwhole]; simp
      have hterms' := (Steps.of_step (List.mem_singleton_self o) hstep).sameTerms
      refine ⟨hterms.trans hterms', ?_, ?_⟩
      · apply hstep.traced ?_ ?_ ?_ htraced
        · rw [hterms.rules]
          exact hmode
        · intro o' htrigger
          cases htrigger
          exact hmem o hin
        · intro o' htrigger _
          cases htrigger
          exact hrest _ hwhole o List.mem_cons_self
      · intro later hsplit
        apply hstep.unused (hskip hrest later hsplit)
        intro o' htrigger _ o'' ho'' heq
        cases htrigger
        -- the txid of this observation is none of those after it
        unfold DistinctTxids at hdistinct
        rw [hsplit, List.map_append, List.nodup_append] at hdistinct
        exact hdistinct.2.2 o.txid (by simp) o''.txid (List.mem_map_of_mem ho'') heq
  · intro rest hsplit
    rw [List.nil_append] at hsplit
    rw [← hsplit]
    exact hunused

/-- In an administered registry a block has no claim pass. -/
theorem applyBlock_administered (hindex : c.IndexExact)
    (hmode : c.rules.mode = .administered) (observations : List Observation) :
    (c.applyBlock observations).1 =
      ((c.afterApprovers observations).ownerRecords observations
        ((c.expire c.height).approverRecords observations []).2).1 := by
  have hterms : SameTerms c.toCore (c.afterApprovers observations).toCore :=
    (expire_steps hindex).sameTerms.trans (approverRecords_steps observations _ []).sameTerms
  have hnotOpen : ((c.expire c.height).approverRecords observations []).1.rules.mode ≠
      .«open» := by
    intro hopen
    have hsame := hterms.rules
    unfold afterApprovers at hsame
    rw [hsame, hmode] at hopen
    cases hopen
  unfold applyBlock
  simp only [if_neg hnotOpen]
  rfl

end Connecting

/-! ## Every reachable registry -/

section Terms

variable {genesis : Txid} {genesisHeight : Nat} {rules : Genesis} {blocks : List Block}
  {frames : List Delta} {core : Core}

theorem Core.Chain.traced (h : Chain genesis genesisHeight rules blocks frames core)
    (hmode : rules.mode = .administered) (hdistinct : DistinctTxids (observed blocks)) :
    core.Traced (observed blocks) := by
  induction h with
  | new =>
      refine ⟨?_, ?_, ?_⟩
      · intro txid record hget
        simp [Core.initial] at hget
      · intro txid record hget
        simp [Core.initial] at hget
      · intro name bound hbound
        simp [Core.initial, stateOf] at hbound
  | @connect blocks _ core height observations sorted hchain hadmits ih =>
      -- the history is the new block's observations and the older ones
      have hsplit : observed (⟨height, observations⟩ :: blocks) =
          observations ++ observed blocks := rfl
      rw [hsplit] at hdistinct ⊢
      obtain ⟨hblock, hhistory, hapart⟩ := hdistinct.append
      have htraced := ih hhistory
      have hindex : (core.open height).IndexExact := hchain.indexExact
      obtain ⟨_, _, hrules, _⟩ := hchain.terms
      have hmode' : (core.open height).rules.mode = .administered := by
        show core.rules.mode = _
        rw [hrules]
        exact hmode
      have hsorted : ∀ o, o ∈ sorted ↔ o ∈ observations := by
        intro o
        rw [hadmits.sorted_eq]
        exact mem_sortByPosition
      have hunused : Connecting.Unused sorted (core.open height).pending := by
        apply hchain.keys.unused
        intro o ho hused
        exact hapart o ((hsorted o).mp ho) hused
      have hstart : (core.open height).Traced (observations ++ observed blocks) := by
        refine ⟨?_, ?_, htraced.backed⟩
        · intro txid record hget
          obtain ⟨o, ho, hp⟩ := htraced.proposed txid record hget
          exact ⟨o, List.mem_append_right _ ho, hp.txid, hp.author, hp.sha256, hp.payload⟩
        · intro txid record hget key hkey
          obtain ⟨o, ho, he⟩ := htraced.endorsed txid record hget key hkey
          exact ⟨o, List.mem_append_right _ ho, he⟩
      -- the sweep, the approver pass, the owner pass
      have hterms := (Connecting.expire_steps hindex).sameTerms
      obtain ⟨hswept, hunused₁⟩ := (Connecting.expire_steps hindex).traced_approvers hmode'
        (fun o ho => absurd ho List.not_mem_nil) (fun o ho => absurd ho List.not_mem_nil)
        hstart hunused
      have happrovals := Connecting.approverRecords_steps sorted
        ((core.open height).expire (core.open height).height) []
      obtain ⟨happroved, hunused₂⟩ := happrovals.traced_approvers
        (by rw [hterms.rules]; exact hmode') (fun o ho => (List.mem_filter.mp ho).2)
        (fun o ho => List.mem_append_left _ ((hsorted o).mp (List.mem_of_mem_filter ho)))
        hswept hunused₁
      rw [Connecting.applyBlock_administered hindex hmode']
      apply Connecting.ownerRecords_traced sorted _ ?_ ?_ ?_ hunused₂ happroved
      · rw [(hterms.trans happrovals.sameTerms).rules]
        exact hmode'
      · intro o ho
        exact List.mem_append_left _ ((hsorted o).mp ho)
      · rw [hadmits.sorted_eq]
        exact hblock.sortByPosition

/-- **Provenance.** In an administered registry whose active chain repeats no txid, every
bound name rests on the completed request of its claim, and its target is that of the
request or of a completed update of the name by its owner; every completed record holds
exactly a threshold of approvals, all by approvers of the genesis; and every record and
every approval on it was observed in a connected block, the approval for that txid and that
digest. -/
theorem Registry.administered_provenance {r : Registry}
    (hreach : Reaches genesis genesisHeight rules blocks r)
    (hmode : rules.mode = .administered) (hdistinct : DistinctTxids (observed blocks)) :
    (∀ (name : Name) (state : NameState) (bound : Bound), r.names[name]? = some state →
      state.binding = .bound bound →
      ∃ request : PendingRecord, r.pending[bound.claimTxid]? = some request ∧
        request.completed = true ∧ request.kind = .request ∧ request.name = name ∧
        request.author = bound.owner ∧
        ∃ target, bound.target = .publication target ∧
          (request.target = target ∨
            ∃ (txid : Txid) (update : PendingRecord), r.pending[txid]? = some update ∧
              update.completed = true ∧ update.kind = .update ∧ update.name = name ∧
              update.author = bound.owner ∧ update.target = target)) ∧
    (∀ (txid : Txid) (record : PendingRecord), r.pending[txid]? = some record →
      record.completed = true →
      record.approvals.card = rules.threshold.toNat ∧
        ∀ key ∈ record.approvals, key ∈ rules.approvers) ∧
    (∀ (txid : Txid) (record : PendingRecord), r.pending[txid]? = some record →
      (∃ o ∈ observed blocks, r.Proposes o txid record) ∧
        ∀ key ∈ record.approvals, ∃ o ∈ observed blocks, r.Endorses o key txid record) := by
  obtain ⟨_, hchain, _⟩ := hreach.chain
  obtain ⟨_, _, hrules, _⟩ := hchain.terms
  have htraced := hchain.traced hmode hdistinct
  refine ⟨?_, ?_, ?_⟩
  · intro name state bound hget hbinding
    apply htraced.backed name bound
    rw [stateOf_of_get hget]
    exact hbinding
  · intro txid record hget hcompleted
    have hrecord := hchain.quorate.pending txid record hget
    rw [hrules] at hrecord
    exact ⟨hrecord.complete.mp hcompleted, hrecord.approvers⟩
  · intro txid record hget
    exact ⟨htraced.proposed txid record hget, htraced.endorsed txid record hget⟩

end Terms

/-- The binding of `a`, granted by both approvers. -/
theorem Registry.administered_provenance_granted :
    ∃ request : PendingRecord, Sample.grantedRegistry.pending[Sample.txid 2]? = some request ∧
      request.completed = true ∧ request.author = Sample.key 3 ∧
      request.approvals.card = 2 := by
  have hprovenance := Registry.administered_provenance Sample.grantedRegistry_reaches rfl
    (by decide +kernel)
  have hstored : Sample.grantedRegistry.names[Sample.name]? =
      some { NameState.unbound with binding := .bound Sample.grantedBound } := by
    decide +kernel
  obtain ⟨request, hget, hcompleted, _, _, howner, _⟩ :=
    hprovenance.1 Sample.name _ Sample.grantedBound hstored rfl
  exact ⟨request, hget, hcompleted, howner, (hprovenance.2.1 _ _ hget hcompleted).1⟩

end Urma.Names
