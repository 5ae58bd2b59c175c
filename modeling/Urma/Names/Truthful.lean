import Urma.Names.Quorum

/-!
# What a verdict says of the registry

An observation judged invalid has written nothing, and one judged inert no name and no expiry,
with one exception: an approval that closes a request at the end of the heights is judged invalid
for the overflow of the expiry, after the record was completed.
-/

namespace Urma.Names

open Std

namespace Connecting

/-! ## Verdicts and writes -/

/-- The verdict tells the truth about what was written. -/
structure Truthful (c : Connecting) (result : Connecting × Verdict) : Prop where
  invalid : ∀ rejection, result.2 = .invalid rejection → result.1.names = c.names ∧
    result.1.pending = c.pending ∧ result.1.expiries = c.expiries
  inert : ∀ rejection, result.2 = .inert rejection →
    result.1.names = c.names ∧ result.1.expiries = c.expiries
  changed : result.1.names ≠ c.names → result.2 = .applied ∨ result.2 = .pending

/-- The observation is handled by one of the handlers of records, with this result. -/
inductive Handles (c : Connecting) (o : Observation) : Connecting × Verdict → Prop
  | approve {approval} : o.payload = .approve approval → Handles c o (c.approve o approval)
  | vote {op suspend} : o.payload = votePayload op suspend → Handles c o (c.vote o op suspend)
  | request {op} : o.payload = .claim op → Handles c o (c.request o op)
  | update {op} : o.payload = .update op → Handles c o (c.update o op)
  | renew {op} : o.payload = .renew op → Handles c o (c.renew o op)

/-- The observation is the approval that closes a request for a free name, at a height where the
expiry of the binding overflows. -/
def Strands (c : Connecting) (o : Observation) : Prop :=
  ∃ approval record, Counts c o approval record ∧
    c.rules.threshold.toNat ≤ (endorsed record o.author).approvals.card ∧
    record.kind = .request ∧ (stateOf c.names record.name).suspended = false ∧
    (stateOf c.names record.name).binding = .unbound ∧ c.expiryAfter o.height = none

variable {c : Connecting} {o : Observation} {result : Connecting × Verdict}

theorem Truthful.of_same (h : result.1 = c) : Truthful c result :=
  ⟨fun _ _ => by rw [h]; exact ⟨rfl, rfl, rfl⟩, fun _ _ => by rw [h]; exact ⟨rfl, rfl⟩,
    fun hne => absurd (by rw [h]) hne⟩

theorem Truthful.of_verdict (h : result.2 = .applied ∨ result.2 = .pending) :
    Truthful c result := by
  refine ⟨?_, ?_, fun _ => h⟩
  · intro rejection hinvalid
    rw [hinvalid] at h
    rcases h with h | h <;> cases h
  · intro rejection hinert
    rw [hinert] at h
    rcases h with h | h <;> cases h

/-- An inert record may be completed. -/
theorem Truthful.of_inert {rejection : Rejection} (h : result.2 = .inert rejection)
    (hnames : result.1.names = c.names) (hexpiries : result.1.expiries = c.expiries) :
    Truthful c result := by
  refine ⟨?_, fun _ _ => ⟨hnames, hexpiries⟩, fun hne => absurd hnames hne⟩
  intro rejection' hinvalid
  rw [h] at hinvalid
  cases hinvalid

/-! ## One lemma for each handler -/

theorem vote_truthful (op : NameOp) (suspend : Bool) : Truthful c (c.vote o op suspend) := by
  unfold vote
  split
  · exact .of_same rfl
  · simp only
    split
    · exact .of_same rfl
    · split
      · exact .of_same rfl
      · exact .of_verdict (Or.inl rfl)

theorem request_truthful (op : OwnerOp) : Truthful c (c.request o op) := by
  unfold request
  split
  · exact .of_same rfl
  · split
    · exact .of_same rfl
    · exact .of_verdict (Or.inr rfl)

theorem update_truthful (op : OwnerOp) : Truthful c (c.update o op) := by
  unfold update
  split
  · exact .of_same rfl
  · simp only
    split
    · exact .of_same rfl
    · split
      · exact .of_same rfl
      · split
        · exact .of_verdict (Or.inl rfl)
        · split
          · exact .of_same rfl
          · exact .of_verdict (Or.inr rfl)

theorem renew_truthful (op : OwnerOp) : Truthful c (c.renew o op) := by
  unfold renew
  split
  · exact .of_same rfl
  · split
    · exact .of_same rfl
    · simp only
      split
      · exact .of_same rfl
      · split
        · exact .of_same rfl
        · split
          · exact .of_verdict (Or.inl rfl)
          · split
            · exact .of_same rfl
            · exact .of_verdict (Or.inl rfl)

/-- Completing a record tells the truth unless its expiry overflows. -/
theorem complete_truthful {recordTxid : Txid} {record : PendingRecord}
    (h : ¬(record.kind = .request ∧ (stateOf c.names record.name).suspended = false ∧
      (stateOf c.names record.name).binding = .unbound ∧ c.expiryAfter o.height = none)) :
    Truthful c (((c.rememberPending recordTxid).complete o recordTxid record).1.storePending
        recordTxid record, ((c.rememberPending recordTxid).complete o recordTxid record).2) := by
  -- what an inert completion leaves: the registry with the completed record
  have hinert : ∀ rejection, Truthful c
      ((c.rememberPending recordTxid).storePending recordTxid record, .inert rejection) :=
    fun rejection => .of_inert rfl (setPending_names c recordTxid record)
      (setPending_expiries c recordTxid record)
  unfold complete
  simp only [rememberPending_toCore]
  cases hkind : record.kind with
  | request =>
      simp only
      by_cases hsuspended : (stateOf c.names record.name).suspended = true
      · simp only [if_pos hsuspended]
        exact hinert .nameSuspended
      · simp only [if_neg hsuspended]
        cases hbinding : (stateOf c.names record.name).binding with
        | bound bound => exact hinert .nameBound
        | unbound =>
            cases hexpiry : c.expiryAfter o.height with
            | none =>
                exact absurd ⟨hkind, Bool.eq_false_of_not_eq_true hsuspended, hbinding, hexpiry⟩ h
            | some expiry => exact .of_verdict (Or.inl rfl)
  | update =>
      simp only
      cases hbinding : (stateOf c.names record.name).binding with
      | unbound => exact hinert .nameUnbound
      | bound bound =>
          simp only
          by_cases howner : bound.owner ≠ record.author
          · simp only [if_pos howner]
            exact hinert .ownerChanged
          · simp only [if_neg howner]
            exact .of_verdict (Or.inl rfl)

theorem approve_truthful {approval : Approval} (hpayload : o.payload = .approve approval)
    (h : ¬c.Strands o) : Truthful c (c.approve o approval) := by
  unfold approve
  split
  · exact .of_same rfl
  · next hadmitted =>
    split
    · exact .of_same rfl
    · next record hfound =>
      split
      · exact .of_same rfl
      · next hhash =>
        split
        · exact .of_same rfl
        · next hincomplete =>
          split
          · exact .of_same rfl
          · next hfresh =>
            have hcounts : Counts c o approval record :=
              ⟨hpayload, hadmitted, hfound, not_not.mp hhash, by simpa using hincomplete, hfresh⟩
            simp only [rememberPending_toCore]
            split
            · exact .of_verdict (Or.inl rfl)
            · next hquorum =>
              apply @complete_truthful c o approval.recordTxid (closed record o.author)
              rintro ⟨hkind, hsuspended, hbinding, hexpiry⟩
              exact h ⟨approval, record, hcounts, Nat.le_of_not_lt hquorum, hkind, hsuspended,
                hbinding, hexpiry⟩

/-- **The stranded record**: the verdict is invalid, and the record is completed. -/
theorem approve_of_strands {approval : Approval} (hpayload : o.payload = .approve approval)
    (h : c.Strands o) : (c.approve o approval).2 = .invalid .overflow ∧
      ∃ record, c.pending[approval.recordTxid]? = some record ∧ record.completed = false ∧
        (c.approve o approval).1.pending =
          c.pending.insert approval.recordTxid (closed record o.author) := by
  obtain ⟨approval', record, hcounts, hquorum, hkind, hsuspended, hbinding, hexpiry⟩ := h
  have hsame := hcounts.payload
  rw [hpayload] at hsame
  cases hsame
  have hcomplete : (c.rememberPending approval.recordTxid).complete o approval.recordTxid
      (closed record o.author) = (c.rememberPending approval.recordTxid, .invalid .overflow) := by
    unfold complete
    simp only [rememberPending_toCore]
    rw [show (closed record o.author).kind = .request from hkind]
    dsimp only
    rw [show (stateOf c.names (closed record o.author).name).suspended = false from hsuspended,
      if_neg Bool.false_ne_true,
      show (stateOf c.names (closed record o.author).name).binding = .unbound from hbinding]
    dsimp only
    rw [hexpiry]
  have happrove : c.approve o approval =
      (c.setPending approval.recordTxid (closed record o.author), .invalid .overflow) := by
    unfold approve
    simp only [hcounts.admitted, hcounts.found, if_neg (not_not.mpr hcounts.hash),
      hcounts.incomplete, if_neg hcounts.fresh]
    rw [if_neg Bool.false_ne_true]
    have hcard : ¬(endorsed record o.author).approvals.card < c.rules.threshold.toNat :=
      Nat.not_lt.mpr hquorum
    show (if (endorsed record o.author).approvals.card <
      (c.rememberPending approval.recordTxid).rules.threshold.toNat then _ else _ :
        Connecting × Verdict) = _
    have hstore : (((c.rememberPending approval.recordTxid).complete o approval.recordTxid
          (closed record o.author)).1.storePending approval.recordTxid (closed record o.author),
        ((c.rememberPending approval.recordTxid).complete o approval.recordTxid
          (closed record o.author)).2) =
        (c.setPending approval.recordTxid (closed record o.author), .invalid .overflow) := by
      rw [hcomplete]
      rfl
    rw [rememberPending_toCore, if_neg hcard]
    exact hstore
  rw [happrove]
  exact ⟨rfl, record, hcounts.found, hcounts.incomplete, setPending_pending _ _ _⟩

/-- **A handler's verdict tells the truth** except about a stranded record. -/
theorem Handles.truthful_iff (h : c.Handles o result) : Truthful c result ↔ ¬c.Strands o := by
  -- no payload but an approval's strands a record
  have hother : (∀ approval, o.payload ≠ .approve approval) → ¬c.Strands o := by
    rintro hne ⟨approval, record, hcounts, _⟩
    exact hne approval hcounts.payload
  cases h with
  | @approve approval hpayload =>
      constructor
      · intro htruthful hstrands
        obtain ⟨hverdict, record, hfound, hincomplete, hpending⟩ :=
          approve_of_strands hpayload hstrands
        have hsame := (htruthful.invalid .overflow hverdict).2.1
        rw [hpending] at hsame
        have hget := congrArg (fun pending => pending[approval.recordTxid]?) hsame
        simp only [ExtTreeMap.getElem?_insert_self, hfound, Option.some.injEq] at hget
        have hcompleted := congrArg PendingRecord.completed hget
        rw [hincomplete] at hcompleted
        cases hcompleted
      · exact approve_truthful hpayload
  | @vote op suspend hpayload =>
      refine iff_of_true (vote_truthful op suspend) (hother fun approval happrove => ?_)
      rw [hpayload] at happrove
      cases suspend <;> cases happrove
  | @request op hpayload =>
      refine iff_of_true (request_truthful op) (hother fun approval happrove => ?_)
      rw [hpayload] at happrove
      cases happrove
  | @update op hpayload =>
      refine iff_of_true (update_truthful op) (hother fun approval happrove => ?_)
      rw [hpayload] at happrove
      cases happrove
  | @renew op hpayload =>
      refine iff_of_true (renew_truthful op) (hother fun approval happrove => ?_)
      rw [hpayload] at happrove
      cases happrove

/-! ## The records of a block -/

/-- The observation is handled while the block is applied: by the approver pass after the ones
before it, or by the owner pass. -/
inductive Processes (start : Connecting) (sorted : List Observation) (c : Connecting)
    (o : Observation) (result : Connecting × Verdict) : Prop
  | approver {before after} : sorted = before ++ o :: after →
      c = ((start.expire start.height).approverRecords before []).1 →
      c.approverRecord o = some result → Processes start sorted c o result
  | owner {claimed outcomes before after} : sorted = before ++ o :: after →
      (claimed, outcomes) = (let (passed, outcomes) :=
          (start.expire start.height).approverRecords sorted []
        if passed.rules.mode = .«open» then passed.claims sorted outcomes else (passed, outcomes)) →
      c = (claimed.ownerRecords before outcomes).1 →
      c.ownerRecord o = some result → Processes start sorted c o result

/-- What a pass handles is handled by one of the handlers; a genesis record is only refused. -/
theorem Processes.handles {start : Connecting} {sorted : List Observation}
    (h : Processes start sorted c o result) :
    c.Handles o result ∨ (∃ rules, o.payload = .genesis rules) ∧ result.1 = c := by
  cases h with
  | approver _ _ hresult =>
      unfold approverRecord at hresult
      cases hpayload : o.payload with
      | approve approval => rw [hpayload] at hresult; cases hresult; exact .inl (.approve hpayload)
      | suspend op =>
          rw [hpayload] at hresult; cases hresult
          exact .inl (@Handles.vote c o op true hpayload)
      | restore op =>
          rw [hpayload] at hresult; cases hresult
          exact .inl (@Handles.vote c o op false hpayload)
      | genesis rules => rw [hpayload] at hresult; cases hresult
      | claim op => rw [hpayload] at hresult; cases hresult
      | update op => rw [hpayload] at hresult; cases hresult
      | renew op => rw [hpayload] at hresult; cases hresult
  | owner _ _ _ hresult =>
      unfold ownerRecord at hresult
      cases hpayload : o.payload with
      | claim op =>
          rw [hpayload] at hresult
          cases hmode : c.rules.mode with
          | «open» => simp [hmode] at hresult
          | administered =>
              simp only [hmode, Option.some.injEq] at hresult
              subst hresult
              exact .inl (.request hpayload)
      | update op => rw [hpayload] at hresult; cases hresult; exact .inl (.update hpayload)
      | renew op => rw [hpayload] at hresult; cases hresult; exact .inl (.renew hpayload)
      | genesis rules =>
          rw [hpayload] at hresult; cases hresult
          exact .inr ⟨⟨rules, rfl⟩, rfl⟩
      | approve approval => rw [hpayload] at hresult; cases hresult
      | suspend op => rw [hpayload] at hresult; cases hresult
      | restore op => rw [hpayload] at hresult; cases hresult

/-- **A verdict of a block tells the truth** except about a stranded record. -/
theorem Processes.truthful_iff {start : Connecting} {sorted : List Observation}
    (h : Processes start sorted c o result) : Truthful c result ↔ ¬c.Strands o := by
  rcases h.handles with hhandles | ⟨⟨rules, hpayload⟩, hsame⟩
  · exact hhandles.truthful_iff
  · refine iff_of_true (.of_same hsame) ?_
    rintro ⟨approval, record, hcounts, _⟩
    have happrove := hcounts.payload
    rw [hpayload] at happrove
    cases happrove

end Connecting

namespace Registry

/-- **Verdicts tell the truth about the registry** exactly where no record is stranded: for every
call of a handler, and so for every observation of a block that a reachable registry accepts. -/
theorem verdicts_truthful (c : Connecting) (o : Observation) (result : Connecting × Verdict) :
    (c.Handles o result → (Connecting.Truthful c result ↔ ¬c.Strands o)) ∧
    ∀ (r : Registry), r.Reachable → ∀ (height : Nat) (observations sorted : List Observation),
      r.admitBlock height observations = .ok sorted →
        (r.toCore.open height).Processes sorted c o result →
          (Connecting.Truthful c result ↔ ¬c.Strands o) :=
  ⟨fun hhandles => hhandles.truthful_iff,
    fun _ _ _ _ _ _ hprocesses => hprocesses.truthful_iff⟩

end Registry

/-! ## A request closed at the end of the heights -/

namespace Sample

/-- The rules of the open sample under one approver. -/
def oneRules : Genesis := ⟨.administered, 10, 2, 1, [key 1]⟩

/-- Twelve heights before the last. -/
def strandHeight : Nat := 18446744073709551603

/-- The request of `a` two blocks later, and its approval in the block after that. -/
def strandRequest : Observation :=
  record 2 3 (.claim ⟨txid 1, Vector.replicate 16 0, name, txid 9⟩) (strandHeight + 2) 0

def strandApproval : Observation :=
  record 4 1 (.approve ⟨txid 1, txid 2, Vector.replicate 32 2⟩) (strandHeight + 3) 0

/-- The registry with the request pending. -/
def strandRegistry : Registry :=
  let new := Registry.mk (Core.initial (txid 1) strandHeight oneRules) []
  let started := (new.connectDelta (strandHeight + 1) []).2
  (started.connectDelta (strandHeight + 2) [strandRequest]).2

theorem strandRegistry_reaches :
    Registry.Reaches (txid 1) strandHeight oneRules
      [⟨strandHeight + 2, [strandRequest]⟩, ⟨strandHeight + 1, []⟩] strandRegistry := by
  have hnew : Registry.Reaches (txid 1) strandHeight oneRules []
      ⟨Core.initial (txid 1) strandHeight oneRules, []⟩ :=
    .new (Registry.new_eq_ok.mpr ⟨by decide +kernel, rfl⟩)
  have hstart := hnew.connect_admitted ⟨strandHeight + 1, []⟩ (by decide +kernel)
  exact hstart.connect_admitted ⟨strandHeight + 2, [strandRequest]⟩ (by decide +kernel)

/-- The registry when the approval is handled. -/
def strandStart : Connecting :=
  (strandRegistry.toCore.open (strandHeight + 3)).expire (strandHeight + 3)

theorem strandApproval_processes :
    (strandRegistry.toCore.open (strandHeight + 3)).Processes [strandApproval] strandStart
      strandApproval (strandStart.approve strandApproval
        ⟨txid 1, txid 2, Vector.replicate 32 2⟩) :=
  @Connecting.Processes.approver _ _ _ _ _ [] [] rfl rfl rfl

theorem strandApproval_strands : strandStart.Strands strandApproval := by
  refine ⟨⟨txid 1, txid 2, Vector.replicate 32 2⟩, Connecting.proposedRecord strandRequest .request
    ⟨txid 1, Vector.replicate 16 0, name, txid 9⟩, ⟨rfl, by decide +kernel, by decide +kernel,
      by decide +kernel, rfl, by decide +kernel⟩, by decide +kernel, rfl, by decide +kernel,
      by decide +kernel, by decide +kernel⟩

end Sample

/-- An approval that is judged invalid completes its record. -/
theorem Registry.not_verdicts_truthful :
    ¬∀ r : Registry, r.Reachable → ∀ height observations sorted,
      r.admitBlock height observations = .ok sorted →
      ∀ c o result, (r.toCore.open height).Processes sorted c o result →
        Connecting.Truthful c result := by
  intro h
  have htruthful := h Sample.strandRegistry Sample.strandRegistry_reaches.reachable
    (Sample.strandHeight + 3) [Sample.strandApproval] [Sample.strandApproval] (by decide +kernel)
    _ _ _ Sample.strandApproval_processes
  exact Sample.strandApproval_processes.truthful_iff.mp htruthful Sample.strandApproval_strands

/-- The claim of `a` in the open sample is renewed by nobody else. -/
theorem Registry.verdicts_truthful_renew :
    Connecting.Truthful (Sample.claimedRegistry.toCore.open 103)
      ((Sample.claimedRegistry.toCore.open 103).renew
        (Sample.record 6 5 (.renew ⟨Sample.txid 1, Vector.replicate 16 0, Sample.name,
          Sample.txid 9⟩) 103 0)
        ⟨Sample.txid 1, Vector.replicate 16 0, Sample.name, Sample.txid 9⟩) := by
  refine ((Registry.verdicts_truthful _ (Sample.record 6 5 (.renew ⟨Sample.txid 1,
    Vector.replicate 16 0, Sample.name, Sample.txid 9⟩) 103 0) _).1 (.renew rfl)).mpr ?_
  rintro ⟨approval, record, hcounts, _⟩
  cases hcounts.payload

end Urma.Names
