import Urma.Lib.Noninterference
import Urma.Names.Expiries

/-!
# Names are isolated from each other

Two runs from one registry that hold the same observations about a name leave the name in
the same state, whatever else their blocks hold. `Agree` is what an observer of the name
sees of a registry. Observations about other names keep it on either side
(`Step.isolated`), observations about the name keep it when both sides handle them
(`approverRecord_agree`, `ownerRecord_agree`), so the passes are unwindings in the sense of
`Urma.Lib.Noninterference`.

Record txids are the one thing names share: an observation about another name must not
reuse the txid of a record of this one. That is where distinct txids are needed.
-/

namespace Urma.Names

open Std
open Urma.Lib.Noninterference (Unwinding)

/-- What an observer of one name sees: the terms, the stored state of the name, and the
pending records for it. -/
structure Agree (name : Name) (c d : Core) : Prop where
  terms : SameTerms c d
  state : c.names[name]? = d.names[name]?
  records : ∀ (txid : Txid) (record : PendingRecord), record.name = name →
    (c.pending[txid]? = some record ↔ d.pending[txid]? = some record)

namespace Agree

variable {name : Name} {c d e : Core}

theorem refl (name : Name) (c : Core) : Agree name c c :=
  ⟨SameTerms.refl c, rfl, fun _ _ _ => Iff.rfl⟩

theorem symm (h : Agree name c d) : Agree name d c :=
  ⟨h.terms.symm, h.state.symm, fun txid record hname => (h.records txid record hname).symm⟩

theorem trans (h₁ : Agree name c d) (h₂ : Agree name d e) : Agree name c e :=
  ⟨h₁.terms.trans h₂.terms, h₁.state.trans h₂.state,
    fun txid record hname => (h₁.records txid record hname).trans (h₂.records txid record hname)⟩

theorem stateOf_eq (h : Agree name c d) : stateOf c.names name = stateOf d.names name :=
  Connecting.stateOf_congr h.state

end Agree

namespace Connecting

variable {name : Name} {c c' d d' : Connecting} {o : Observation}

/-! ## Writes elsewhere, and writes on both sides -/

theorem agree_setName_of_ne {other : Name} (hne : other ≠ name) (state : NameState) :
    Agree name c.toCore (c.setName other state).toCore := by
  refine ⟨setName_sameTerms c other state, ?_, ?_⟩
  · rw [setName_names, ExtTreeMap.getElem?_insert, if_neg]
    rw [LawfulEqCmp.compare_eq_iff_eq]
    exact hne
  · intro txid record _
    rw [setName_pending]

theorem agree_setPending_of_ne {txid : Txid} {record : PendingRecord}
    (hold : ∀ old : PendingRecord, c.pending[txid]? = some old → old.name ≠ name)
    (hne : record.name ≠ name) : Agree name c.toCore (c.setPending txid record).toCore := by
  refine ⟨setPending_sameTerms c txid record, by rw [setPending_names], ?_⟩
  intro other record' hname
  rw [setPending_pending, ExtTreeMap.getElem?_insert]
  split
  · next heq =>
    have hkey : txid = other := LawfulEqCmp.compare_eq_iff_eq.mp heq
    constructor
    · intro hget
      rw [← hkey] at hget
      exact absurd hname (hold record' hget)
    · intro hget
      cases hget
      exact absurd hname hne
  · exact Iff.rfl

theorem agree_setName_both (h : Agree name c.toCore d.toCore) (other : Name)
    (state : NameState) :
    Agree name (c.setName other state).toCore (d.setName other state).toCore := by
  refine ⟨?_, ?_, ?_⟩
  · exact (setName_sameTerms c other state).symm.trans
      (h.terms.trans (setName_sameTerms d other state))
  · rw [setName_names, setName_names, ExtTreeMap.getElem?_insert, ExtTreeMap.getElem?_insert,
      h.state]
  · intro txid record hname
    rw [setName_pending, setName_pending]
    exact h.records txid record hname

theorem agree_setPending_both (h : Agree name c.toCore d.toCore) (txid : Txid)
    (record : PendingRecord) :
    Agree name (c.setPending txid record).toCore (d.setPending txid record).toCore := by
  refine ⟨?_, ?_, ?_⟩
  · exact (setPending_sameTerms c txid record).symm.trans
      (h.terms.trans (setPending_sameTerms d txid record))
  · rw [setPending_names, setPending_names]
    exact h.state
  · intro other record' hname
    rw [setPending_pending, setPending_pending, ExtTreeMap.getElem?_insert,
      ExtTreeMap.getElem?_insert]
    split
    · exact Iff.rfl
    · exact h.records other record' hname

/-! ## Observations about other names -/

/-- An observation that does not touch a name: it names another one, or approves no record
of this one. -/
def Misses (c : Connecting) (name : Name) (o : Observation) : Prop :=
  match o.payload with
  | .claim op | .update op | .renew op => op.name ≠ name
  | .suspend op | .restore op => op.name ≠ name
  | .approve approval => ∀ record : PendingRecord,
      c.pending[approval.recordTxid]? = some record → record.name ≠ name
  | .genesis _ => True

/-- **A step for another name changes nothing that this name's observer sees.** -/
theorem Step.isolated (h : Step c (some o) c') (hmiss : Misses c name o)
    (hfresh : o.payload.isApproverOp = false → c.pending[o.txid]? = none) :
    Agree name c.toCore c'.toCore := by
  -- an approval writes the record it found, which is another name's
  have happroved : ∀ {approval record}, Counts c o approval record → record.name ≠ name := by
    intro approval record hcounts
    unfold Misses at hmiss
    rw [hcounts.payload] at hmiss
    exact hmiss record hcounts.found
  have hfound : ∀ {approval record}, Counts c o approval record →
      ∀ old : PendingRecord, c.pending[approval.recordTxid]? = some old → old.name ≠ name := by
    intro approval record hcounts old hget
    rw [hcounts.found] at hget
    cases hget
    exact happroved hcounts
  have hcompleted : ∀ {approval record}, Counts c o approval record → ∀ state,
      Agree name c.toCore ((c.setName record.name state).setPending approval.recordTxid
        (closed record o.author)).toCore := by
    intro approval record hcounts state
    have hother := happroved hcounts
    refine (agree_setName_of_ne hother state).trans (agree_setPending_of_ne ?_ hother)
    intro old hget
    rw [setName_pending] at hget
    exact hfound hcounts old hget
  -- a proposal writes an unused txid
  have hproposed : ∀ {kind op}, o.payload = payloadOf kind op →
      Agree name c.toCore (c.insertPending o kind op).toCore := by
    intro kind op hpayload
    have hname : (proposedRecord o kind op).name ≠ name := by
      unfold Misses at hmiss
      rw [hpayload] at hmiss
      cases kind <;> exact hmiss
    have hnone : c.pending[o.txid]? = none := by
      apply hfresh
      rw [hpayload]
      cases kind <;> rfl
    apply agree_setPending_of_ne ?_ hname
    intro old hget
    rw [hnone] at hget
    cases hget
  unfold Misses at hmiss
  cases h with
  | endorse hcounts =>
      have hother := happroved hcounts
      apply agree_setPending_of_ne (hfound hcounts)
      exact hother
  | close hcounts =>
      have hother := happroved hcounts
      apply agree_setPending_of_ne (hfound hcounts)
      exact hother
  | grant hcounts => exact hcompleted hcounts _
  | retarget hcounts => exact hcompleted hcounts _
  | @vote _ op suspend hpayload =>
      rw [hpayload] at hmiss
      cases suspend <;> exact agree_setName_of_ne hmiss _
  | claim _ hpayload =>
      rw [hpayload] at hmiss
      exact agree_setName_of_ne hmiss _
  | request _ hpayload => exact hproposed hpayload
  | propose _ hpayload => exact hproposed hpayload
  | update _ hpayload =>
      rw [hpayload] at hmiss
      exact agree_setName_of_ne hmiss _
  | renew hpayload =>
      rw [hpayload] at hmiss
      exact agree_setName_of_ne hmiss _

/-! ## Observations about the name, handled on both sides -/

theorem complete_agree (h : Agree name c.toCore d.toCore) {record : PendingRecord}
    (hname : record.name = name) (o : Observation) (txid : Txid) (record' : PendingRecord) :
    Agree name (((c.rememberPending txid).complete o txid record).1.storePending txid record').toCore
      (((d.rememberPending txid).complete o txid record).1.storePending txid record').toCore := by
  have hstate : stateOf c.names record.name = stateOf d.names record.name := by
    rw [hname]
    exact h.stateOf_eq
  have hexpiry : d.expiryAfter o.height = c.expiryAfter o.height := h.terms.expiryAfter o.height
  have hclose := agree_setPending_both h txid record'
  unfold setPending at hclose
  -- both sides read the same state, so they take the same branch
  unfold complete
  simp only [rememberPending_toCore, ← hstate, hexpiry]
  cases record.kind with
  | request =>
      simp only
      split
      · exact hclose
      · split
        · exact hclose
        · split
          · exact hclose
          · rw [rememberPending_setName, rememberPending_setName]
            exact agree_setPending_both (agree_setName_both h _ _) txid record'
  | update =>
      simp only
      split
      · exact hclose
      · split
        · exact hclose
        · rw [rememberPending_setName, rememberPending_setName]
          exact agree_setPending_both (agree_setName_both h _ _) txid record'

/-- The registry after a handler that may skip the observation. -/
def advance (handle : Connecting → Observation → Option (Connecting × Verdict))
    (c : Connecting) (o : Observation) : Connecting :=
  match handle c o with
  | none => c
  | some result => result.1

/-- The loop over observations is a fold on the registry. -/
theorem eachRecord_eq_foldl
    (handle : Connecting → Observation → Option (Connecting × Verdict))
    (observations : List Observation) (c : Connecting) (outcomes : List Outcome) :
    (eachRecord handle observations (c, outcomes)).1 = observations.foldl (advance handle) c := by
  induction observations generalizing c outcomes with
  | nil => rfl
  | cons o rest ih =>
      rw [List.foldl_cons, eachRecord, advance]
      cases handle c o with
      | none => exact ih c outcomes
      | some result => exact ih result.1 _

/-- A handler that steps for another name. -/
theorem advance_isolated {handle : Connecting → Observation → Option (Connecting × Verdict)}
    (hstep : ∀ result, handle c o = some result →
      (result.1 = c ∨ Step c (some o) result.1) ∧
        (o.payload.isApproverOp = false → c.pending[o.txid]? = none))
    (hmiss : Misses c name o) : Agree name c.toCore (advance handle c o).toCore := by
  unfold advance
  cases hresult : handle c o with
  | none => exact Agree.refl name c.toCore
  | some result =>
      obtain ⟨hstep, hfresh⟩ := hstep result hresult
      rcases hstep with heq | hstep
      · show Agree name c.toCore result.1.toCore
        rw [heq]
        exact Agree.refl name c.toCore
      · exact hstep.isolated hmiss hfresh

theorem approve_agree (h : Agree name c.toCore d.toCore) {approval : Approval}
    (hpayload : o.payload = .approve approval) :
    Agree name (c.approve o approval).1.toCore (d.approve o approval).1.toCore := by
  by_cases hmine : ∃ record : PendingRecord,
      c.pending[approval.recordTxid]? = some record ∧ record.name = name
  · -- a record of this name: both sides hold it and do the same to it
    obtain ⟨record, hc, hname⟩ := hmine
    have hd := (h.records _ record hname).mp hc
    unfold approve
    rw [h.terms.admitApprover]
    split
    · exact h
    · simp only [hc, hd]
      split
      · exact h
      · split
        · exact h
        · split
          · exact h
          · simp only [rememberPending_toCore, h.terms.rules]
            split
            · exact agree_setPending_both h _ _
            · apply complete_agree h
              exact hname
  · -- no record of this name: neither side touches it
    have hmissc : Misses c name o := by
      unfold Misses
      rw [hpayload]
      intro record hget hname
      exact hmine ⟨record, hget, hname⟩
    have hmissd : Misses d name o := by
      unfold Misses
      rw [hpayload]
      intro record hget hname
      exact hmine ⟨record, (h.records _ record hname).mpr hget, hname⟩
    have hkind : o.payload.isApproverOp = false → ∀ e : Connecting, e.pending[o.txid]? = none := by
      intro hfalse
      rw [hpayload] at hfalse
      cases hfalse
    have hside : ∀ e : Connecting, Misses e name o →
        Agree name e.toCore (e.approve o approval).1.toCore := by
      intro e hmiss
      rcases approve_step (c := e) hpayload with heq | hstep
      · rw [heq]
        exact Agree.refl name e.toCore
      · exact hstep.isolated hmiss (fun hfalse => hkind hfalse e)
    exact (hside c hmissc).symm.trans (h.trans (hside d hmissd))

theorem vote_agree (h : Agree name c.toCore d.toCore) {op : NameOp} (hname : op.name = name)
    (o : Observation) (suspend : Bool) :
    Agree name (c.vote o op suspend).1.toCore (d.vote o op suspend).1.toCore := by
  have hstate : stateOf c.names op.name = stateOf d.names op.name := by
    rw [hname]
    exact h.stateOf_eq
  unfold vote
  rw [h.terms.admitApprover]
  split
  · exact h
  · simp only [← hstate, h.terms.rules]
    split
    · exact h
    · split
      · exact h
      · exact agree_setName_both h _ _

theorem insertPending_agree (h : Agree name c.toCore d.toCore) (o : Observation)
    (kind : PendingKind) (op : OwnerOp) :
    Agree name (c.insertPending o kind op).toCore (d.insertPending o kind op).toCore :=
  agree_setPending_both h o.txid (proposedRecord o kind op)

theorem request_agree (h : Agree name c.toCore d.toCore) (o : Observation) (op : OwnerOp) :
    Agree name (c.request o op).1.toCore (d.request o op).1.toCore := by
  unfold request
  rw [h.terms.admitObservation]
  split
  · exact h
  · split
    · exact h
    · exact insertPending_agree h o .request op

theorem update_agree (h : Agree name c.toCore d.toCore) {op : OwnerOp} (hname : op.name = name)
    (o : Observation) : Agree name (c.update o op).1.toCore (d.update o op).1.toCore := by
  have hstate : stateOf c.names op.name = stateOf d.names op.name := by
    rw [hname]
    exact h.stateOf_eq
  unfold update
  rw [h.terms.admitObservation]
  split
  · exact h
  · simp only [← hstate, h.terms.rules]
    split
    · exact h
    · split
      · exact h
      · split
        · exact agree_setName_both h _ _
        · split
          · exact h
          · exact insertPending_agree h o .update op

theorem renew_agree (h : Agree name c.toCore d.toCore) {op : OwnerOp} (hname : op.name = name)
    (o : Observation) : Agree name (c.renew o op).1.toCore (d.renew o op).1.toCore := by
  have hstate : stateOf c.names op.name = stateOf d.names op.name := by
    rw [hname]
    exact h.stateOf_eq
  unfold renew
  rw [h.terms.admitObservation, h.terms.expiryAfter]
  split
  · exact h
  · split
    · exact h
    · simp only [← hstate, h.terms.rules]
      split
      · exact h
      · split
        · exact h
        · split
          · exact agree_setName_both h _ _
          · split
            · exact h
            · exact agree_setName_both h _ _

/-! ## The passes -/

/-- Is the observation about the name? An approval is by the txid of its record. -/
def Concerns (name : Name) (records : Txid → Prop) (o : Observation) : Prop :=
  match o.payload with
  | .claim op | .update op | .renew op => op.name = name
  | .suspend op | .restore op => op.name = name
  | .approve approval => records approval.recordTxid
  | .genesis _ => False

/-- What one side needs of the records it holds and of the observations it has still to
handle: the records of the name are under known txids, and no later txid is used. -/
structure Side (name : Name) (records : Txid → Prop)
    (pending : ExtTreeMap Txid PendingRecord) (later : List Observation) : Prop where
  held : ∀ (txid : Txid) (record : PendingRecord), pending[txid]? = some record →
    record.name = name → records txid
  unused : Unused later pending
  distinct : DistinctTxids later
  proposes : ∀ o ∈ later, ∀ kind op, o.payload = payloadOf kind op → op.name = name →
    records o.txid

variable {records : Txid → Prop} {later : List Observation}

theorem Side.tail (h : Side name records c.pending (o :: later)) :
    Side name records c.pending later where
  held := h.held
  unused := fun o' ho' => h.unused o' (List.mem_cons_of_mem o ho')
  distinct := (List.nodup_cons.mp h.distinct).2
  proposes := fun o' ho' => h.proposes o' (List.mem_cons_of_mem o ho')

theorem Side.misses (h : Side name records c.pending later) (hnot : ¬ Concerns name records o) :
    Misses c name o := by
  unfold Concerns at hnot
  unfold Misses
  cases hpayload : o.payload with
  | claim op => rw [hpayload] at hnot; exact hnot
  | update op => rw [hpayload] at hnot; exact hnot
  | renew op => rw [hpayload] at hnot; exact hnot
  | suspend op => rw [hpayload] at hnot; exact hnot
  | restore op => rw [hpayload] at hnot; exact hnot
  | approve approval =>
      rw [hpayload] at hnot
      intro record hget hname
      exact hnot (h.held _ record hget hname)
  | genesis rules => exact True.intro

/-- An approver record keeps the side condition for everything later. -/
theorem Step.side_approver (h : Step c (some o) c') (hkind : o.payload.isApproverOp = true)
    (hside : Side name records c.pending later) : Side name records c'.pending later := by
  refine ⟨?_, ?_, hside.distinct, hside.proposes⟩
  · intro txid record hget hname
    cases h.pending_from hget with
    | before hbefore => exact hside.held txid record hbefore hname
    | @approved o' approval old _ hcounts htxid hrecord =>
        have hfound := hcounts.found
        rw [htxid] at hfound
        apply hside.held txid old hfound
        rcases hrecord with rfl | rfl <;> exact hname
    | @proposed o' kind op htrigger _ hpayload =>
        cases htrigger
        rw [hpayload] at hkind
        cases kind <;> cases hkind
  · apply h.unused hside.unused
    intro o' htrigger hfalse
    cases htrigger
    rw [hkind] at hfalse
    cases hfalse

/-- An owner record uses its own txid only. -/
theorem Step.side_owner (h : Step c (some o) c')
    (hside : Side name records c.pending (o :: later)) :
    Side name records c'.pending later := by
  refine ⟨?_, ?_, hside.tail.distinct, hside.tail.proposes⟩
  · intro txid record hget hname
    cases h.pending_from hget with
    | before hbefore => exact hside.held txid record hbefore hname
    | @approved o' approval old _ hcounts htxid hrecord =>
        have hfound := hcounts.found
        rw [htxid] at hfound
        apply hside.held txid old hfound
        rcases hrecord with rfl | rfl <;> exact hname
    | @proposed o' kind op htrigger htxid hpayload _ hrecord =>
        cases htrigger
        subst hrecord
        rw [← htxid]
        exact hside.proposes o List.mem_cons_self kind op hpayload hname
  · apply h.unused hside.tail.unused
    intro o' htrigger _ o'' ho'' heq
    cases htrigger
    exact (List.nodup_cons.mp hside.distinct).1 (heq ▸ List.mem_map_of_mem ho'')

theorem approverRecord_side (hside : Side name records c.pending later) (o : Observation) :
    Side name records (advance approverRecord c o).pending later := by
  unfold advance
  cases hresult : c.approverRecord o with
  | none => exact hside
  | some result =>
      obtain ⟨hkind, hstep⟩ := approverRecord_step hresult
      rcases hstep with heq | hstep
      · show Side name records result.1.pending later
        rw [heq]
        exact hside
      · exact hstep.side_approver hkind hside

theorem ownerRecord_side (hside : Side name records c.pending (o :: later)) :
    Side name records (advance ownerRecord c o).pending later := by
  unfold advance
  cases hresult : c.ownerRecord o with
  | none => exact hside.tail
  | some result =>
      rcases (ownerRecord_step hresult).2 with heq | hstep
      · show Side name records result.1.pending later
        rw [heq]
        exact hside.tail
      · exact hstep.side_owner hside

theorem approverRecord_isolated (hside : Side name records c.pending later)
    (hnot : ¬ Concerns name records o) :
    Agree name c.toCore (advance approverRecord c o).toCore := by
  apply advance_isolated ?_ (hside.misses hnot)
  intro result hresult
  obtain ⟨hkind, hstep⟩ := approverRecord_step hresult
  refine ⟨hstep, fun hfalse => ?_⟩
  rw [hkind] at hfalse
  cases hfalse

theorem ownerRecord_isolated (hside : Side name records c.pending (o :: later))
    (hnot : ¬ Concerns name records o) :
    Agree name c.toCore (advance ownerRecord c o).toCore := by
  apply advance_isolated ?_ (hside.misses hnot)
  intro result hresult
  exact ⟨(ownerRecord_step hresult).2, fun _ => hside.unused o List.mem_cons_self⟩

/-- An approver record about the name, on both sides. -/
theorem approverRecord_agree (h : Agree name c.toCore d.toCore)
    (hconcerns : Concerns name records o) :
    Agree name (advance approverRecord c o).toCore (advance approverRecord d o).toCore := by
  unfold Concerns at hconcerns
  unfold advance approverRecord
  cases hpayload : o.payload with
  | approve approval => exact approve_agree h hpayload
  | suspend op =>
      rw [hpayload] at hconcerns
      exact vote_agree h hconcerns o true
  | restore op =>
      rw [hpayload] at hconcerns
      exact vote_agree h hconcerns o false
  | genesis rules => exact h
  | claim op => exact h
  | update op => exact h
  | renew op => exact h

/-- An owner record about the name, on both sides. -/
theorem ownerRecord_agree (h : Agree name c.toCore d.toCore)
    (hconcerns : Concerns name records o) :
    Agree name (advance ownerRecord c o).toCore (advance ownerRecord d o).toCore := by
  unfold Concerns at hconcerns
  unfold advance ownerRecord
  cases hpayload : o.payload with
  | claim op =>
      simp only [h.terms.rules]
      cases c.rules.mode with
      | «open» => exact h
      | administered => exact request_agree h o op
  | update op =>
      rw [hpayload] at hconcerns
      exact update_agree h hconcerns o
  | renew op =>
      rw [hpayload] at hconcerns
      exact renew_agree h hconcerns o
  | genesis rules => exact h
  | approve approval => exact h
  | suspend op => exact h
  | restore op => exact h

open Classical in
/-- The approver pass is an unwinding: both sides keep what they need for all later
observations. -/
theorem approver_unwinding (laterC laterD : List Observation) :
    Unwinding (advance approverRecord) (fun o => decide (Concerns name records o))
      (fun c _ d _ => Agree name c.toCore d.toCore ∧ Side name records c.pending laterC ∧
        Side name records d.pending laterD) where
  left := by
    intro c o xs d ys hnot hr
    obtain ⟨hagree, hc, hd⟩ := hr
    have hmiss := approverRecord_isolated hc (of_decide_eq_false hnot)
    exact ⟨hmiss.symm.trans hagree, approverRecord_side hc o, hd⟩
  right := by
    intro c xs d o ys hnot hr
    obtain ⟨hagree, hc, hd⟩ := hr
    have hmiss := approverRecord_isolated hd (of_decide_eq_false hnot)
    exact ⟨hagree.trans hmiss, hc, approverRecord_side hd o⟩
  both := by
    intro c o xs d ys hconcerns hr
    obtain ⟨hagree, hc, hd⟩ := hr
    exact ⟨approverRecord_agree hagree (of_decide_eq_true hconcerns), approverRecord_side hc o,
      approverRecord_side hd o⟩

open Classical in
/-- The owner pass is an unwinding: each side uses up the txids it handles. -/
theorem owner_unwinding (laterC laterD : List Observation) :
    Unwinding (advance ownerRecord) (fun o => decide (Concerns name records o))
      (fun c xs d ys => Agree name c.toCore d.toCore ∧
        Side name records c.pending (xs ++ laterC) ∧
        Side name records d.pending (ys ++ laterD)) where
  left := by
    intro c o xs d ys hnot hr
    obtain ⟨hagree, hc, hd⟩ := hr
    have hmiss := ownerRecord_isolated hc (of_decide_eq_false hnot)
    exact ⟨hmiss.symm.trans hagree, ownerRecord_side hc, hd⟩
  right := by
    intro c xs d o ys hnot hr
    obtain ⟨hagree, hc, hd⟩ := hr
    have hmiss := ownerRecord_isolated hd (of_decide_eq_false hnot)
    exact ⟨hagree.trans hmiss, hc, ownerRecord_side hd⟩
  both := by
    intro c o xs d ys hconcerns hr
    obtain ⟨hagree, hc, hd⟩ := hr
    exact ⟨ownerRecord_agree hagree (of_decide_eq_true hconcerns), ownerRecord_side hc,
      ownerRecord_side hd⟩

/-! ### The sweep -/

theorem expire_pending (c : Connecting) (height : Nat) : (c.expire height).pending = c.pending := by
  show ((c.due height).foldl expireEntry c).pending = c.pending
  generalize c.due height = entries
  induction entries generalizing c with
  | nil => rfl
  | cons entry rest ih =>
      rw [List.foldl_cons, ih]
      unfold expireEntry
      simp only
      split
      · exact setName_pending _ _ _
      · rfl

/-- The sweep treats the name alike on both sides. -/
theorem expire_agree (hc : c.IndexExact) (hd : d.IndexExact) (h : Agree name c.toCore d.toCore) :
    Agree name (c.expire c.height).toCore (d.expire d.height).toCore := by
  refine ⟨(expire_steps hc).sameTerms.symm.trans (h.terms.trans (expire_steps hd).sameTerms),
    ?_, ?_⟩
  · rw [expire_get hc, expire_get hd, h.terms.height]
    have hdue : c.Due c.height name ↔ d.Due c.height name := by
      unfold Due
      rw [h.stateOf_eq]
    by_cases hmine : c.Due c.height name
    · rw [if_pos hmine, if_pos (hdue.mp hmine), h.stateOf_eq]
    · rw [if_neg hmine, if_neg (fun hd' => hmine (hdue.mpr hd')), h.state]
  · intro txid record hname
    rw [expire_pending, expire_pending]
    exact h.records txid record hname

/-! ### The claim pass -/

/-- The first minimum of a list of pairs, by a key of the first component. -/
theorem argmin_map_fst {A B K : Type} [LinearOrder K] (key : A → K) (list : List (A × B)) :
    (list.argmin (fun entry => key entry.1)).map Prod.fst = (list.map Prod.fst).argmin key := by
  induction list using List.reverseRecOn with
  | nil => rfl
  | append_singleton list entry ih =>
      rw [List.map_append, List.map_singleton, List.argmin_concat, List.argmin_concat, ← ih]
      cases list.argmin (fun entry => key entry.1) with
      | none => rfl
      | some winner =>
          show (if key entry.1 < key winner.1 then some entry else some winner).map Prod.fst =
            if key entry.1 < key winner.1 then some entry.1 else some winner.1
          split <;> rfl

/-- Assigning a name depends on its own state and on its candidates' observations. -/
theorem assign_get_congr (hterms : SameTerms c.toCore d.toCore)
    (hstate : c.names[name]? = d.names[name]?) {list list' : List (Observation × Nat)}
    (hlist : list.map Prod.fst = list'.map Prod.fst) (outcomes outcomes' : List Outcome) :
    (c.assign name list outcomes).1.names[name]? =
      (d.assign name list' outcomes').1.names[name]? := by
  have hwinner : (list.argmin (fun entry => commitKey entry.1)).map Prod.fst =
      (list'.argmin (fun entry => commitKey entry.1)).map Prod.fst := by
    rw [argmin_map_fst, argmin_map_fst, hlist]
  unfold assign
  cases hw : list.argmin (fun entry => commitKey entry.1) with
  | none =>
      rw [hw, Option.map_none] at hwinner
      rw [Option.map_eq_none_iff.mp hwinner.symm]
      exact hstate
  | some winner =>
      rw [hw, Option.map_some] at hwinner
      obtain ⟨winner', hw', heq⟩ := Option.map_eq_some_iff.mp hwinner.symm
      rw [hw']
      simp only [heq, hterms.expiryAfter]
      cases winner.1.payload with
      | claim op =>
          simp only
          split
          · exact hstate
          · simp [stateOf_congr hstate]
      | genesis rules => exact hstate
      | update op => exact hstate
      | renew op => exact hstate
      | approve approval => exact hstate
      | suspend op => exact hstate
      | restore op => exact hstate

theorem assign_sameTerms (c : Connecting) (other : Name) (list : List (Observation × Nat))
    (outcomes : List Outcome) : SameTerms c.toCore (c.assign other list outcomes).1.toCore ∧
      (c.assign other list outcomes).1.pending = c.pending := by
  unfold assign
  split
  · exact ⟨SameTerms.refl _, rfl⟩
  · simp only
    split
    · split
      · exact ⟨SameTerms.refl _, rfl⟩
      · exact ⟨setName_sameTerms _ _ _, setName_pending _ _ _⟩
    · exact ⟨SameTerms.refl _, rfl⟩

/-- The second loop of the claim pass keeps terms and records. -/
theorem assignEntry_foldl_sameTerms (entries : List (Name × List (Observation × Nat)))
    (c : Connecting) (outcomes : List Outcome) :
    SameTerms c.toCore (entries.foldl assignEntry (c, outcomes)).1.toCore ∧
      (entries.foldl assignEntry (c, outcomes)).1.pending = c.pending := by
  induction entries generalizing c outcomes with
  | nil => exact ⟨SameTerms.refl _, rfl⟩
  | cons entry rest ih =>
      obtain ⟨hterms, hpending⟩ := assign_sameTerms c entry.1 entry.2 outcomes
      obtain ⟨hterms', hpending'⟩ := ih (c.assign entry.1 entry.2 outcomes).1
        (c.assign entry.1 entry.2 outcomes).2
      exact ⟨hterms.trans hterms', hpending'.trans hpending⟩

/-- The second loop leaves a name without candidates alone. -/
theorem assignEntry_foldl_get_of_notMem {entries : List (Name × List (Observation × Nat))}
    (hnot : name ∉ entries.map Prod.fst) (c : Connecting) (outcomes : List Outcome) :
    (entries.foldl assignEntry (c, outcomes)).1.names[name]? = c.names[name]? := by
  induction entries generalizing c outcomes with
  | nil => rfl
  | cons entry rest ih =>
      rw [List.map_cons, List.mem_cons, not_or] at hnot
      have hrest := ih hnot.2 (c.assign entry.1 entry.2 outcomes).1
        (c.assign entry.1 entry.2 outcomes).2
      exact hrest.trans (assign_names_of_ne (fun heq => hnot.1 heq.symm) entry.2 outcomes)

/-- The second loop assigns a name as if it came first. -/
theorem assignEntry_foldl_get_of_mem {entries : List (Name × List (Observation × Nat))}
    (hdistinct : (entries.map Prod.fst).Nodup) {list : List (Observation × Nat)}
    (hmem : (name, list) ∈ entries) (c : Connecting) (outcomes : List Outcome) :
    (entries.foldl assignEntry (c, outcomes)).1.names[name]? =
      (c.assign name list []).1.names[name]? := by
  induction entries generalizing c outcomes with
  | nil => cases hmem
  | cons entry rest ih =>
      rw [List.map_cons, List.nodup_cons] at hdistinct
      rw [List.foldl_cons]
      rcases List.mem_cons.mp hmem with rfl | hrest
      · -- this is the name's entry, and no later one is
        have hlater := assignEntry_foldl_get_of_notMem hdistinct.1
          (c.assign name list outcomes).1 (c.assign name list outcomes).2
        exact hlater.trans (assign_get_congr (SameTerms.refl _) rfl rfl outcomes [])
      · have hne : entry.1 ≠ name := fun heq => hdistinct.1 (heq ▸ List.mem_map_of_mem hrest)
        have hlater := ih hdistinct.2 hrest (c.assign entry.1 entry.2 outcomes).1
          (c.assign entry.1 entry.2 outcomes).2
        refine hlater.trans (assign_get_congr ?_ ?_ rfl [] [])
        · exact (assign_sameTerms c entry.1 entry.2 outcomes).1.symm
        · exact assign_names_of_ne hne entry.2 outcomes

/-- The observations of a name's candidates, in block order. -/
theorem candidates_map_fst (c : Connecting) (name : Name) (observations : List Observation) :
    (observations.zipIdx.filter (c.isCandidate name)).map Prod.fst =
      observations.filter (fun o => c.isCandidate name (o, 0)) := by
  calc (observations.zipIdx.filter (c.isCandidate name)).map Prod.fst
      = (observations.zipIdx.map Prod.fst).filter (fun o => c.isCandidate name (o, 0)) :=
        by rw [List.filter_map]; rfl
    _ = observations.filter (fun o => c.isCandidate name (o, 0)) := by
        rw [List.zipIdx_map_fst]

/-- What the claim pass does to a name: it assigns it once, if it has candidates. -/
theorem claims_get (c : Connecting) (observations : List Observation) (outcomes : List Outcome)
    (name : Name) :
    (c.claims observations outcomes).1.names[name]? =
      (c.assign name (observations.zipIdx.filter (c.isCandidate name)) []).1.names[name]? := by
  have hget := gatheredClaims_get c observations outcomes name
  show ((c.gatheredClaims observations outcomes).toList.foldl assignEntry (c, _)).1.names[name]? = _
  cases hlist : observations.zipIdx.filter (c.isCandidate name) with
  | nil =>
      rw [hlist] at hget
      apply assignEntry_foldl_get_of_notMem
      intro hin
      obtain ⟨⟨name', list⟩, hentry, rfl⟩ := List.mem_map.mp hin
      rw [ExtTreeMap.mem_toList_iff_getElem?_eq_some, hget] at hentry
      cases hentry
  | cons first rest =>
      rw [hlist] at hget
      apply assignEntry_foldl_get_of_mem (toList_keys_nodup _)
      rw [ExtTreeMap.mem_toList_iff_getElem?_eq_some, hget]
      rfl

theorem claims_sameTerms (c : Connecting) (observations : List Observation)
    (outcomes : List Outcome) :
    SameTerms c.toCore (c.claims observations outcomes).1.toCore ∧
      (c.claims observations outcomes).1.pending = c.pending :=
  assignEntry_foldl_sameTerms _ c _

open Classical in
/-- The claim pass treats the name alike on both sides. -/
theorem claims_agree (h : Agree name c.toCore d.toCore) {xs ys : List Observation}
    (hsame : xs.filter (fun o => decide (Concerns name records o)) =
      ys.filter (fun o => decide (Concerns name records o)))
    (outcomes outcomes' : List Outcome) :
    Agree name (c.claims xs outcomes).1.toCore (d.claims ys outcomes').1.toCore := by
  obtain ⟨htermsc, hpendingc⟩ := claims_sameTerms c xs outcomes
  obtain ⟨htermsd, hpendingd⟩ := claims_sameTerms d ys outcomes'
  refine ⟨htermsc.symm.trans (h.terms.trans htermsd), ?_, ?_⟩
  · rw [claims_get, claims_get]
    apply assign_get_congr h.terms h.state
    rw [candidates_map_fst, candidates_map_fst]
    -- both sides tell the same candidates, all of them about the name
    have hcandidate : ∀ o, d.isCandidate name (o, 0) = c.isCandidate name (o, 0) := by
      intro o
      unfold isCandidate
      simp only [h.terms.admitObservation, h.stateOf_eq]
    have habout : ∀ zs : List Observation, zs.filter (fun o => c.isCandidate name (o, 0)) =
        (zs.filter (fun o => decide (Concerns name records o))).filter
          (fun o => c.isCandidate name (o, 0)) := by
      intro zs
      rw [List.filter_filter]
      apply List.filter_congr
      intro o _
      cases hcand : c.isCandidate name (o, 0) with
      | false => rfl
      | true =>
          obtain ⟨op, hpayload, hname, _⟩ := isCandidate_iff.mp hcand
          have hconcerns : Concerns name records o := by
            unfold Concerns
            rw [hpayload]
            exact hname
          simp [hconcerns]
    simp only [hcandidate]
    rw [habout xs, habout ys, hsame]
  · intro txid record hname
    rw [hpendingc, hpendingd]
    exact h.records txid record hname

open Classical in
/-- **One block on both sides.** If the two blocks hold the same observations about the
name, the registries still agree on it afterwards. -/
theorem applyBlock_agree (hc : c.IndexExact) (hd : d.IndexExact)
    (h : Agree name c.toCore d.toCore) {xs ys laterC laterD : List Observation}
    (hsame : xs.filter (fun o => decide (Concerns name records o)) =
      ys.filter (fun o => decide (Concerns name records o)))
    (hsidec : Side name records c.pending (xs ++ laterC))
    (hsided : Side name records d.pending (ys ++ laterD)) :
    Agree name (c.applyBlock xs).1.toCore (d.applyBlock ys).1.toCore ∧
      Side name records (c.applyBlock xs).1.pending laterC ∧
      Side name records (d.applyBlock ys).1.pending laterD := by
  have hexpire := expire_agree hc hd h
  have hswept : Side name records (c.expire c.height).pending (xs ++ laterC) := by
    rw [expire_pending]
    exact hsidec
  have hswept' : Side name records (d.expire d.height).pending (ys ++ laterD) := by
    rw [expire_pending]
    exact hsided
  obtain ⟨happrove, hside₁, hside₁'⟩ :=
    (approver_unwinding (xs ++ laterC) (ys ++ laterD)).run hsame ⟨hexpire, hswept, hswept'⟩
  rw [← eachRecord_eq_foldl _ _ _ ([] : List Outcome),
    ← eachRecord_eq_foldl _ _ _ ([] : List Outcome)] at happrove
  rw [← eachRecord_eq_foldl _ _ _ ([] : List Outcome)] at hside₁ hside₁'
  -- the claim pass, which runs on both sides or on neither
  have howner : ∀ (c₁ d₁ : Connecting) (outs outs' : List Outcome),
      Agree name c₁.toCore d₁.toCore → Side name records c₁.pending (xs ++ laterC) →
      Side name records d₁.pending (ys ++ laterD) →
      Agree name (c₁.ownerRecords xs outs).1.toCore (d₁.ownerRecords ys outs').1.toCore ∧
        Side name records (c₁.ownerRecords xs outs).1.pending laterC ∧
        Side name records (d₁.ownerRecords ys outs').1.pending laterD := by
    intro c₁ d₁ outs outs' hagree hsc hsd
    have hrun := (owner_unwinding laterC laterD).run hsame ⟨hagree, hsc, hsd⟩
    unfold ownerRecords
    rw [eachRecord_eq_foldl, eachRecord_eq_foldl]
    exact hrun
  unfold applyBlock approverRecords
  simp only [happrove.terms.rules]
  split
  · apply howner
    · exact claims_agree happrove hsame _ _
    · rw [(claims_sameTerms _ _ _).2]
      exact hside₁
    · rw [(claims_sameTerms _ _ _).2]
      exact hside₁'
  · exact howner _ _ _ _ happrove hside₁ hside₁'

end Connecting

/-! ## Whole runs -/

open Connecting

theorem Connecting.Side.perm {name : Name} {records : Txid → Prop}
    {pending : ExtTreeMap Txid PendingRecord} {later later' : List Observation}
    (h : Side name records pending later) (hperm : later.Perm later') :
    Side name records pending later' where
  held := h.held
  unused := fun o ho => h.unused o (hperm.mem_iff.mpr ho)
  distinct := (hperm.map Observation.txid).nodup_iff.mp h.distinct
  proposes := fun o ho => h.proposes o (hperm.mem_iff.mpr ho)

/-- Accepted blocks are strictly ordered by position. -/
theorem pairwise_of_strictPositions {observations : List Observation}
    (h : strictPositions observations = true) :
    observations.Pairwise (fun a b => a.position < b.position) := by
  induction observations with
  | nil => exact List.Pairwise.nil
  | cons a rest ih =>
      cases rest with
      | nil => exact List.pairwise_singleton _ a
      | cons b rest =>
          unfold strictPositions at h
          rw [Bool.and_eq_true, decide_eq_true_eq] at h
          have hrest := ih h.2
          refine List.Pairwise.cons ?_ hrest
          intro o ho
          rcases List.mem_cons.mp ho with rfl | ho
          · exact h.1
          · have hb := (List.pairwise_cons.mp hrest).1 o ho
            omega

/-- Two strictly ordered blocks with the same relevant observations list them alike. -/
theorem filter_eq_of_strict {xs ys : List Observation} (hx : strictPositions xs = true)
    (hy : strictPositions ys = true) (relevant : Observation → Bool)
    (hsame : ∀ o, (o ∈ xs ∧ relevant o = true) ↔ (o ∈ ys ∧ relevant o = true)) :
    xs.filter relevant = ys.filter relevant := by
  have hpx := (pairwise_of_strictPositions hx).filter relevant
  have hpy := (pairwise_of_strictPositions hy).filter relevant
  have hnodup : ∀ zs : List Observation, zs.Pairwise (fun a b => a.position < b.position) →
      zs.Nodup := by
    intro zs hz
    refine hz.imp ?_
    intro a b hlt heq
    rw [heq] at hlt
    exact Nat.lt_irrefl _ hlt
  have hperm : (xs.filter relevant).Perm (ys.filter relevant) := by
    rw [List.perm_ext_iff_of_nodup (hnodup _ hpx) (hnodup _ hpy)]
    intro o
    rw [List.mem_filter, List.mem_filter]
    exact hsame o
  apply hperm.eq_of_pairwise ?_ hpx hpy
  intro a b _ _ hab hba
  exact absurd hab (Nat.lt_asymm hba)

namespace Registry

/-- The txids of the records for a name: those pending at the start, and those of the claims
and updates of the name in the run. -/
def RecordOf (r : Registry) (run : List Block) (name : Name) (txid : Txid) : Prop :=
  (∃ record : PendingRecord, r.pending[txid]? = some record ∧ record.name = name) ∨
    ∃ o ∈ observed run, o.txid = txid ∧ ∃ kind op, o.payload = payloadOf kind op ∧ op.name = name

/-- The observations of a run about a name: claims, updates, renewals, suspensions and
restorations that name it, and approvals by the txid of a record for it. -/
def About (r : Registry) (run : List Block) (name : Name) (o : Observation) : Prop :=
  Concerns name (r.RecordOf run name) o

/-- Block by block, the two runs hold the same observations about the name. -/
def SameAbout (r : Registry) (name : Name) (run run' : List Block) : Prop :=
  List.Forall₂ (fun block block' => ∀ o,
    (o ∈ block.observations ∧ r.About run name o) ↔
      (o ∈ block'.observations ∧ r.About run' name o)) run run'

theorem mem_observed_of_forall₂ {R : Observation → Prop} {S : Observation → Prop}
    {run run' : List Block}
    (h : List.Forall₂ (fun block block' => ∀ o,
      (o ∈ block.observations ∧ R o) ↔ (o ∈ block'.observations ∧ S o)) run run')
    {o : Observation} (ho : o ∈ observed run) (hr : R o) : o ∈ observed run' := by
  induction h with
  | nil => cases ho
  | cons hblock _ ih =>
      rcases List.mem_append.mp ho with ho | ho
      · exact List.mem_append_left _ ((hblock o).mp ⟨ho, hr⟩).1
      · exact List.mem_append_right _ (ih ho)

/-- Two runs that hold the same observations about a name have the same records for it. -/
theorem SameAbout.recordOf {r : Registry} {name : Name} {run run' : List Block}
    (h : r.SameAbout name run run') (txid : Txid) :
    r.RecordOf run name txid ↔ r.RecordOf run' name txid := by
  -- a claim or an update of the name is about the name
  have habout : ∀ (run : List Block) {o : Observation} {kind : PendingKind} {op : OwnerOp},
      o.payload = payloadOf kind op → op.name = name → r.About run name o := by
    intro run o kind op hpayload hname
    unfold About Concerns
    rw [hpayload]
    cases kind <;> exact hname
  have hflip : List.Forall₂ (fun block block' => ∀ o,
      (o ∈ block.observations ∧ r.About run' name o) ↔
        (o ∈ block'.observations ∧ r.About run name o)) run' run := by
    refine List.Forall₂.flip (h.imp ?_)
    intro block block' hblock o
    exact (hblock o).symm
  unfold RecordOf
  refine or_congr Iff.rfl ⟨?_, ?_⟩
  · intro hproposed
    obtain ⟨o, ho, htxid, kind, op, hpayload, hname⟩ := hproposed
    exact ⟨o, mem_observed_of_forall₂ h ho (habout run hpayload hname), htxid, kind, op,
      hpayload, hname⟩
  · intro hproposed
    obtain ⟨o, ho, htxid, kind, op, hpayload, hname⟩ := hproposed
    exact ⟨o, mem_observed_of_forall₂ hflip ho (habout run' hpayload hname), htxid, kind, op,
      hpayload, hname⟩

/-- Runs from registries that agree on a name, with the same observations about it. -/
theorem connectAll_agree {name : Name} {records : Txid → Prop} {run run' : List Block}
    (hsame : List.Forall₂ (fun block block' => ∀ o,
      (o ∈ block.observations ∧ Concerns name records o) ↔
        (o ∈ block'.observations ∧ Concerns name records o)) run run')
    {r d r' d' : Registry} {deltas deltas' : List BlockDelta} (hr : r.Reachable)
    (hd : d.Reachable) (hagree : Agree name r.toCore d.toCore)
    (hsider : Side name records r.pending (observed run))
    (hsided : Side name records d.pending (observed run'))
    (hrun : r.connectAll run = some (deltas, r'))
    (hrun' : d.connectAll run' = some (deltas', d')) : Agree name r'.toCore d'.toCore := by
  induction hsame generalizing r d deltas deltas' with
  | nil =>
      cases hrun
      cases hrun'
      exact hagree
  | @cons block block' rest rest' hblock _ ih =>
      obtain ⟨_, r₁, _, hconnect, hrest, _⟩ := connectAll_cons.mp hrun
      obtain ⟨_, d₁, _, hconnect', hrest', _⟩ := connectAll_cons.mp hrun'
      have hr₁ := hr.connect hconnect
      have hd₁ := hd.connect hconnect'
      obtain ⟨sorted, hadmits, _, rfl⟩ := connectDelta_eq_ok.mp hconnect
      obtain ⟨sorted', hadmits', _, rfl⟩ := connectDelta_eq_ok.mp hconnect'
      have hperm : block.observations.Perm sorted := by
        rw [hadmits.sorted_eq]
        exact (List.perm_insertionSort _ _).symm
      have hperm' : block'.observations.Perm sorted' := by
        rw [hadmits'.sorted_eq]
        exact (List.perm_insertionSort _ _).symm
      classical
      have hfilter : sorted.filter (fun o => decide (Concerns name records o)) =
          sorted'.filter (fun o => decide (Concerns name records o)) := by
        apply filter_eq_of_strict hadmits.strict hadmits'.strict
        intro o
        rw [decide_eq_true_eq, ← hperm.mem_iff, ← hperm'.mem_iff]
        exact hblock o
      have hheights : block.height = block'.height := by
        rw [hadmits.next, hadmits'.next, hagree.terms.height]
      have hopen : Agree name (r.toCore.open block.height).toCore
          (d.toCore.open block'.height).toCore :=
        ⟨⟨hagree.terms.genesis, hagree.terms.genesisHeight, hagree.terms.rules, hheights.symm⟩,
          hagree.state, hagree.records⟩
      have hindex : (r.toCore.open block.height).IndexExact := hr.indexExact
      have hindex' : (d.toCore.open block'.height).IndexExact := hd.indexExact
      have hopenSide : Side name records (r.toCore.open block.height).pending
          (sorted ++ observed rest) := hsider.perm (hperm.append_right _)
      have hopenSide' : Side name records (d.toCore.open block'.height).pending
          (sorted' ++ observed rest') := hsided.perm (hperm'.append_right _)
      obtain ⟨hagree₁, hside₁, hside₁'⟩ :=
        applyBlock_agree hindex hindex' hopen hfilter hopenSide hopenSide'
      exact ih hr₁ hd₁ hagree₁ hside₁ hside₁' hrest hrest'

/-- **Names are isolated.** Take two runs of accepted blocks from one reachable registry,
neither of which repeats a txid, also not one of the chain so far. If block by block they
hold the same observations about a name, then the name ends in the same state, resolves the
same way and has the same pending records in both, whatever else the blocks hold. -/
theorem name_isolation {genesis : Txid} {genesisHeight : Nat} {rules : Genesis}
    {history run run' : List Block} {r r₁ r₂ : Registry} {deltas₁ deltas₂ : List BlockDelta}
    {name : Name} (hreach : Reaches genesis genesisHeight rules history r)
    (hrun₁ : r.connectAll run = some (deltas₁, r₁))
    (hrun₂ : r.connectAll run' = some (deltas₂, r₂))
    (hdistinct₁ : DistinctTxids (observed run ++ observed history))
    (hdistinct₂ : DistinctTxids (observed run' ++ observed history))
    (hsame : r.SameAbout name run run') :
    r₁.names[name]? = r₂.names[name]? ∧ stateOf r₁.names name = stateOf r₂.names name ∧
      r₁.resolve name = r₂.resolve name ∧
      ∀ (txid : Txid) (record : PendingRecord), record.name = name →
        (r₁.pending[txid]? = some record ↔ r₂.pending[txid]? = some record) := by
  obtain ⟨_, hchain, _⟩ := hreach.chain
  have hrecords := hsame.recordOf
  -- one notion of being about the name serves both runs
  have hconcerns : ∀ o, r.About run' name o ↔ Concerns name (r.RecordOf run name) o := by
    intro o
    unfold About Concerns
    cases o.payload with
    | approve approval => exact (hrecords _).symm
    | genesis rules => exact Iff.rfl
    | claim op => exact Iff.rfl
    | update op => exact Iff.rfl
    | renew op => exact Iff.rfl
    | suspend op => exact Iff.rfl
    | restore op => exact Iff.rfl
  have hblocks : List.Forall₂ (fun block block' => ∀ o,
      (o ∈ block.observations ∧ Concerns name (r.RecordOf run name) o) ↔
        (o ∈ block'.observations ∧ Concerns name (r.RecordOf run name) o)) run run' := by
    refine hsame.imp ?_
    intro block block' hblock o
    exact (hblock o).trans (and_congr_right fun _ => hconcerns o)
  have hside : ∀ blocks : List Block, DistinctTxids (observed blocks ++ observed history) →
      (∀ txid, r.RecordOf blocks name txid → r.RecordOf run name txid) →
      Side name (r.RecordOf run name) r.pending (observed blocks) := by
    intro blocks hdistinct hsub
    obtain ⟨hblocks, _, hapart⟩ := hdistinct.append
    refine ⟨?_, hchain.keys.unused hapart, hblocks, ?_⟩
    · intro txid record hget hname
      exact Or.inl ⟨record, hget, hname⟩
    · intro o ho kind op hpayload hname
      exact hsub _ (Or.inr ⟨o, ho, rfl, kind, op, hpayload, hname⟩)
  have hagree := connectAll_agree hblocks hreach.reachable hreach.reachable (Agree.refl name _)
    (hside run hdistinct₁ (fun _ h => h)) (hside run' hdistinct₂ (fun txid h => (hrecords txid).mpr h))
    hrun₁ hrun₂
  refine ⟨hagree.state, hagree.stateOf_eq, ?_, hagree.records⟩
  unfold Core.resolve
  rw [hagree.stateOf_eq]

end Registry

namespace Sample

/-- The name `b`. -/
def otherName : Name := ⟨[98], rfl⟩

/-- A claim of `b` in the block that claims `a`. -/
def otherClaim : Observation :=
  { claim with
    txid := txid 4
    author := key 2
    payload := .claim ⟨txid 1, Vector.replicate 16 0, otherName, txid 9⟩
    position := 2 }

/-- The block that claims `a`, without and with the claim of `b`. -/
theorem sameAbout_claim :
    openRegistry.SameAbout name [⟨102, [claim]⟩] [⟨102, [claim, otherClaim]⟩] := by
  refine List.Forall₂.cons ?_ List.Forall₂.nil
  intro o
  constructor
  · intro h
    obtain ⟨hmem, hname⟩ := h
    rw [List.mem_singleton.mp hmem]
    exact ⟨List.mem_cons_self, rfl⟩
  · intro h
    obtain ⟨hmem, hname⟩ := h
    rcases List.mem_cons.mp hmem with rfl | hmem
    · exact ⟨List.mem_singleton_self _, rfl⟩
    · rw [List.mem_singleton.mp hmem] at hname
      have hne : otherName ≠ name := by decide
      exact absurd hname hne

end Sample

/-- The claim of `a` with and without a claim of `b` beside it. -/
theorem Registry.name_isolation_claim :
    ∃ deltas₁ r₁ deltas₂ r₂,
      Sample.openRegistry.connectAll [⟨102, [Sample.claim]⟩] = some (deltas₁, r₁) ∧
      Sample.openRegistry.connectAll [⟨102, [Sample.claim, Sample.otherClaim]⟩] =
        some (deltas₂, r₂) ∧
      r₁.resolve Sample.name = r₂.resolve Sample.name := by
  have hadmits₁ : Sample.openRegistry.Admits 102 [Sample.claim] [Sample.claim] :=
    Core.admitBlock_eq_ok.mp (by decide +kernel)
  have hadmits₂ : Sample.openRegistry.Admits 102 [Sample.claim, Sample.otherClaim]
      [Sample.claim, Sample.otherClaim] := Core.admitBlock_eq_ok.mp (by decide +kernel)
  have hrun₁ := (@connectAll_cons _ _ ⟨102, _⟩ [] _).mpr
    ⟨_, _, _, connectDelta_eq_ok.mpr ⟨_, hadmits₁, rfl, rfl⟩, rfl, rfl⟩
  have hrun₂ := (@connectAll_cons _ _ ⟨102, _⟩ [] _).mpr
    ⟨_, _, _, connectDelta_eq_ok.mpr ⟨_, hadmits₂, rfl, rfl⟩, rfl, rfl⟩
  have hisolated := name_isolation Sample.openRegistry_reaches hrun₁ hrun₂ (by decide)
    (by decide) Sample.sameAbout_claim
  exact ⟨_, _, _, _, hrun₁, hrun₂, hisolated.2.2.1⟩

end Urma.Names
