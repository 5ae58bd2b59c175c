import Urma.Lib.Quorum
import Urma.Names.Run

/-!
# Quorum bookkeeping

Two kinds of quorum are counted per block: the approvals of a pending record, and the
votes that suspend or restore a name. Each has an invariant on the sets it keeps
(`PendingRecord.Tallied`, `NameState.Tallied`), kept by every step of a block.

The votes also refine the two-phase switch of `Urma.Lib.Quorum`: the suspension flag and
the votes of a name are what that switch makes of the admitted votes of the active chain
(`Core.Chain.tally`), so the switch's `flip_quorum` is a theorem about suspensions.
-/

namespace Urma.Names

open Std
open Urma.Lib.Quorum (Tally SinceFlip)
open Urma.Lib

/-! ## The invariants -/

/-- What the vote sets of a name satisfy between any two steps. -/
structure NameState.Tallied (rules : Genesis) (state : NameState) : Prop where
  restoreIdle : state.suspended = false → state.restoreVotes = ∅
  suspendIdle : state.suspended = true → state.suspendVotes = ∅
  approvers : ∀ k ∈ state.suspendVotes ∪ state.restoreVotes, k ∈ rules.approvers
  below : rules.mode = .administered →
    state.suspendVotes.card < rules.threshold.toNat ∧
      state.restoreVotes.card < rules.threshold.toNat
  openIdle : rules.mode = .«open» →
    state.suspended = false ∧ state.suspendVotes = ∅ ∧ state.restoreVotes = ∅

/-- What the approvals of a pending record satisfy between any two steps. -/
structure PendingRecord.Tallied (rules : Genesis) (record : PendingRecord) : Prop where
  administered : rules.mode = .administered
  approvers : ∀ k ∈ record.approvals, k ∈ rules.approvers
  atMost : record.approvals.card ≤ rules.threshold.toNat
  complete : record.completed = true ↔ record.approvals.card = rules.threshold.toNat

/-- The bookkeeping of a whole registry. -/
structure Quorate (c : Core) : Prop where
  names : ∀ name : Name, (stateOf c.names name).Tallied c.rules
  pending : ∀ (txid : Txid) (record : PendingRecord),
    c.pending[txid]? = some record → record.Tallied c.rules

theorem NameState.Tallied.unbound {rules : Genesis} (hvalid : rules.Valid) :
    NameState.unbound.Tallied rules := by
  refine ⟨fun _ => rfl, ?_, ?_, ?_, fun _ => ⟨rfl, rfl, rfl⟩⟩
  · intro hsuspended
    cases hsuspended
  · intro k hk
    simp [NameState.unbound] at hk
  · intro hmode
    have hpositive := (hvalid.administered hmode).1
    simp only [NameState.unbound, Finset.card_empty]
    omega

/-- The bookkeeping does not look at the binding. -/
theorem NameState.Tallied.rebind {rules : Genesis} {state : NameState}
    (h : state.Tallied rules) (binding : Binding) :
    { state with binding }.Tallied rules :=
  ⟨h.restoreIdle, h.suspendIdle, h.approvers, h.below, h.openIdle⟩

/-- An admitted approver belongs to an administered registry. -/
theorem Core.of_admitApprover {c : Core} {o : Observation} {registry : Txid}
    (h : c.admitApprover o registry = .admitted) :
    c.rules.mode = .administered ∧ o.author ∈ c.rules.approvers := by
  unfold Core.admitApprover at h
  split at h
  · cases h
  · split at h
    · cases h
    · next hmode =>
      split at h
      · cases h
      · next happrover =>
        have hkey : c.rules.isApprover o.author = true := by simpa using happrover
        refine ⟨?_, List.contains_iff_mem.mp hkey⟩
        cases hm : c.rules.mode with
        | «open» => exact absurd hm hmode
        | administered => rfl

namespace Connecting

variable {c c' : Connecting} {o : Observation} {observations : List Observation}

/-- A counted vote keeps the bookkeeping. -/
theorem countVote_tallied {rules : Genesis} {state : NameState} {k : XOnlyPublicKey}
    {suspend : Bool} (hvalid : rules.Valid) (h : state.Tallied rules)
    (hmode : rules.mode = .administered) (hkey : k ∈ rules.approvers)
    (hphase : state.suspended ≠ suspend) :
    (countVote rules.threshold.toNat state k suspend).Tallied rules := by
  have hpositive := (hvalid.administered hmode).1
  have hnotOpen : rules.mode ≠ .«open» := by rw [hmode]; intro hopen; cases hopen
  unfold countVote
  simp only
  split
  · -- the quorum: both sets are cleared
    refine ⟨fun _ => rfl, fun _ => rfl, ?_, ?_, fun hopen => absurd hopen hnotOpen⟩
    · intro k' hk'
      simp at hk'
    · intro _
      simp only [Finset.card_empty]
      omega
  · next hbelow =>
    -- below the quorum: the votes of the phase asked for grow by one approver
    have hless := Nat.lt_of_not_le hbelow
    split
    · next hsuspend =>
      subst hsuspend
      simp only [votesOf, if_true] at hless
      have hsuspended : state.suspended = false := by simpa using hphase
      refine ⟨fun _ => h.restoreIdle hsuspended, ?_, ?_, fun _ => ⟨hless, (h.below hmode).2⟩,
        fun hopen => absurd hopen hnotOpen⟩
      · intro hflag
        rw [hsuspended] at hflag
        cases hflag
      · intro k' hk'
        have hold := h.approvers k'
        simp only [votesOf, if_true, Finset.mem_union, Finset.mem_insert] at hk' hold
        rcases hk' with (rfl | hk') | hk'
        · exact hkey
        · exact hold (Or.inl hk')
        · exact hold (Or.inr hk')
    · next hrestore =>
      have hfalse : suspend = false := by simpa using hrestore
      subst hfalse
      simp only [votesOf, Bool.false_eq_true, if_false] at hless
      have hsuspended : state.suspended = true := by simpa using hphase
      refine ⟨?_, fun _ => h.suspendIdle hsuspended, ?_, fun _ => ⟨(h.below hmode).1, hless⟩,
        fun hopen => absurd hopen hnotOpen⟩
      · intro hflag
        rw [hsuspended] at hflag
        cases hflag
      · intro k' hk'
        have hold := h.approvers k'
        simp only [votesOf, Bool.false_eq_true, if_false, Finset.mem_union,
          Finset.mem_insert] at hk' hold
        rcases hk' with hk' | rfl | hk'
        · exact hold (Or.inl hk')
        · exact hkey
        · exact hold (Or.inr hk')

/-- One more approval that stays below the quorum. -/
theorem endorsed_tallied {approval : Approval} {record : PendingRecord}
    (hcounts : Counts c o approval record) (h : record.Tallied c.rules)
    (hbelow : (endorsed record o.author).approvals.card < c.rules.threshold.toNat) :
    (endorsed record o.author).Tallied c.rules := by
  have hkey := (Core.of_admitApprover hcounts.admitted).2
  refine ⟨h.administered, ?_, Nat.le_of_lt hbelow, ?_⟩
  · intro k hk
    rcases Finset.mem_insert.mp hk with rfl | hk
    · exact hkey
    · exact h.approvers k hk
  · constructor
    · intro hcompleted
      have hincomplete : (endorsed record o.author).completed = false := hcounts.incomplete
      rw [hincomplete] at hcompleted
      cases hcompleted
    · intro hequal
      omega

/-- The approval that reaches the quorum: an incomplete record is below the threshold, so
one more distinct approver makes it exact. -/
theorem closed_tallied {approval : Approval} {record : PendingRecord}
    (hcounts : Counts c o approval record) (h : record.Tallied c.rules)
    (hquorum : ¬ (endorsed record o.author).approvals.card < c.rules.threshold.toNat) :
    (closed record o.author).Tallied c.rules := by
  have hkey := (Core.of_admitApprover hcounts.admitted).2
  have hcard : (insert o.author record.approvals).card = record.approvals.card + 1 :=
    Finset.card_insert_of_notMem hcounts.fresh
  have hbelow : record.approvals.card ≠ c.rules.threshold.toNat := by
    intro hequal
    have hcompleted := h.complete.mpr hequal
    rw [hcounts.incomplete] at hcompleted
    cases hcompleted
  have hexact : (closed record o.author).approvals.card = c.rules.threshold.toNat := by
    have hreached : ¬ (insert o.author record.approvals).card < c.rules.threshold.toNat :=
      hquorum
    have hatMost := h.atMost
    show (insert o.author record.approvals).card = _
    omega
  refine ⟨h.administered, ?_, Nat.le_of_eq hexact, fun _ => hexact, fun _ => rfl⟩
  intro k hk
  rcases Finset.mem_insert.mp hk with rfl | hk
  · exact hkey
  · exact h.approvers k hk

theorem quorate_setName {name : Name} {state : NameState} (h : Quorate c.toCore)
    (hstate : state.Tallied c.rules) : Quorate (c.setName name state).toCore := by
  refine ⟨?_, ?_⟩
  · intro other
    rw [setName_names, setName_rules, stateOf_insert]
    split
    · exact hstate
    · exact h.names other
  · intro txid record hget
    rw [setName_pending] at hget
    rw [setName_rules]
    exact h.pending txid record hget

theorem quorate_setPending {txid : Txid} {record : PendingRecord} (h : Quorate c.toCore)
    (hrecord : record.Tallied c.rules) : Quorate (c.setPending txid record).toCore := by
  refine ⟨?_, ?_⟩
  · intro name
    rw [setPending_names, setPending_rules]
    exact h.names name
  · intro txid' record' hget
    rw [setPending_pending, ExtTreeMap.getElem?_insert] at hget
    rw [setPending_rules]
    split at hget
    · cases hget
      exact hrecord
    · exact h.pending txid' record' hget

theorem quorate_insertPending {kind : PendingKind} {op : OwnerOp} (hvalid : c.rules.Valid)
    (hmode : c.rules.mode = .administered) (h : Quorate c.toCore) :
    Quorate (c.insertPending o kind op).toCore := by
  have hpositive := (hvalid.administered hmode).1
  refine quorate_setPending h ⟨hmode, ?_, Nat.zero_le _, ?_⟩
  · intro k hk
    simp at hk
  · constructor
    · intro hcompleted
      cases hcompleted
    · intro hcard
      simp only [Finset.card_empty] at hcard
      omega

/-- **Every step keeps the bookkeeping.** -/
theorem Step.quorate {trigger : Option Observation} (h : Step c trigger c')
    (hvalid : c.rules.Valid) (hc : Quorate c.toCore) : Quorate c'.toCore := by
  cases h with
  | expire => exact quorate_setName hc ((hc.names _).rebind _)
  | endorse hcounts hbelow =>
      have hrecord := hc.pending _ _ hcounts.found
      exact quorate_setPending hc (endorsed_tallied hcounts hrecord hbelow)
  | close hcounts hquorum =>
      have hrecord := hc.pending _ _ hcounts.found
      exact quorate_setPending hc (closed_tallied hcounts hrecord hquorum)
  | grant hcounts hquorum =>
      have hrecord := hc.pending _ _ hcounts.found
      apply quorate_setPending
      · exact quorate_setName hc ((hc.names _).rebind _)
      · rw [setName_rules]
        exact closed_tallied hcounts hrecord hquorum
  | retarget hcounts hquorum =>
      have hrecord := hc.pending _ _ hcounts.found
      apply quorate_setPending
      · exact quorate_setName hc ((hc.names _).rebind _)
      · rw [setName_rules]
        exact closed_tallied hcounts hrecord hquorum
  | vote _ hadmitted hphase _ =>
      obtain ⟨hmode, hkey⟩ := Core.of_admitApprover hadmitted
      exact quorate_setName hc (countVote_tallied hvalid (hc.names _) hmode hkey hphase)
  | claim => exact quorate_setName hc ((hc.names _).rebind _)
  | request hmode => exact quorate_insertPending hvalid hmode hc
  | propose hmode => exact quorate_insertPending hvalid hmode hc
  | update => exact quorate_setName hc ((hc.names _).rebind _)
  | renew => exact quorate_setName hc ((hc.names _).rebind _)

theorem Steps.quorate (h : Steps observations c c') (hvalid : c.rules.Valid)
    (hc : Quorate c.toCore) : Quorate c'.toCore := by
  refine (h.invariant (fun c' => c'.rules.Valid ∧ Quorate c'.toCore) ?_ ⟨hvalid, hc⟩).2
  intro a b trigger hmem hstep hinv
  have hrules := (Steps.single hmem hstep).sameTerms.rules
  exact ⟨hrules ▸ hinv.1, hstep.quorate hinv.1 hinv.2⟩

end Connecting

/-- The bookkeeping holds after every block. -/
theorem Core.Chain.quorate {genesis : Txid} {genesisHeight : Nat} {rules : Genesis}
    {blocks : List Block} {frames : List Delta} {core : Core}
    (h : Chain genesis genesisHeight rules blocks frames core) : Quorate core := by
  induction h with
  | new hvalidate =>
      refine ⟨?_, ?_⟩
      · intro name
        have hstate : stateOf (Core.initial genesis genesisHeight rules).names name =
            .unbound := by
          simp [Core.initial, stateOf]
        rw [hstate]
        exact NameState.Tallied.unbound (Genesis.valid_of_validate hvalidate)
      · intro txid record hget
        simp [Core.initial] at hget
  | @connect _ _ core height _ sorted hchain _ ih =>
      obtain ⟨_, _, hrules, hvalid⟩ := hchain.terms
      have hopen : (core.open height).rules.Valid := by
        show core.rules.Valid
        rw [hrules]
        exact hvalid
      exact (hchain.steps height sorted).quorate hopen ⟨ih.names, ih.pending⟩

/-! ## The votes as a two-phase switch -/

/-- The switch a name's suspension is: its phase is the flag, and the votes counted are
those against the current phase. -/
def NameState.tally (state : NameState) : Tally XOnlyPublicKey :=
  ⟨state.suspended, Connecting.votesOf state (!state.suspended)⟩

/-- The ballot an observation casts on a name: an admitted suspension or restoration. -/
def Core.ballotOf (c : Core) (name : Name) (o : Observation) : Option (XOnlyPublicKey × Bool) :=
  match o.payload with
  | .suspend op =>
    if op.name = name ∧ c.admitApprover o op.registry = .admitted then some (o.author, true)
    else none
  | .restore op =>
    if op.name = name ∧ c.admitApprover o op.registry = .admitted then some (o.author, false)
    else none
  | .genesis _ | .claim _ | .update _ | .renew _ | .approve _ => none

theorem Core.ballotOf_vote {c : Core} {name : Name} {o : Observation} {op : NameOp}
    {suspend : Bool} (hpayload : o.payload = Connecting.votePayload op suspend) :
    c.ballotOf name o =
      if op.name = name ∧ c.admitApprover o op.registry = .admitted
      then some (o.author, suspend) else none := by
  unfold Core.ballotOf
  rw [hpayload]
  cases suspend <;> rfl

/-- A ballot comes from an approver. -/
theorem Core.approver_of_ballotOf {c : Core} {name : Name} {o : Observation}
    {ballot : XOnlyPublicKey × Bool} (h : c.ballotOf name o = some ballot) :
    ballot.1 ∈ c.rules.approvers := by
  unfold Core.ballotOf at h
  split at h
  · split at h
    · next hadmitted =>
      cases h
      exact (Core.of_admitApprover hadmitted.2).2
    · cases h
  · split at h
    · next hadmitted =>
      cases h
      exact (Core.of_admitApprover hadmitted.2).2
    · cases h
  all_goals cases h

theorem SameTerms.ballotOf {c c' : Core} (h : SameTerms c c') (name : Name)
    (o : Observation) : c'.ballotOf name o = c.ballotOf name o := by
  simp only [Core.ballotOf, h.admitApprover]

namespace Connecting

variable {c c' : Connecting} {o : Observation} {observations : List Observation}

/-- Writing a binding leaves every switch alone. -/
theorem tally_rebind (c : Connecting) (name other : Name) (binding : Binding) :
    (stateOf (c.setName name { stateOf c.names name with binding }).names other).tally =
      (stateOf c.names other).tally := by
  by_cases hname : name = other
  · subst hname
    rw [stateOf_setName_self]
    rfl
  · rw [stateOf_setName_of_ne c hname]

/-- A step that is no vote leaves every switch alone. -/
theorem Step.tally {trigger : Option Observation} (h : Step c trigger c')
    (hno : ∀ o op suspend, trigger = some o → o.payload ≠ votePayload op suspend)
    (name : Name) : (stateOf c'.names name).tally = (stateOf c.names name).tally := by
  cases h with
  | expire => exact tally_rebind c _ name _
  | endorse => rw [setPending_names]
  | close => rw [setPending_names]
  | grant =>
      rw [setPending_names]
      exact tally_rebind c _ name _
  | retarget =>
      rw [setPending_names]
      exact tally_rebind c _ name _
  | vote hpayload => exact absurd hpayload (hno _ _ _ rfl)
  | claim => exact tally_rebind c _ name _
  | request => exact congrArg (fun names => (stateOf names name).tally) (setPending_names _ _ _)
  | propose => exact congrArg (fun names => (stateOf names name).tally) (setPending_names _ _ _)
  | update => exact tally_rebind c _ name _
  | renew => exact tally_rebind c _ name _

theorem Steps.tally (h : Steps observations c c')
    (hno : ∀ o ∈ observations, ∀ op suspend, o.payload ≠ votePayload op suspend)
    (name : Name) : (stateOf c'.names name).tally = (stateOf c.names name).tally := by
  refine h.invariant (fun c' => (stateOf c'.names name).tally = (stateOf c.names name).tally)
    ?_ rfl
  intro a b trigger hmem hstep hinv
  rw [← hinv]
  apply hstep.tally
  intro o op suspend htrigger
  exact hno o (hmem o htrigger) op suspend

/-- Counting a vote is casting its ballot. -/
theorem countVote_tally {threshold : Nat} {state : NameState} {k : XOnlyPublicKey}
    {suspend : Bool} (hphase : state.suspended ≠ suspend)
    (hfresh : k ∉ votesOf state suspend) :
    (countVote threshold state k suspend).tally = state.tally.cast threshold (k, suspend) := by
  have hother : (!state.suspended) = suspend := by
    cases hs : state.suspended <;> cases suspend <;> simp_all
  have hcast : suspend ≠ state.tally.phase := fun heq => hphase heq.symm
  have hnew : k ∉ state.tally.votes := by
    show k ∉ votesOf state (!state.suspended)
    rw [hother]
    exact hfresh
  unfold Tally.cast
  rw [if_neg hcast, if_neg hnew]
  simp only [NameState.tally, countVote, hother]
  split
  · cases suspend <;> rfl
  · cases suspend <;> simp_all [votesOf]

/-- **One vote refines one ballot**: `vote` does to each switch what casting the
observation's ballot does, also when it refuses or ignores the vote. -/
theorem vote_tally {op : NameOp} {suspend : Bool}
    (hpayload : o.payload = votePayload op suspend) (name : Name) :
    (stateOf (c.vote o op suspend).1.names name).tally =
      ((c.ballotOf name o).toList).foldl (Tally.cast c.rules.threshold.toNat)
        (stateOf c.names name).tally := by
  rw [Core.ballotOf_vote hpayload]
  unfold vote
  cases hadmitted : c.admitApprover o op.registry with
  | rejected rejection => simp
  | admitted =>
      simp only [and_true]
      by_cases hname : op.name = name
      · subst hname
        rw [if_pos rfl]
        show _ = (stateOf c.names op.name).tally.cast c.rules.threshold.toNat (o.author, suspend)
        split
        · next hphase =>
          -- wrong phase: the ballot asks for the current phase
          exact (if_pos hphase.symm).symm
        · next hphase =>
          split
          · next hrepeated =>
            -- repeated: the voter is already counted
            have hother : (!(stateOf c.names op.name).suspended) = suspend := by
              cases hs : (stateOf c.names op.name).suspended <;> cases suspend <;> simp_all
            have hvoted : o.author ∈ (stateOf c.names op.name).tally.votes := by
              show o.author ∈ votesOf _ (!(stateOf c.names op.name).suspended)
              rw [hother]
              exact hrepeated
            unfold Tally.cast
            rw [if_neg (fun heq => hphase heq.symm), if_pos hvoted]
          · next hfresh =>
            rw [stateOf_setName_self]
            exact countVote_tally hphase hfresh
      · rw [if_neg hname]
        show _ = (stateOf c.names name).tally
        split
        · rfl
        · split
          · rfl
          · rw [stateOf_setName_of_ne c hname]

/-- An approver record casts its ballot, if it has one. -/
theorem approverRecord_tally {result : Connecting × Verdict}
    (h : c.approverRecord o = some result) (name : Name) :
    (stateOf result.1.names name).tally =
      ((c.ballotOf name o).toList).foldl (Tally.cast c.rules.threshold.toNat)
        (stateOf c.names name).tally := by
  have hstep := (approverRecord_step h).2
  unfold approverRecord at h
  cases hpayload : o.payload with
  | approve approval =>
      have hballot : c.ballotOf name o = none := by
        unfold Core.ballotOf
        rw [hpayload]
      rw [hballot]
      show _ = (stateOf c.names name).tally
      rcases hstep with heq | hstep
      · rw [heq]
      · apply hstep.tally
        intro o' op suspend htrigger
        cases htrigger
        rw [hpayload]
        cases suspend <;> simp [votePayload]
  | suspend op =>
      rw [hpayload] at h
      cases h
      exact vote_tally (by rw [hpayload]; rfl) name
  | restore op =>
      rw [hpayload] at h
      cases h
      exact vote_tally (by rw [hpayload]; rfl) name
  | genesis rules => rw [hpayload] at h; cases h
  | claim op => rw [hpayload] at h; cases h
  | update op => rw [hpayload] at h; cases h
  | renew op => rw [hpayload] at h; cases h

/-- An observation the approver pass skips casts no ballot. -/
theorem ballotOf_of_skip (h : c.approverRecord o = none) (name : Name) :
    c.ballotOf name o = none := by
  unfold approverRecord at h
  unfold Core.ballotOf
  cases hpayload : o.payload with
  | approve approval => rfl
  | suspend op => rw [hpayload] at h; cases h
  | restore op => rw [hpayload] at h; cases h
  | genesis rules => rfl
  | claim op => rfl
  | update op => rfl
  | renew op => rfl

end Connecting

/-- The ballots that observations cast on a name, in order. -/
def Core.ballots (c : Core) (name : Name) (observations : List Observation) :
    List (XOnlyPublicKey × Bool) :=
  observations.filterMap (c.ballotOf name)

theorem Core.ballots_append (c : Core) (name : Name) (os os' : List Observation) :
    c.ballots name (os ++ os') = c.ballots name os ++ c.ballots name os' :=
  List.filterMap_append

theorem Core.approver_of_ballots {c : Core} {name : Name} {os : List Observation}
    {ballot : XOnlyPublicKey × Bool} (h : ballot ∈ c.ballots name os) :
    ballot.1 ∈ c.rules.approvers := by
  obtain ⟨o, _, ho⟩ := List.mem_filterMap.mp h
  exact approver_of_ballotOf ho

theorem SameTerms.ballots {c c' : Core} (h : SameTerms c c') (name : Name)
    (os : List Observation) : c'.ballots name os = c.ballots name os := by
  unfold Core.ballots
  congr 1
  funext o
  exact h.ballotOf name o

/-- **The approver pass refines the switch.** -/
theorem Connecting.approverRecords_tally (c : Connecting) (observations : List Observation)
    (outcomes : List Outcome) (name : Name) :
    (stateOf (c.approverRecords observations outcomes).1.names name).tally =
      (c.ballots name observations).foldl (Tally.cast c.rules.threshold.toNat)
        (stateOf c.names name).tally := by
  -- the loop has cast the ballots of the observations it has seen
  let inv (seen : List Observation) (c' : Connecting) : Prop :=
    SameTerms c.toCore c'.toCore ∧
      (stateOf c'.names name).tally =
        (c.ballots name seen).foldl (Tally.cast c.rules.threshold.toNat)
          (stateOf c.names name).tally
  suffices hloop : inv observations (c.approverRecords observations outcomes).1 from hloop.2
  refine Connecting.eachRecord_invariant inv ?_ ?_ c outcomes ⟨SameTerms.refl _, rfl⟩
  · intro seen o rest c' _ hskip ⟨hterms, htally⟩
    refine ⟨hterms, ?_⟩
    have hballot : c.ballotOf name o = none := by
      rw [← hterms.ballotOf name o]
      exact Connecting.ballotOf_of_skip hskip name
    rw [htally, Core.ballots_append]
    simp [Core.ballots, hballot]
  · intro seen o rest c' result _ hresult ⟨hterms, htally⟩
    have hone : SameTerms c'.toCore result.1.toCore := by
      rcases (Connecting.approverRecord_step hresult).2 with heq | hstep
      · rw [heq]
        exact SameTerms.refl _
      · exact (Connecting.Steps.of_step (List.mem_singleton_self o) hstep).sameTerms
    refine ⟨hterms.trans hone, ?_⟩
    rw [Connecting.approverRecord_tally hresult name, htally, hterms.ballotOf name o,
      hterms.rules, Core.ballots_append, List.foldl_append]
    rfl

/-! ## The votes of the active chain -/

/-- The ballots on a name that the connected blocks hold, oldest first. Admission of an
approver record depends on the terms alone, so they are read under the initial core. -/
def Core.votesCast (c : Core) (name : Name) : List Block → List (XOnlyPublicKey × Bool)
  | [] => []
  | block :: blocks =>
    c.votesCast name blocks ++ c.ballots name (sortByPosition block.observations)

theorem SameTerms.votesCast {c c' : Core} (h : SameTerms c c') (name : Name)
    (blocks : List Block) : c'.votesCast name blocks = c.votesCast name blocks := by
  induction blocks with
  | nil => rfl
  | cons block blocks ih => rw [Core.votesCast, Core.votesCast, ih, h.ballots]

theorem Core.approver_of_votesCast {c : Core} {name : Name} {blocks : List Block}
    {ballot : XOnlyPublicKey × Bool} (h : ballot ∈ c.votesCast name blocks) :
    ballot.1 ∈ c.rules.approvers := by
  induction blocks with
  | nil => cases h
  | cons block blocks ih =>
      rcases List.mem_append.mp h with h | h
      · exact ih h
      · exact approver_of_ballots h

/-- The registry of a block after its sweep and the approver records of `part`. -/
def Core.during (c : Core) (height : Nat) (part : List Observation) : Connecting :=
  (((c.open height).expire height).approverRecords part []).1

/-- One more approver record makes at most one step. -/
theorem Core.during_snoc (c : Core) (height : Nat) (part : List Observation)
    (o : Observation) :
    c.during height (part ++ [o]) = c.during height part ∨
      (o.payload.isApproverOp = true ∧
        Connecting.Step (c.during height part) (some o) (c.during height (part ++ [o]))) := by
  unfold Core.during Connecting.approverRecords
  rw [Connecting.eachRecord_append]
  generalize Connecting.eachRecord Connecting.approverRecord part
    ((c.open height).expire height, []) = state
  simp only [Connecting.eachRecord]
  split
  · exact Or.inl rfl
  · next result hresult =>
    obtain ⟨hkind, hstep⟩ := Connecting.approverRecord_step hresult
    rcases hstep with heq | hstep
    · exact Or.inl heq
    · exact Or.inr ⟨hkind, hstep⟩

/-- Admission of approver records looks at three fields only. -/
theorem Core.ballots_congr {c c' : Core} (hgenesis : c'.genesis = c.genesis)
    (hheight : c'.genesisHeight = c.genesisHeight) (hrules : c'.rules = c.rules)
    (name : Name) (os : List Observation) : c'.ballots name os = c.ballots name os := by
  -- a core that differs in the height alone has the terms of either
  have hterms : SameTerms { c with height := c'.height } c' :=
    ⟨hgenesis, hheight, hrules, rfl⟩
  rw [hterms.ballots]
  rfl

/-- The sweep and the approver records keep the terms of a block. -/
theorem Core.during_sameTerms {c : Core} (hindex : c.IndexExact) (height : Nat)
    (part : List Observation) :
    SameTerms (c.open height).toCore (c.during height part).toCore :=
  (Core.expire_sameTerms hindex height).trans
    (Connecting.approverRecords_steps part _ []).sameTerms

section Chain

variable {genesis : Txid} {genesisHeight : Nat} {rules : Genesis} {blocks : List Block}
  {frames : List Delta} {core : Core}

/-- Inside a block the switch has cast the block's ballots so far. -/
theorem Core.during_tally (hindex : core.IndexExact) (height : Nat)
    (part : List Observation) (name : Name) :
    (stateOf (core.during height part).names name).tally =
      (core.ballots name part).foldl (Tally.cast core.rules.threshold.toNat)
        (stateOf core.names name).tally := by
  have hterms := Core.expire_sameTerms hindex height
  have hsweep : (stateOf ((core.open height).expire height).names name).tally =
      (stateOf core.names name).tally :=
    (Connecting.expire_steps (c := core.open height) hindex).tally
      (fun o ho => absurd ho List.not_mem_nil) name
  unfold Core.during
  rw [Connecting.approverRecords_tally, hsweep, hterms.ballots name part, hterms.rules]
  rfl

/-- **Suspension refines the switch**: after every block, the flag and the votes of a name
are what the two-phase quorum makes of the admitted votes of the active chain. -/
theorem Core.Chain.tally (h : Chain genesis genesisHeight rules blocks frames core)
    (name : Name) :
    (stateOf core.names name).tally =
      Quorum.run rules.threshold.toNat
        ((Core.initial genesis genesisHeight rules).votesCast name blocks) := by
  induction h with
  | new => simp [Core.initial, stateOf, NameState.tally, NameState.unbound, Quorum.run,
      Core.votesCast, Tally.initial, Connecting.votesOf]
  | @connect blocks _ core height observations sorted hchain hadmits ih =>
      obtain ⟨hgenesis, hheight, hrules, _⟩ := hchain.terms
      have howner : (stateOf ((core.open height).applyBlock sorted).1.names name).tally =
          (stateOf (core.during height sorted).names name).tally := by
        apply (Connecting.applyBlock_steps_owner (core.open height) sorted).tally
        intro o ho op suspend hpayload
        have hkind := (List.mem_filter.mp ho).2
        rw [hpayload] at hkind
        cases suspend <;> cases hkind
      have hballots : core.ballots name sorted =
          (Core.initial genesis genesisHeight rules).ballots name sorted :=
        Core.ballots_congr hgenesis hheight hrules name sorted
      show (stateOf ((core.open height).applyBlock sorted).1.names name).tally = _
      rw [howner, Core.during_tally hchain.indexExact, ih, hballots, hrules,
        Core.votesCast, Quorum.run, Quorum.run, List.foldl_append, ← hadmits.sorted_eq]

/-- Inside the block after a chain. -/
theorem Core.Chain.during_tally (h : Chain genesis genesisHeight rules blocks frames core)
    (height : Nat) (part : List Observation) (name : Name) :
    (stateOf (core.during height part).names name).tally =
      Quorum.run rules.threshold.toNat
        ((Core.initial genesis genesisHeight rules).votesCast name blocks ++
          (Core.initial genesis genesisHeight rules).ballots name part) := by
  obtain ⟨hgenesis, hheight, hrules, _⟩ := h.terms
  have hballots : core.ballots name part =
      (Core.initial genesis genesisHeight rules).ballots name part :=
    Core.ballots_congr hgenesis hheight hrules name part
  rw [Core.during_tally h.indexExact, h.tally, hrules, hballots, Quorum.run, Quorum.run,
    List.foldl_append]

end Chain

namespace Registry

variable {genesis : Txid} {genesisHeight : Nat} {rules : Genesis} {blocks : List Block}
  {r : Registry}

/-- **Quorum bookkeeping.** In every reachable registry the votes and approvals satisfy
their invariants, the suspension of every name is the two-phase quorum of the admitted
votes of the active chain, and an approver record that flips a suspension completes a
quorum of distinct approvers who asked for the new phase since the last flip. -/
theorem quorum_bookkeeping (hreach : Reaches genesis genesisHeight rules blocks r) :
    (∀ (name : Name) (state : NameState), r.names[name]? = some state →
      (state.suspended = false → state.restoreVotes = ∅) ∧
      (state.suspended = true → state.suspendVotes = ∅) ∧
      (∀ k ∈ state.suspendVotes ∪ state.restoreVotes, k ∈ rules.approvers) ∧
      (rules.mode = .administered →
        state.suspendVotes.card < rules.threshold.toNat ∧
          state.restoreVotes.card < rules.threshold.toNat) ∧
      (rules.mode = .«open» →
        state.suspended = false ∧ state.suspendVotes = ∅ ∧ state.restoreVotes = ∅)) ∧
    (∀ (txid : Txid) (record : PendingRecord), r.pending[txid]? = some record →
      (∀ k ∈ record.approvals, k ∈ rules.approvers) ∧
      (record.completed = true ↔ record.approvals.card = rules.threshold.toNat) ∧
      record.approvals.card ≤ rules.threshold.toNat) ∧
    (rules.mode = .«open» → ∀ txid : Txid, r.pending[txid]? = none) ∧
    (∀ name : Name, (stateOf r.names name).tally = Quorum.run rules.threshold.toNat
      ((Core.initial genesis genesisHeight rules).votesCast name blocks)) ∧
    (∀ (name : Name) (height : Nat) (observations sorted : List Observation),
      r.Admits height observations sorted → ∀ part o, part ++ [o] <+: sorted →
      (stateOf (r.during height (part ++ [o])).names name).suspended ≠
        (stateOf (r.during height part).names name).suspended →
      ∃ (before since : List (XOnlyPublicKey × Bool)) (voters : Finset XOnlyPublicKey),
        (Core.initial genesis genesisHeight rules).votesCast name blocks ++
          (Core.initial genesis genesisHeight rules).ballots name part = before ++ since ∧
        SinceFlip rules.threshold.toNat before since ∧
        rules.threshold.toNat ≤ voters.card ∧
        (∀ k ∈ voters, k ∈ rules.approvers ∧
          (k, (stateOf (r.during height (part ++ [o])).names name).suspended) ∈
            since ++ (Core.initial genesis genesisHeight rules).ballots name [o])) := by
  obtain ⟨_, hchain, _⟩ := hreach.chain
  obtain ⟨_, _, hrules, _⟩ := hchain.terms
  have hquorate := hchain.quorate
  refine ⟨?_, ?_, ?_, hchain.tally, ?_⟩
  · intro name state hget
    have hstate := hquorate.names name
    rw [stateOf_of_get hget, hrules] at hstate
    exact ⟨hstate.restoreIdle, hstate.suspendIdle, hstate.approvers, hstate.below,
      hstate.openIdle⟩
  · intro txid record hget
    have hrecord := hquorate.pending txid record hget
    rw [hrules] at hrecord
    exact ⟨hrecord.approvers, hrecord.complete, hrecord.atMost⟩
  · intro hopen txid
    cases hget : r.pending[txid]? with
    | none => rfl
    | some record =>
        have hmode := (hquorate.pending txid record hget).administered
        rw [hrules, hopen] at hmode
        cases hmode
  · intro name height observations sorted _ part o _ hflip
    have hbefore := hchain.during_tally height part name
    have hafter := hchain.during_tally height (part ++ [o]) name
    rw [Core.ballots_append, ← List.append_assoc] at hafter
    have hnow := congrArg Tally.phase hafter
    have hthen := congrArg Tally.phase hbefore
    simp only [NameState.tally] at hnow hthen
    rw [hnow, hthen] at hflip
    rw [hnow]
    -- the observation casts a ballot, or nothing could flip
    cases hballot : (Core.initial genesis genesisHeight rules).ballotOf name o with
    | none =>
        simp [Core.ballots, hballot] at hflip
    | some ballot =>
        have hone : (Core.initial genesis genesisHeight rules).ballots name [o] = [ballot] := by
          simp [Core.ballots, hballot]
        rw [hone] at hflip ⊢
        obtain ⟨before, since, hsplit, hsince, voters, hcard, hvoters⟩ :=
          Quorum.flip_quorum hflip
        refine ⟨before, since, voters, hsplit, hsince, hcard, ?_⟩
        intro k hk
        have hcast := hvoters k hk
        refine ⟨?_, hcast⟩
        have hall : ∀ cast ∈ since ++ [ballot], cast.1 ∈ rules.approvers := by
          intro cast hmem
          rw [← hone] at hmem
          rcases List.mem_append.mp hmem with hmem | hmem
          · have hin := List.mem_append_right before hmem
            rw [← hsplit] at hin
            rcases List.mem_append.mp hin with hin | hin
            · exact Core.approver_of_votesCast hin
            · exact Core.approver_of_ballots hin
          · exact Core.approver_of_ballots hmem
        exact hall _ hcast

/-- An open registry has threshold zero, so no vote set is below it. -/
theorem open_votes_not_below :
    ¬ ∀ (r : Registry), r.Reachable → ∀ (name : Name) (state : NameState),
      r.names[name]? = some state →
        state.suspendVotes.card < r.rules.threshold.toNat ∧
          state.restoreVotes.card < r.rules.threshold.toNat := by
  intro h
  have hclaimed : Sample.claimedRegistry.names[Sample.name]? = some Sample.claimed := by
    decide +kernel
  have hbelow := (h Sample.claimedRegistry Sample.claimedRegistry_reaches.reachable
    Sample.name Sample.claimed hclaimed).1
  exact absurd hbelow (by decide)

end Registry

/-! ## A small administered registry -/

namespace Sample

/-- Two approvers, both needed. -/
def twoRules : Genesis := ⟨.administered, 10, 2, 2, [key 1, key 2]⟩

/-- A record revealed in the block after its commit. -/
def record (id : UInt8) (author : UInt8) (payload : Payload) (height position : Nat) :
    Observation where
  txid := txid id
  author := key author
  recordSha256 := Vector.replicate 32 id
  payload := payload
  height := height
  position := position
  commit := ⟨txid (100 + id), 0, height - 1, position⟩

/-- The request of `a` by the third key, and its two approvals in the next block. -/
def requestBlock : Block :=
  ⟨102, [record 2 3 (.claim ⟨txid 1, Vector.replicate 16 0, name, txid 9⟩) 102 0]⟩

def approvalBlock : Block :=
  ⟨103, [record 4 1 (.approve ⟨txid 1, txid 2, Vector.replicate 32 2⟩) 103 0,
    record 5 2 (.approve ⟨txid 1, txid 2, Vector.replicate 32 2⟩) 103 1]⟩

/-- An approver votes to suspend `a`. -/
def suspension (id author : UInt8) (position : Nat) : Observation :=
  record id author (.suspend ⟨txid 1, name⟩) 104 position

/-- The registry after an empty block and these two. -/
def grantedRegistry : Registry :=
  let new := Registry.mk (Core.initial (txid 1) 100 twoRules) []
  let started := (new.connectDelta 101 []).2
  let requested := (started.connectDelta 102 requestBlock.observations).2
  (requested.connectDelta 103 approvalBlock.observations).2

/-- The binding of `a` then. -/
def grantedBound : Bound := ⟨key 3, .publication (txid 9), 113, txid 2, txid 5⟩

theorem grantedRegistry_reaches :
    Registry.Reaches (txid 1) 100 twoRules [approvalBlock, requestBlock, ⟨101, []⟩]
      grantedRegistry := by
  have hnew : Registry.Reaches (txid 1) 100 twoRules []
      ⟨Core.initial (txid 1) 100 twoRules, []⟩ :=
    .new (Registry.new_eq_ok.mpr ⟨by decide +kernel, rfl⟩)
  have hstart := hnew.connect_admitted ⟨101, []⟩ (by decide +kernel)
  have hrequest := hstart.connect_admitted requestBlock (by decide +kernel)
  exact hrequest.connect_admitted approvalBlock (by decide +kernel)

end Sample

/-- The suspension of `a` by both approvers, after its request was granted. -/
theorem Registry.quorum_bookkeeping_suspension :
    ∃ (before since : List (XOnlyPublicKey × Bool)) (voters : Finset XOnlyPublicKey),
      before ++ since = [(Sample.key 1, true)] ∧ SinceFlip 2 before since ∧ 2 ≤ voters.card ∧
        ∀ k ∈ voters, (k, true) ∈ since ++ [(Sample.key 2, true)] := by
  have hadmits : Sample.grantedRegistry.Admits 104
      [Sample.suspension 6 1 0, Sample.suspension 7 2 1]
      [Sample.suspension 6 1 0, Sample.suspension 7 2 1] :=
    Core.admitBlock_eq_ok.mp (by decide +kernel)
  obtain ⟨before, since, voters, hsplit, hsince, hcard, hvoters⟩ :=
    (Registry.quorum_bookkeeping Sample.grantedRegistry_reaches).2.2.2.2 Sample.name 104
      _ _ hadmits [Sample.suspension 6 1 0] (Sample.suspension 7 2 1) (List.prefix_refl _)
      (by decide +kernel)
  have hcast : before ++ since = [(Sample.key 1, true)] := by
    rw [← hsplit]
    decide +kernel
  refine ⟨before, since, voters, hcast, hsince, hcard, ?_⟩
  intro k hk
  have hvote := (hvoters k hk).2
  have hphase : (stateOf (Sample.grantedRegistry.during 104
      ([Sample.suspension 6 1 0] ++ [Sample.suspension 7 2 1])).names Sample.name).suspended =
      true := by decide +kernel
  rw [hphase] at hvote
  exact hvote

end Urma.Names
