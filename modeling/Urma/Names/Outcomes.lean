import Mathlib.Algebra.Order.BigOperators.Group.List
import Mathlib.Algebra.Order.Ring.Nat
import Urma.Names.Isolation

/-!
# Verdicts

Every pass of a block answers some of its observations. Which observations a pass answers is told
by their payloads and the mode of the registry, so that the passes share a block out without rest,
but for one case: where the expiry of a claim overflows, only the first of the claims that race for
the name is answered.
-/

namespace Urma.Names

open Std

/-! ## Keys -/

/-- What an observation is known by: its place in the block and its transaction. -/
def Observation.key (observation : Observation) : Nat × Txid :=
  (observation.position, observation.txid)

/-- What an outcome says it is about. -/
def Outcome.key (outcome : Outcome) : Nat × Txid :=
  (outcome.position, outcome.txid)

/-- What the outcomes of a pass are about. -/
def keys (outcomes : List Outcome) : List (Nat × Txid) :=
  outcomes.map Outcome.key

@[simp] theorem Outcome.new_key (observation : Observation) (verdict : Verdict) :
    (Outcome.new observation verdict).key = observation.key := rfl

@[simp] theorem keys_append (a b : List Outcome) : keys (a ++ b) = keys a ++ keys b :=
  List.map_append

@[simp] theorem keys_singleton (observation : Observation) (verdict : Verdict) :
    keys [Outcome.new observation verdict] = [observation.key] := rfl

/-! ## Contested claims -/

/-- The claim is admitted, and its name is free once the bindings that expire at the height are
gone. -/
structure Core.Races (self : Core) (height : Nat) (name : Name) (o : Observation) : Prop where
  claim : ∃ op, o.payload = .claim op ∧ op.name = name ∧
    self.admitObservation o op.registry = .admitted
  free : ∀ bound, (stateOf self.names name).binding = .bound bound → bound.expiry ≤ height

/-- Two claims of an open registry race for one name, and the expiry overflows. -/
def Core.Contested (self : Core) (height : Nat) (observations : List Observation) : Prop :=
  self.rules.mode = .«open» ∧ self.expiryAfter height = none ∧
    ∃ a ∈ observations, ∃ b ∈ observations, a.position ≠ b.position ∧
      ∃ name, self.Races height name a ∧ self.Races height name b

namespace Connecting

variable {c : Connecting} {observations : List Observation} {outcomes : List Outcome}

/-! ## Records -/

/-- **A pass over the records** answers those its handler does not skip. -/
theorem eachRecord_keys {handle : Connecting → Observation → Option (Connecting × Verdict)}
    {handled : Observation → Bool} {inv : Connecting → Prop}
    (hhandled : ∀ c o, inv c → (handle c o).isSome = handled o)
    (hinv : ∀ c o result, inv c → handle c o = some result → inv result.1) (hc : inv c) :
    keys (eachRecord handle observations (c, outcomes)).2 =
      keys outcomes ++ (observations.filter handled).map Observation.key := by
  induction observations generalizing c outcomes with
  | nil => simp [eachRecord]
  | cons o rest ih =>
      have hsome := hhandled c o hc
      rw [eachRecord, List.filter_cons]
      cases hresult : handle c o with
      | none =>
          rw [hresult] at hsome
          rw [← hsome]
          exact ih hc
      | some result =>
          rw [hresult] at hsome
          rw [← hsome]
          show keys (eachRecord handle rest (result.1, outcomes ++ [Outcome.new o result.2])).2 = _
          rw [ih (hinv c o result hc hresult), keys_append, keys_singleton, List.append_assoc]
          rfl

theorem approverRecords_keys : keys (c.approverRecords observations outcomes).2 =
    keys outcomes ++ (approverOps observations).map Observation.key := by
  apply @eachRecord_keys c observations outcomes approverRecord
    (fun o => o.payload.isApproverOp) (fun _ => True)
  · intro c o _
    unfold approverRecord
    cases o.payload <;> rfl
  · intro _ _ _ _ _
    trivial
  · trivial

/-- Does the owner pass answer the observation? -/
def isOwned (mode : Mode) (o : Observation) : Bool :=
  match o.payload with
  | .claim _ => mode = .administered
  | .update _ | .renew _ | .genesis _ => true
  | .approve _ | .suspend _ | .restore _ => false

theorem ownerRecords_keys : keys (c.ownerRecords observations outcomes).2 =
    keys outcomes ++ (observations.filter (isOwned c.rules.mode)).map Observation.key := by
  apply @eachRecord_keys c observations outcomes ownerRecord (isOwned c.rules.mode)
    (fun d => d.rules.mode = c.rules.mode)
  · intro d o hmode
    unfold ownerRecord isOwned
    rw [← hmode]
    cases o.payload with
    | claim op => cases hm : d.rules.mode <;> simp
    | update op => rfl
    | renew op => rfl
    | genesis rules => rfl
    | approve approval => rfl
    | suspend op => rfl
    | restore op => rfl
  · intro d o result hmode hresult
    rcases (ownerRecord_step hresult).2 with heq | hstep
    · rw [heq]
      exact hmode
    · have hterms := (Steps.of_step (List.mem_singleton_self o) hstep).sameTerms
      rw [hterms.rules]
      exact hmode
  · rfl

/-- In an open registry the approver pass changes nothing. -/
theorem approverRecords_open (hmode : c.rules.mode = .«open») :
    (c.approverRecords observations outcomes).1 = c := by
  have hrejected : ∀ o registry, ∃ rejection,
      c.admitApprover o registry = .rejected rejection := by
    intro o registry
    unfold Core.admitApprover
    split
    · next rejection _ => exact ⟨rejection, rfl⟩
    · exact ⟨.openRegistry, if_pos hmode⟩
  apply @eachRecord_invariant observations approverRecord (fun _ d => d = c)
  · intro _ _ _ _ _ _ h
    exact h
  · intro _ o _ d result _ hresult h
    subst h
    unfold approverRecord at hresult
    cases hpayload : o.payload with
    | approve approval =>
        obtain ⟨rejection, hrejection⟩ := hrejected o approval.registry
        rw [hpayload] at hresult
        cases hresult
        simp only [approve, hrejection]
    | suspend op =>
        obtain ⟨rejection, hrejection⟩ := hrejected o op.registry
        rw [hpayload] at hresult
        cases hresult
        simp only [vote, hrejection]
    | restore op =>
        obtain ⟨rejection, hrejection⟩ := hrejected o op.registry
        rw [hpayload] at hresult
        cases hresult
        simp only [vote, hrejection]
    | claim op => rw [hpayload] at hresult; cases hresult
    | update op => rw [hpayload] at hresult; cases hresult
    | renew op => rw [hpayload] at hresult; cases hresult
    | genesis rules => rw [hpayload] at hresult; cases hresult
  · rfl

/-! ## Claims -/

/-- A claim that the first loop answers. -/
def isRefused (c : Connecting) (entry : Observation × Nat) : Bool :=
  match entry.1.payload with
  | .claim op => !c.isCandidate op.name entry
  | _ => false

/-- A claim that the first loop keeps for the second. -/
def isKept (c : Connecting) (entry : Observation × Nat) : Bool :=
  match entry.1.payload with
  | .claim op => c.isCandidate op.name entry
  | _ => false

def isClaim (o : Observation) : Bool :=
  match o.payload with
  | .claim _ => true
  | _ => false

/-- What an entry of the block is known by. -/
def entryKey (entry : Observation × Nat) : Nat × Txid :=
  entry.1.key

theorem isKept_iff {entry : Observation × Nat} :
    c.isKept entry = true ↔ ∃ name, c.isCandidate name entry = true := by
  unfold isKept
  constructor
  · intro h
    split at h
    · exact ⟨_, h⟩
    · cases h
  · rintro ⟨name, h⟩
    obtain ⟨op, hpayload, hname, _⟩ := isCandidate_iff.mp h
    rw [hpayload]
    rw [← hname] at h
    exact h

theorem gatherClaim_keys (gathered : Candidates × List Outcome) (entry : Observation × Nat) :
    keys (gatherClaim c gathered entry).2 =
      keys gathered.2 ++ if c.isRefused entry then [entryKey entry] else [] := by
  obtain ⟨candidates, outcomes⟩ := gathered
  unfold gatherClaim isRefused isCandidate
  cases entry.1.payload with
  | claim op =>
      cases hadmission : c.admitObservation entry.1 op.registry with
      | rejected rejection => simp [hadmission, entryKey]
      | admitted =>
          cases hbinding : (stateOf c.names op.name).binding with
          | bound bound => simp [hadmission, hbinding, entryKey]
          | unbound =>
              simp only [hadmission, hbinding]
              split <;> simp
  | genesis rules => simp
  | update op => simp
  | renew op => simp
  | approve approval => simp
  | suspend op => simp
  | restore op => simp

/-- **The first loop** answers the claims it does not keep. -/
theorem gatherClaim_foldl_keys (entries : List (Observation × Nat))
    (gathered : Candidates × List Outcome) :
    keys (entries.foldl (gatherClaim c) gathered).2 =
      keys gathered.2 ++ (entries.filter c.isRefused).map entryKey := by
  induction entries generalizing gathered with
  | nil => simp
  | cons entry rest ih =>
      rw [List.foldl_cons, ih, gatherClaim_keys, List.filter_cons, List.append_assoc]
      split <;> simp

/-- The claims for one name that the second loop answers. -/
def answered (c : Connecting) (height : Nat) (list : List (Observation × Nat)) :
    List (Observation × Nat) :=
  match c.expiryAfter height with
  | none => (list.argmin fun entry => commitKey entry.1).toList
  | some _ => list

theorem assign_keys {height : Nat} {name : Name} {list : List (Observation × Nat)}
    (hheight : ∀ entry ∈ list, entry.1.height = height)
    (hclaim : ∀ entry ∈ list, isClaim entry.1 = true) :
    keys (c.assign name list outcomes).2 =
      keys outcomes ++ (c.answered height list).map entryKey := by
  unfold assign answered
  cases hwinner : list.argmin (fun entry => commitKey entry.1) with
  | none =>
      rw [List.argmin_eq_none.mp hwinner]
      cases c.expiryAfter height <;> simp
  | some winner =>
      have hin : winner ∈ list := List.argmin_mem hwinner
      have hpayload := hclaim winner hin
      unfold isClaim at hpayload
      split at hpayload
      · next op hop =>
        simp only [hop, hheight winner hin]
        cases c.expiryAfter height with
        | none => simp [entryKey]
        | some expiry =>
            simp only [keys_append, List.append_cancel_left_eq]
            rw [keys, List.map_map]
            rfl
      · cases hpayload

/-- **The second loop** answers each name's claims. -/
theorem assignEntry_foldl_keys {height : Nat} {start : Connecting}
    {entries : List (Name × List (Observation × Nat))}
    (hheight : ∀ entry ∈ entries, ∀ candidate ∈ entry.2, candidate.1.height = height)
    (hclaim : ∀ entry ∈ entries, ∀ candidate ∈ entry.2, isClaim candidate.1 = true)
    (hterms : SameTerms start.toCore c.toCore) :
    keys (entries.foldl assignEntry (c, outcomes)).2 =
      keys outcomes ++ (entries.flatMap fun entry => start.answered height entry.2).map entryKey := by
  induction entries generalizing c outcomes with
  | nil => simp
  | cons entry rest ih =>
      have hanswered : c.answered height entry.2 = start.answered height entry.2 := by
        unfold answered
        rw [hterms.expiryAfter]
      rw [List.foldl_cons]
      have hnext := (assign_sameTerms c entry.1 entry.2 outcomes).1
      have hfirst := @assign_keys c outcomes height entry.1 entry.2
        (hheight entry List.mem_cons_self) (hclaim entry List.mem_cons_self)
      have hrest := @ih (c.assign entry.1 entry.2 outcomes).1 (c.assign entry.1 entry.2 outcomes).2
        (fun e he => hheight e (List.mem_cons_of_mem _ he))
        (fun e he => hclaim e (List.mem_cons_of_mem _ he)) (hterms.trans hnext)
      show keys (rest.foldl assignEntry (c.assign entry.1 entry.2 outcomes)).2 = _
      rw [hfirst, hanswered] at hrest
      rw [List.flatMap_cons, List.map_append, ← List.append_assoc]
      exact hrest

/-- **What the claims pass answers**: what the first loop refuses, and of each name what the second
loop answers. -/
theorem claims_keys {height : Nat} (hheight : ∀ o ∈ observations, o.height = height) :
    keys (c.claims observations outcomes).2 =
      keys outcomes ++ (observations.zipIdx.filter c.isRefused).map entryKey ++
        ((c.gatheredClaims observations outcomes).toList.flatMap fun entry =>
          c.answered height entry.2).map entryKey := by
  have hfold := gatherClaim_foldl_keys (c := c) observations.zipIdx (∅, outcomes)
  show keys ((c.gatheredClaims observations outcomes).toList.foldl assignEntry
    (c, (observations.zipIdx.foldl (gatherClaim c) (∅, outcomes)).2)).2 = _
  rw [@assignEntry_foldl_keys c _ height c _ ?_ ?_ (SameTerms.refl _), hfold]
  · rintro ⟨name, list⟩ hentry candidate hcandidate
    obtain ⟨_, hlist⟩ := of_mem_gatheredClaims hentry
    rw [hlist, List.mem_filter] at hcandidate
    exact hheight _ (List.fst_mem_of_mem_zipIdx hcandidate.1)
  · rintro ⟨name, list⟩ hentry candidate hcandidate
    obtain ⟨_, hlist⟩ := of_mem_gatheredClaims hentry
    rw [hlist, List.mem_filter] at hcandidate
    obtain ⟨op, hpayload, _⟩ := isCandidate_iff.mp hcandidate.2
    unfold isClaim
    rw [hpayload]

/-- The kept claims are those gathered under their names. -/
theorem gathered_perm (c : Connecting) (observations : List Observation)
    (outcomes : List Outcome) :
    ((c.gatheredClaims observations outcomes).toList.flatMap Prod.snd).Perm
      (observations.zipIdx.filter c.isKept) := by
  have hentries : observations.zipIdx.Nodup := by
    apply List.Nodup.of_map Prod.snd
    rw [List.zipIdx_map_snd]
    exact List.nodup_range'
  have hflat : ((c.gatheredClaims observations outcomes).toList.flatMap Prod.snd).Nodup := by
    apply List.nodup_flatMap.mpr
    constructor
    · rintro ⟨name, list⟩ hentry
      obtain ⟨_, hlist⟩ := of_mem_gatheredClaims hentry
      show list.Nodup
      rw [hlist]
      exact hentries.filter _
    · have hnames := toList_keys_nodup (c.gatheredClaims observations outcomes)
      rw [List.Nodup, List.pairwise_map] at hnames
      apply hnames.imp_of_mem
      rintro ⟨name, list⟩ ⟨other, list'⟩ hentry hentry' hne candidate hcandidate hcandidate'
      obtain ⟨_, hlist⟩ := of_mem_gatheredClaims hentry
      obtain ⟨_, hlist'⟩ := of_mem_gatheredClaims hentry'
      have hmem : candidate ∈ list := hcandidate
      have hmem' : candidate ∈ list' := hcandidate'
      rw [hlist, List.mem_filter] at hmem
      rw [hlist', List.mem_filter] at hmem'
      obtain ⟨op, hpayload, hname, _⟩ := isCandidate_iff.mp hmem.2
      obtain ⟨op', hpayload', hname', _⟩ := isCandidate_iff.mp hmem'.2
      rw [hpayload] at hpayload'
      cases hpayload'
      exact hne (hname.symm.trans hname')
  apply (List.perm_ext_iff_of_nodup hflat (hentries.filter _)).mpr
  intro candidate
  rw [List.mem_flatMap, List.mem_filter, isKept_iff]
  constructor
  · rintro ⟨⟨name, list⟩, hentry, hcandidate⟩
    obtain ⟨_, hlist⟩ := of_mem_gatheredClaims hentry
    have hmem : candidate ∈ list := hcandidate
    rw [hlist, List.mem_filter] at hmem
    exact ⟨hmem.1, name, hmem.2⟩
  · rintro ⟨hmem, name, hcandidate⟩
    have hlist : candidate ∈ observations.zipIdx.filter (c.isCandidate name) :=
      List.mem_filter.mpr ⟨hmem, hcandidate⟩
    refine ⟨(name, _), ?_, hlist⟩
    rw [ExtTreeMap.mem_toList_iff_getElem?_eq_some, gatheredClaims_get, asEntry_eq_some]
    exact ⟨List.ne_nil_of_mem hlist, rfl⟩

/-- The refused claims and the kept ones are the claims. -/
theorem refused_kept_perm (c : Connecting) (observations : List Observation) :
    ((observations.zipIdx.filter c.isRefused).map entryKey ++
      (observations.zipIdx.filter c.isKept).map entryKey).Perm
        ((observations.filter isClaim).map Observation.key) := by
  have hclaims : (observations.filter isClaim).map Observation.key =
      (observations.zipIdx.filter fun entry => isClaim entry.1).map entryKey := by
    have hentries := List.zipIdx_map_fst 0 observations
    calc (observations.filter isClaim).map Observation.key
        = ((observations.zipIdx.map Prod.fst).filter isClaim).map Observation.key := by
          rw [hentries]
      _ = (observations.zipIdx.filter fun entry => isClaim entry.1).map entryKey := by
          rw [List.filter_map, List.map_map]
          rfl
  have hkept : observations.zipIdx.filter c.isKept =
      (observations.zipIdx.filter fun entry => isClaim entry.1).filter c.isKept := by
    rw [List.filter_filter]
    apply List.filter_congr
    intro entry _
    unfold isKept isClaim
    cases entry.1.payload <;> simp
  have hrefused : observations.zipIdx.filter c.isRefused =
      (observations.zipIdx.filter fun entry => isClaim entry.1).filter fun entry =>
        !c.isKept entry := by
    rw [List.filter_filter]
    apply List.filter_congr
    intro entry _
    unfold isKept isRefused isClaim
    cases entry.1.payload <;> simp
  rw [← List.map_append, hclaims, hkept, hrefused]
  apply List.Perm.map
  exact List.perm_append_comm.trans (List.filter_append_perm _ _)

/-- The approver records, the claims and the owner records of an open registry are all. -/
theorem open_perm (observations : List Observation) :
    (approverOps observations ++ (observations.filter isClaim ++
      observations.filter (isOwned .«open»))).Perm observations := by
  have hclaims : observations.filter isClaim =
      (observations.filter fun o => !o.payload.isApproverOp).filter isClaim := by
    rw [List.filter_filter]
    apply List.filter_congr
    intro o _
    unfold isClaim Payload.isApproverOp
    cases o.payload <;> rfl
  have howned : observations.filter (isOwned .«open») =
      (observations.filter fun o => !o.payload.isApproverOp).filter fun o => !isClaim o := by
    rw [List.filter_filter]
    apply List.filter_congr
    intro o _
    unfold isClaim isOwned Payload.isApproverOp
    cases o.payload <;> rfl
  rw [hclaims, howned]
  exact ((List.filter_append_perm _ _).append_left _).trans (List.filter_append_perm _ _)

/-- The approver records and the owner records of an administered registry are all. -/
theorem administered_perm (observations : List Observation) :
    (approverOps observations ++ observations.filter (isOwned .administered)).Perm
      observations := by
  have howned : observations.filter (isOwned .administered) =
      observations.filter fun o => !o.payload.isApproverOp := by
    apply List.filter_congr
    intro o _
    unfold isOwned Payload.isApproverOp
    cases o.payload <;> rfl
  rw [howned]
  exact List.filter_append_perm _ _

theorem answered_length_le (c : Connecting) (height : Nat) (list : List (Observation × Nat)) :
    (c.answered height list).length ≤ list.length := by
  unfold answered
  split
  · cases hwinner : list.argmin (fun entry => commitKey entry.1) with
    | none => exact Nat.zero_le _
    | some winner => exact List.length_pos_of_mem (List.argmin_mem hwinner)
  · exact le_rfl

theorem answered_of_length_le {c : Connecting} {height : Nat} {list : List (Observation × Nat)}
    (h : c.expiryAfter height = none → list.length ≤ 1) : c.answered height list = list := by
  unfold answered
  split
  · next hoverflow =>
      match list, h hoverflow with
      | [], _ => rfl
      | [entry], _ => rfl
  · rfl

theorem answered_length_lt {c : Connecting} {height : Nat} {list : List (Observation × Nat)}
    (hoverflow : c.expiryAfter height = none) (h : 1 < list.length) :
    (c.answered height list).length < list.length := by
  unfold answered
  rw [hoverflow]
  apply Nat.lt_of_le_of_lt _ h
  cases list.argmin (fun entry => commitKey entry.1) with
  | none => exact Nat.zero_le _
  | some winner => exact le_rfl

/-- Every name's claims are answered exactly when none of the lists loses a claim. -/
theorem answered_length_iff {c : Connecting} {height : Nat}
    {entries : List (Name × List (Observation × Nat))} :
    (entries.flatMap fun entry => c.answered height entry.2).length =
        (entries.flatMap Prod.snd).length ↔
      (c.expiryAfter height = none → ∀ entry ∈ entries, entry.2.length ≤ 1) := by
  rw [List.length_flatMap, List.length_flatMap]
  constructor
  · intro hsum hoverflow entry hentry
    by_contra hlong
    have hlt := List.sum_lt_sum (l := entries) (fun e => (c.answered height e.2).length)
      (fun e => e.2.length) (fun e _ => c.answered_length_le height e.2)
      ⟨entry, hentry, answered_length_lt hoverflow (by omega)⟩
    omega
  · intro hshort
    congr 1
    apply List.map_congr_left
    intro entry hentry
    rw [answered_of_length_le fun hoverflow => hshort hoverflow entry hentry]

theorem answered_flatMap {c : Connecting} {height : Nat}
    {entries : List (Name × List (Observation × Nat))}
    (h : c.expiryAfter height = none → ∀ entry ∈ entries, entry.2.length ≤ 1) :
    (entries.flatMap fun entry => c.answered height entry.2) = entries.flatMap Prod.snd := by
  apply List.flatMap_congr
  intro entry hentry
  exact answered_of_length_le fun hoverflow => h hoverflow entry hentry

/-! ## The whole block -/

theorem applyBlock_open (hmode : (c.expire c.height).rules.mode = .«open»)
    {answers : List Outcome}
    (hanswers : answers = ((c.expire c.height).approverRecords observations []).2) :
    c.applyBlock observations = ((c.expire c.height).claims observations answers).1.ownerRecords
      observations ((c.expire c.height).claims observations answers).2 := by
  have hsame := @approverRecords_open (c.expire c.height) observations [] hmode
  have hpass : (c.expire c.height).approverRecords observations [] =
      (c.expire c.height, answers) := Prod.ext hsame hanswers.symm
  unfold applyBlock
  simp only [hpass, if_pos hmode]

/-- **The verdicts of an open block** are about the observations, but for the claims that a race
with an overflow leaves out. -/
theorem open_keys (hmode : (c.expire c.height).rules.mode = .«open») {height : Nat}
    (hheight : ∀ o ∈ observations, o.height = height) :
    ∃ gathered : List (Name × List (Observation × Nat)),
      (∀ entry ∈ gathered, entry.2 =
        observations.zipIdx.filter ((c.expire c.height).isCandidate entry.1)) ∧
      (∀ name candidate, candidate ∈ observations.zipIdx →
        (c.expire c.height).isCandidate name candidate = true → name ∈ gathered.map Prod.fst) ∧
      ∃ rest, (keys (c.applyBlock observations).2).Perm (rest ++ (gathered.flatMap fun entry =>
          (c.expire c.height).answered height entry.2).map entryKey) ∧
        (observations.map Observation.key).Perm
          (rest ++ (gathered.flatMap Prod.snd).map entryKey) := by
  obtain ⟨swept, hswept⟩ : ∃ swept, swept = c.expire c.height := ⟨_, rfl⟩
  obtain ⟨answers, hanswers⟩ : ∃ answers,
      answers = ((c.expire c.height).approverRecords observations []).2 := ⟨_, rfl⟩
  rw [applyBlock_open hmode hanswers]
  rw [← hswept] at hmode hanswers ⊢
  have hclaims := @claims_keys swept observations answers height hheight
  have howned := @ownerRecords_keys (swept.claims observations answers).1 observations
    (swept.claims observations answers).2
  rw [(claims_sameTerms swept observations answers).1.rules, hmode, hclaims, hanswers,
    approverRecords_keys] at howned
  have hperm := (refused_kept_perm swept observations)
  refine ⟨(swept.gatheredClaims observations answers).toList, ?_, ?_,
    (approverOps observations).map Observation.key ++
      (observations.zipIdx.filter swept.isRefused).map entryKey ++
      (observations.filter (isOwned .«open»)).map Observation.key, ?_, ?_⟩
  · rintro ⟨name, list⟩ hentry
    exact (of_mem_gatheredClaims hentry).2
  · intro name candidate hmem hcandidate
    refine List.mem_map.mpr ⟨(name, observations.zipIdx.filter (swept.isCandidate name)), ?_, rfl⟩
    rw [ExtTreeMap.mem_toList_iff_getElem?_eq_some, gatheredClaims_get, asEntry_eq_some]
    exact ⟨List.ne_nil_of_mem (List.mem_filter.mpr ⟨hmem, hcandidate⟩), rfl⟩
  · rw [← hanswers] at howned
    rw [howned, keys, List.map_nil, List.nil_append]
    simp only [List.append_assoc]
    apply List.Perm.append_left
    apply List.Perm.append_left
    exact List.perm_append_comm
  · have hgathered := (gathered_perm swept observations answers).map entryKey
    have hall := (open_perm observations).map Observation.key
    rw [List.map_append, List.map_append] at hall
    apply hall.symm.trans
    rw [List.append_assoc, List.append_assoc]
    apply List.Perm.append_left
    have hsplit := (hgathered.append_left
      ((observations.zipIdx.filter swept.isRefused).map entryKey)).trans hperm
    apply (hsplit.symm.append_right _).trans
    rw [List.append_assoc]
    apply List.Perm.append_left
    exact List.perm_append_comm

theorem administered_keys (hmode : (c.expire c.height).rules.mode = .administered) :
    (keys (c.applyBlock observations).2).Perm (observations.map Observation.key) := by
  have hterms := (approverRecords_steps observations (c.expire c.height) []).sameTerms
  have hpassed : ((c.expire c.height).approverRecords observations []).1.rules.mode =
      .administered := by
    rw [hterms.rules]
    exact hmode
  have hblock : c.applyBlock observations =
      ((c.expire c.height).approverRecords observations []).1.ownerRecords observations
        ((c.expire c.height).approverRecords observations []).2 := by
    unfold applyBlock
    simp only [hpassed]
    rfl
  rw [hblock, ownerRecords_keys, approverRecords_keys, hpassed]
  show ((approverOps observations).map Observation.key ++ _).Perm _
  rw [← List.map_append]
  exact (administered_perm observations).map Observation.key

/-- A claim is a candidate after the sweep exactly if it races before it. -/
theorem isCandidate_iff_races {core : Core} (hindex : core.IndexExact) {height : Nat}
    {name : Name} {entry : Observation × Nat} :
    ((core.open height).expire height).isCandidate name entry = true ↔
      core.Races height name entry.1 := by
  have hterms := Core.expire_sameTerms hindex height
  have hstate := @stateOf_expire (core.open height) hindex height name
  have hadmits : ∀ o registry, ((core.open height).expire height).admitObservation o registry =
      core.admitObservation o registry := by
    intro o registry
    rw [hterms.admitObservation]
    rfl
  rw [isCandidate_iff]
  simp only [hadmits]
  constructor
  · rintro ⟨op, hpayload, hname, hadmitted, hunbound⟩
    refine ⟨⟨op, hpayload, hname, hadmitted⟩, ?_⟩
    intro bound hbound
    by_contra hlive
    rw [hstate, if_neg] at hunbound
    · have hsame : (stateOf core.names name).binding = .unbound := hunbound
      rw [hbound] at hsame
      cases hsame
    · rintro ⟨other, hother, hle⟩
      have hsame : (stateOf core.names name).binding = .bound other := hother
      rw [hbound] at hsame
      cases hsame
      exact hlive hle
  · rintro ⟨⟨op, hpayload, hname, hadmitted⟩, hfree⟩
    refine ⟨op, hpayload, hname, hadmitted, ?_⟩
    rw [hstate]
    split
    · rfl
    · next hdue =>
        show (stateOf core.names name).binding = .unbound
        cases hbinding : (stateOf core.names name).binding with
        | unbound => rfl
        | bound bound => exact absurd ⟨bound, hbinding, hfree bound hbinding⟩ hdue

/-- Two different candidates of a name are two claims that race. -/
theorem candidates_length_le_iff {name : Name}
    (hstrict : observations.Pairwise fun a b => a.position < b.position) :
    (observations.zipIdx.filter (c.isCandidate name)).length ≤ 1 ↔
      ∀ a ∈ observations, ∀ b ∈ observations, c.isCandidate name (a, 0) = true →
        c.isCandidate name (b, 0) = true → a.position = b.position := by
  have hlength := congrArg List.length (candidates_map_fst c name observations)
  rw [List.length_map] at hlength
  rw [hlength]
  have hsorted := hstrict.filter fun o => c.isCandidate name (o, 0)
  have hmem : ∀ o, o ∈ observations.filter (fun o => c.isCandidate name (o, 0)) ↔
      o ∈ observations ∧ c.isCandidate name (o, 0) = true := fun o => List.mem_filter
  generalize observations.filter (fun o => c.isCandidate name (o, 0)) = candidates at hsorted hmem ⊢
  constructor
  · intro hle a ha b hb hcandidate hcandidate'
    have hain := (hmem a).mpr ⟨ha, hcandidate⟩
    have hbin := (hmem b).mpr ⟨hb, hcandidate'⟩
    match candidates, hle with
    | [o], _ => rw [List.mem_singleton.mp hain, List.mem_singleton.mp hbin]
  · intro hsame
    match candidates with
    | [] => exact Nat.zero_le _
    | [_] => exact le_rfl
    | a :: b :: rest =>
        have hlt := List.rel_of_pairwise_cons hsorted List.mem_cons_self
        obtain ⟨ha, hcandidate⟩ := (hmem a).mp List.mem_cons_self
        obtain ⟨hb, hcandidate'⟩ := (hmem b).mp (List.mem_cons_of_mem _ List.mem_cons_self)
        have heq := hsame a ha b hb hcandidate hcandidate'
        omega

end Connecting

namespace Registry

/-- **Every observation of an accepted block has its verdict** unless two claims of an open registry
race for a name whose expiry overflows: then the claims that lose the race have none. -/
theorem outcomes_account {r r' : Registry} (hreach : r.Reachable) {height : Nat}
    {observations : List Observation} {block : AppliedBlock}
    (hconnect : r.connectDelta height observations = (.ok block, r')) :
    (keys block.outcomes).Perm (observations.map Observation.key) ↔
      ¬r.Contested height observations := by
  have hindex := hreach.indexExact
  obtain ⟨sorted, hadmits, rfl, _⟩ := connectDelta_eq_ok.mp hconnect
  have hsorted : (sorted.map Observation.key).Perm (observations.map Observation.key) := by
    rw [hadmits.sorted_eq]
    exact (List.perm_insertionSort _ observations).map _
  have hmem : ∀ o, o ∈ sorted ↔ o ∈ observations := by
    intro o
    rw [hadmits.sorted_eq]
    exact mem_sortByPosition
  have hterms := Core.expire_sameTerms hindex height
  have hrules : ((r.toCore.open height).expire height).rules = r.rules := hterms.rules
  show (keys ((r.toCore.open height).applyBlock sorted).2).Perm _ ↔ _
  cases hmode : r.rules.mode with
  | administered =>
      have hperm := @Connecting.administered_keys (r.toCore.open height) sorted
        ((congrArg Genesis.mode hrules).trans hmode)
      constructor
      · rintro _ ⟨hopen, _⟩
        rw [hmode] at hopen
        cases hopen
      · intro _
        exact hperm.trans hsorted
  | «open» =>
      have hstrict := pairwise_of_strictPositions hadmits.strict
      obtain ⟨gathered, hlists, hnames, rest, hkeys, hall⟩ :=
        @Connecting.open_keys (r.toCore.open height) sorted
          ((congrArg Genesis.mode hrules).trans hmode) height
          fun o ho => hadmits.heights o ((hmem o).mp ho)
      have hopened : (r.toCore.open height).height = height := rfl
      rw [hopened] at hlists hnames hkeys
      have hoverflow : ((r.toCore.open height).expire height).expiryAfter height =
          r.expiryAfter height := by
        rw [hterms.expiryAfter]
        rfl
      have hcontested : ¬r.Contested height observations ↔
          (((r.toCore.open height).expire height).expiryAfter height = none →
            ∀ entry ∈ gathered, entry.2.length ≤ 1) := by
        rw [hoverflow]
        constructor
        · intro hnot hnone entry hentry
          rw [hlists entry hentry, Connecting.candidates_length_le_iff hstrict]
          intro a ha b hb hcandidate hcandidate'
          by_contra hne
          exact hnot ⟨hmode, hnone, a, (hmem a).mp ha, b, (hmem b).mp hb, hne, entry.1,
            (Connecting.isCandidate_iff_races hindex).mp hcandidate,
            (Connecting.isCandidate_iff_races hindex).mp hcandidate'⟩
        · rintro hshort ⟨_, hnone, a, ha, b, hb, hne, name, hraces, hraces'⟩
          obtain ⟨i, hi⟩ := List.mem_iff_getElem?.mp ((hmem a).mpr ha)
          have hcandidate := (@Connecting.isCandidate_iff_races r.toCore hindex height name
            (a, i)).mpr hraces
          obtain ⟨entry, hentry, rfl⟩ := List.mem_map.mp (hnames name (a, i)
            (List.mem_zipIdx_iff_getElem?.mpr hi) hcandidate)
          have hone := hshort hnone entry hentry
          rw [hlists entry hentry, Connecting.candidates_length_le_iff hstrict] at hone
          exact hne (hone a ((hmem a).mpr ha) b ((hmem b).mpr hb)
            ((Connecting.isCandidate_iff_races hindex).mpr hraces)
            ((Connecting.isCandidate_iff_races hindex).mpr hraces'))
      rw [hcontested, ← Connecting.answered_length_iff]
      constructor
      · intro hperm
        have hlength := (hkeys.symm.trans (hperm.trans (hsorted.symm.trans hall))).length_eq
        simp only [List.length_append, List.length_map] at hlength
        omega
      · intro hlength
        rw [Connecting.answered_length_iff] at hlength
        rw [Connecting.answered_flatMap hlength] at hkeys
        exact hkeys.trans (hall.symm.trans hsorted)

end Registry

/-! ## Two claims at the end of the heights -/

namespace Sample

/-- Three heights before the last. -/
def lateHeight : Nat := 18446744073709551612

/-- A registry founded there, after the next block. -/
def lateRegistry : Registry :=
  { Core.initial (txid 1) lateHeight openRules with height := lateHeight + 1, undo := [⟨[], []⟩] }

/-- A claim of `a` in the block after that, by the key with the byte. -/
def lateClaim (byte : UInt8) : Observation :=
  { claim with
    txid := txid byte
    author := key byte
    height := lateHeight + 2
    position := byte.toNat
    commit := ⟨txid (byte + 10), 0, lateHeight + 1, byte.toNat⟩ }

/-- Its expiry overflows, and only one of the two claims has a verdict. -/
def lateOutcome : Outcome := ⟨txid 2, 2, .invalid .overflow⟩

theorem lateRegistry_reaches :
    Registry.Reaches (txid 1) lateHeight openRules [⟨lateHeight + 1, []⟩] lateRegistry := by
  have hnew : Registry.new (txid 1) lateHeight openRules =
      .ok { Core.initial (txid 1) lateHeight openRules with undo := [] } := rfl
  have hconnect : (Registry.mk (Core.initial (txid 1) lateHeight openRules) []).connectDelta
      (lateHeight + 1) [] = (.ok ⟨[], ⟨lateHeight + 1, [], []⟩⟩, lateRegistry) :=
    Prod.ext (by decide +kernel) rfl
  exact .connect (.new hnew) hconnect

theorem connectDelta_lateClaims :
    lateRegistry.connectDelta (lateHeight + 2) [lateClaim 2, lateClaim 3] =
      (.ok ⟨[lateOutcome], ⟨lateHeight + 2, [], []⟩⟩,
        (lateRegistry.connectDelta (lateHeight + 2) [lateClaim 2, lateClaim 3]).2) :=
  Prod.ext (by decide +kernel) rfl

end Sample

/-- Of two claims that race for a name at the end of the heights only one has a verdict. -/
theorem Registry.not_outcomes_account :
    ¬∀ r : Registry, r.Reachable → ∀ height observations block r',
      r.connectDelta height observations = (.ok block, r') →
        (keys block.outcomes).Perm (observations.map Observation.key) := by
  intro h
  have hperm := h Sample.lateRegistry Sample.lateRegistry_reaches.reachable _ _ _ _
    Sample.connectDelta_lateClaims
  have hlength := hperm.length_eq
  simp [keys] at hlength

/-- The claim of `a` has its verdict. -/
theorem Registry.outcomes_account_claim :
    (keys [⟨Sample.txid 2, 1, .applied⟩]).Perm ([Sample.claim].map Observation.key) := by
  refine (Registry.outcomes_account Sample.openRegistry_reaches.reachable
    Sample.connectDelta_claim).mpr ?_
  rintro ⟨_, _, a, ha, b, hb, hne, _⟩
  rw [List.mem_singleton] at ha hb
  rw [ha, hb] at hne
  exact hne rfl

end Urma.Names
