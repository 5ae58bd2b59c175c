import Urma.Names.Step

/-!
# The passes of a block are sequences of steps

Each handler of the engine either leaves the registry alone or makes one `Step`. The
loops then give `Steps`, and `applyBlock_steps` puts the four passes of `connect_delta`
together. Every early exit of the source is a case here, once.
-/

namespace Urma.Names

open Std
open Urma.Lib.SecondaryIndex (upTo mem_upTo)

namespace Connecting

variable {c : Connecting} {observation : Observation} {observations : List Observation}

theorem Steps.of_step {c' : Connecting} (hmem : observation ∈ observations)
    (h : Step c (some observation) c') : Steps observations c c' :=
  .single (fun o ho => by cases ho; exact hmem) h

/-! ## Approver records -/

/-- Remembering twice is remembering once, and completing a record only writes its name. -/
private theorem complete_after_remember {record : PendingRecord} {approval : Approval}
    (hcounts : Counts c observation approval record)
    (hquorum : ¬ (endorsed record observation.author).approvals.card <
      c.rules.threshold.toNat) :
    Step c (some observation)
      (((c.rememberPending approval.recordTxid).complete observation approval.recordTxid
        (closed record observation.author)).1.storePending approval.recordTxid
          (closed record observation.author)) := by
  have hclose : Step c (some observation)
      ((c.rememberPending approval.recordTxid).storePending approval.recordTxid
        (closed record observation.author)) := .close hcounts hquorum
  unfold complete
  simp only [rememberPending_toCore]
  rw [show (closed record observation.author).kind = record.kind from rfl]
  cases hkind : record.kind with
  | request =>
      simp only
      split
      · exact hclose
      · next hsuspended =>
        split
        · exact hclose
        · next hbinding =>
          split
          · exact hclose
          · next expiry hexpiry =>
            rw [rememberPending_setName]
            exact .grant hcounts hquorum hkind (Bool.eq_false_of_not_eq_true hsuspended) hbinding
              hexpiry
  | update =>
      simp only
      split
      · exact hclose
      · next bound hbinding =>
        split
        · exact hclose
        · next howner =>
          rw [rememberPending_setName]
          exact .retarget hcounts hquorum hkind hbinding (not_not.mp howner)

theorem approve_step {approval : Approval} (hpayload : observation.payload = .approve approval) :
    (c.approve observation approval).1 = c ∨
      Step c (some observation) (c.approve observation approval).1 := by
  unfold approve
  split
  · exact Or.inl rfl
  · next hadmitted =>
    split
    · exact Or.inl rfl
    · next record hfound =>
      split
      · exact Or.inl rfl
      · next hhash =>
        split
        · exact Or.inl rfl
        · next hincomplete =>
          split
          · exact Or.inl rfl
          · next hfresh =>
            have hcounts : Counts c observation approval record :=
              ⟨hpayload, hadmitted, hfound, not_not.mp hhash, by simpa using hincomplete,
                hfresh⟩
            right
            simp only [rememberPending_toCore]
            split
            · next hbelow => exact .endorse hcounts hbelow
            · next hquorum => exact complete_after_remember hcounts hquorum

theorem vote_step {op : NameOp} {suspend : Bool}
    (hpayload : observation.payload = votePayload op suspend) :
    (c.vote observation op suspend).1 = c ∨
      Step c (some observation) (c.vote observation op suspend).1 := by
  unfold vote
  split
  · exact Or.inl rfl
  · next hadmitted =>
    simp only
    split
    · exact Or.inl rfl
    · next hphase =>
      split
      · exact Or.inl rfl
      · next hfresh => exact Or.inr (.vote hpayload hadmitted hphase hfresh)

theorem approverRecord_step {result : Connecting × Verdict}
    (h : c.approverRecord observation = some result) :
    observation.payload.isApproverOp = true ∧
      (result.1 = c ∨ Step c (some observation) result.1) := by
  unfold approverRecord at h
  cases hpayload : observation.payload with
  | approve approval => rw [hpayload] at h; cases h; exact ⟨rfl, approve_step hpayload⟩
  | suspend op =>
      rw [hpayload] at h; cases h
      exact ⟨rfl, vote_step (by rw [hpayload]; rfl)⟩
  | restore op =>
      rw [hpayload] at h; cases h
      exact ⟨rfl, vote_step (by rw [hpayload]; rfl)⟩
  | genesis rules => rw [hpayload] at h; cases h
  | claim op => rw [hpayload] at h; cases h
  | update op => rw [hpayload] at h; cases h
  | renew op => rw [hpayload] at h; cases h

/-! ## Owner records -/

theorem request_step {op : OwnerOp} (hmode : c.rules.mode = .administered)
    (hpayload : observation.payload = .claim op) :
    (c.request observation op).1 = c ∨
      Step c (some observation) (c.request observation op).1 := by
  unfold request
  split
  · exact Or.inl rfl
  · next hadmitted =>
    split
    · exact Or.inl rfl
    · next htarget => exact Or.inr (.request hmode hpayload hadmitted (by simpa using htarget))

theorem update_step {op : OwnerOp} (hpayload : observation.payload = .update op) :
    (c.update observation op).1 = c ∨
      Step c (some observation) (c.update observation op).1 := by
  unfold update
  split
  · exact Or.inl rfl
  · next hadmitted =>
    simp only
    split
    · exact Or.inl rfl
    · next bound hbinding =>
      split
      · exact Or.inl rfl
      · next howner =>
        split
        · next hmode =>
          exact Or.inr (.update hmode hpayload hadmitted hbinding (not_not.mp howner))
        · next hmode =>
          split
          · exact Or.inl rfl
          · next htarget =>
            exact Or.inr (.propose hmode hpayload hadmitted hbinding (not_not.mp howner)
              (by simpa using htarget))

theorem renew_step {op : OwnerOp} (hpayload : observation.payload = .renew op) :
    (c.renew observation op).1 = c ∨
      Step c (some observation) (c.renew observation op).1 := by
  unfold renew
  split
  · exact Or.inl rfl
  · next hadmitted =>
    split
    · exact Or.inl rfl
    · next expiry hexpiry =>
      simp only
      split
      · exact Or.inl rfl
      · next bound hbinding =>
        split
        · exact Or.inl rfl
        · next howner =>
          split
          · next hmode =>
            exact Or.inr (.renew hpayload hadmitted hexpiry hbinding (not_not.mp howner)
              (fun _ => rfl) (fun h => by rw [hmode] at h; cases h))
          · next hmode =>
            split
            · exact Or.inl rfl
            · next htarget =>
              exact Or.inr (.renew hpayload hadmitted hexpiry hbinding (not_not.mp howner)
                (fun h => by rw [hmode] at h; cases h) (fun _ => ⟨rfl, not_not.mp htarget⟩))

theorem ownerRecord_step {result : Connecting × Verdict}
    (h : c.ownerRecord observation = some result) :
    (!observation.payload.isApproverOp) = true ∧
      (result.1 = c ∨ Step c (some observation) result.1) := by
  unfold ownerRecord at h
  cases hpayload : observation.payload with
  | claim op =>
      rw [hpayload] at h
      cases hmode : c.rules.mode with
      | «open» => simp [hmode] at h
      | administered =>
          simp only [hmode, Option.some.injEq] at h
          subst h
          exact ⟨rfl, request_step hmode hpayload⟩
  | update op => rw [hpayload] at h; cases h; exact ⟨rfl, update_step hpayload⟩
  | renew op => rw [hpayload] at h; cases h; exact ⟨rfl, renew_step hpayload⟩
  | genesis rules => rw [hpayload] at h; cases h; exact ⟨rfl, Or.inl rfl⟩
  | approve approval => rw [hpayload] at h; cases h
  | suspend op => rw [hpayload] at h; cases h
  | restore op => rw [hpayload] at h; cases h

/-! ## The loop over observations -/

/-- What each observation of the block keeps, the loop keeps. The invariant may speak of
the observations already handled. -/
theorem eachRecord_invariant {whole : List Observation}
    {handle : Connecting → Observation → Option (Connecting × Verdict)}
    (inv : List Observation → Connecting → Prop)
    (hskip : ∀ seen o rest c, whole = seen ++ o :: rest → handle c o = none →
      inv seen c → inv (seen ++ [o]) c)
    (hhandle : ∀ seen o rest c result, whole = seen ++ o :: rest → handle c o = some result →
      inv seen c → inv (seen ++ [o]) result.1)
    (c : Connecting) (outcomes : List Outcome) (h : inv [] c) :
    inv whole (eachRecord handle whole (c, outcomes)).1 := by
  suffices hloop : ∀ rest seen c outcomes, whole = seen ++ rest → inv seen c →
      inv whole (eachRecord handle rest (c, outcomes)).1 from hloop whole [] c outcomes rfl h
  intro rest
  induction rest with
  | nil =>
      intro seen c outcomes hwhole hinv
      rw [List.append_nil] at hwhole
      exact hwhole ▸ hinv
  | cons o rest ih =>
      intro seen c outcomes hwhole hinv
      have hnext : whole = (seen ++ [o]) ++ rest := by rw [hwhole, List.append_assoc]; rfl
      unfold eachRecord
      cases hresult : handle c o with
      | none => exact ih _ _ _ hnext (hskip seen o rest c hwhole hresult hinv)
      | some result => exact ih _ _ _ hnext (hhandle seen o rest c result hwhole hresult hinv)

/-- A loop whose handler makes at most one step for each observation it accepts. -/
theorem eachRecord_steps {handle : Connecting → Observation → Option (Connecting × Verdict)}
    {accepts : Observation → Bool}
    (hhandle : ∀ c o result, handle c o = some result →
      accepts o = true ∧ (result.1 = c ∨ Step c (some o) result.1))
    (observations : List Observation) (c : Connecting) (outcomes : List Outcome) :
    Steps (observations.filter accepts) c (eachRecord handle observations (c, outcomes)).1 := by
  refine eachRecord_invariant (fun _ c' => Steps (observations.filter accepts) c c') ?_ ?_
    c outcomes (Steps.refl c)
  · intro _ _ _ _ _ _ hsteps
    exact hsteps
  · intro seen o rest c' result hwhole hresult hsteps
    obtain ⟨haccepts, hstep⟩ := hhandle c' o result hresult
    have hmem : o ∈ observations.filter accepts :=
      List.mem_filter.mpr ⟨by rw [hwhole]; simp, haccepts⟩
    rcases hstep with heq | hstep
    · rw [heq]; exact hsteps
    · exact hsteps.trans (.of_step hmem hstep)

theorem eachRecord_append (handle : Connecting → Observation → Option (Connecting × Verdict))
    (first rest : List Observation) (state : Connecting × List Outcome) :
    eachRecord handle (first ++ rest) state =
      eachRecord handle rest (eachRecord handle first state) := by
  induction first generalizing state with
  | nil => rfl
  | cons o first ih =>
      obtain ⟨c, outcomes⟩ := state
      rw [List.cons_append, eachRecord, eachRecord]
      cases handle c o with
      | none => exact ih _
      | some result => exact ih _

/-- The observations of a block that its approver pass handles. -/
def approverOps (observations : List Observation) : List Observation :=
  observations.filter fun o => o.payload.isApproverOp

/-- The observations of a block that its claim and owner passes handle. -/
def ownerOps (observations : List Observation) : List Observation :=
  observations.filter fun o => !o.payload.isApproverOp

theorem approverRecords_steps (observations : List Observation) (c : Connecting)
    (outcomes : List Outcome) :
    Steps (approverOps observations) c (c.approverRecords observations outcomes).1 :=
  eachRecord_steps (fun _ _ _ => approverRecord_step) observations c outcomes

theorem ownerRecords_steps (observations : List Observation) (c : Connecting)
    (outcomes : List Outcome) :
    Steps (ownerOps observations) c (c.ownerRecords observations outcomes).1 :=
  eachRecord_steps (fun _ _ _ => ownerRecord_step) observations c outcomes

/-! ## Claims

The first loop only reads the registry, so the candidates of a name are the admitted
claims of that name, in block order, provided the name is unbound. The second loop visits
every name once. -/

/-- Does this entry of the block become a candidate for `name`? -/
def isCandidate (c : Connecting) (name : Name) (entry : Observation × Nat) : Bool :=
  match entry.1.payload with
  | .claim op =>
    op.name = name && c.admitObservation entry.1 op.registry = .admitted &&
      (stateOf c.names name).binding = .unbound
  | _ => false

theorem isCandidate_iff {name : Name} {entry : Observation × Nat} :
    c.isCandidate name entry = true ↔
      ∃ op, entry.1.payload = .claim op ∧ op.name = name ∧
        c.admitObservation entry.1 op.registry = .admitted ∧
        (stateOf c.names name).binding = .unbound := by
  unfold isCandidate
  cases entry.1.payload with
  | claim op => simp [and_assoc]
  | genesis rules => simp
  | update op => simp
  | renew op => simp
  | approve approval => simp
  | suspend op => simp
  | restore op => simp

/-- A list as a map entry: the source never stores an empty candidate list. -/
def asEntry {α : Type} : List α → Option (List α)
  | [] => none
  | list => some list

@[simp] theorem asEntry_eq_some {α : Type} {list other : List α} :
    asEntry list = some other ↔ list ≠ [] ∧ list = other := by
  cases list <;> simp [asEntry]

@[simp] theorem asEntry_eq_none {α : Type} {list : List α} :
    asEntry list = none ↔ list = [] := by
  cases list <;> simp [asEntry]

/-- One round adds the entry to the list of the name it is a candidate for. -/
private theorem gatherClaim_get (c : Connecting) (gathered : Candidates × List Outcome)
    (entry : Observation × Nat) (name : Name) (list : List (Observation × Nat))
    (h : gathered.1[name]? = asEntry list) :
    (gatherClaim c gathered entry).1[name]? =
      asEntry (list ++ if c.isCandidate name entry then [entry] else []) := by
  obtain ⟨candidates, outcomes⟩ := gathered
  unfold gatherClaim isCandidate
  cases entry.1.payload with
  | claim op =>
      cases hadmission : c.admitObservation entry.1 op.registry with
      | rejected rejection => simpa [hadmission] using h
      | admitted =>
          cases hbinding : (stateOf c.names op.name).binding with
          | bound bound =>
              by_cases hname : op.name = name
              · subst hname
                simpa [hadmission, hbinding] using h
              · simpa [hadmission, hbinding, hname] using h
          | unbound =>
              by_cases hname : op.name = name
              · subst hname
                simp only [hadmission, hbinding, decide_true, Bool.and_self, if_true]
                simp only at h
                rw [h]
                cases list with
                | nil => simp [asEntry]
                | cons first rest => simp [asEntry]
              · simp only [hadmission, hbinding, hname, decide_false, Bool.false_and]
                simp only [Bool.false_eq_true, if_false, List.append_nil]
                rw [← h]
                split <;> simp [ExtTreeMap.getElem?_insert, hname]
  | genesis rules => simpa using h
  | update op => simpa using h
  | renew op => simpa using h
  | approve approval => simpa using h
  | suspend op => simpa using h
  | restore op => simpa using h

/-- **What the first loop gathers**: for each name, its candidates in block order. -/
theorem gatherClaim_foldl_get (c : Connecting) (entries : List (Observation × Nat))
    (gathered : Candidates × List Outcome) (name : Name) (list : List (Observation × Nat))
    (h : gathered.1[name]? = asEntry list) :
    (entries.foldl (gatherClaim c) gathered).1[name]? =
      asEntry (list ++ entries.filter (c.isCandidate name)) := by
  induction entries generalizing gathered list with
  | nil => simpa using h
  | cons entry rest ih =>
      rw [List.foldl_cons, ih _ _ (gatherClaim_get c gathered entry name list h)]
      rw [List.filter_cons, List.append_assoc]
      split <;> simp

/-- The candidates gathered from a block. -/
def gatheredClaims (c : Connecting) (observations : List Observation)
    (outcomes : List Outcome) : Candidates :=
  (observations.zipIdx.foldl (gatherClaim c) (∅, outcomes)).1

theorem gatheredClaims_get (c : Connecting) (observations : List Observation)
    (outcomes : List Outcome) (name : Name) :
    (c.gatheredClaims observations outcomes)[name]? =
      asEntry (observations.zipIdx.filter (c.isCandidate name)) :=
  gatherClaim_foldl_get c observations.zipIdx (∅, outcomes) name [] (by simp [asEntry])

/-- A gathered candidate is an admitted claim of its name, and the name is unbound. -/
theorem of_mem_gatheredClaims {outcomes : List Outcome} {name : Name}
    {list : List (Observation × Nat)}
    (h : (name, list) ∈ (c.gatheredClaims observations outcomes).toList) :
    list ≠ [] ∧ list = observations.zipIdx.filter (c.isCandidate name) := by
  rw [ExtTreeMap.mem_toList_iff_getElem?_eq_some, gatheredClaims_get,
    asEntry_eq_some] at h
  exact ⟨h.2 ▸ h.1, h.2.symm⟩

theorem assign_step {name : Name} {list : List (Observation × Nat)} {outcomes : List Outcome}
    {start : Connecting} (hmode : c.rules.mode = .«open»)
    (hterms : SameTerms start.toCore c.toCore)
    (hlist : ∀ entry ∈ list, start.isCandidate name entry = true)
    (hmem : ∀ entry ∈ list, entry.1 ∈ observations)
    (hname : stateOf c.names name = stateOf start.names name) :
    Steps observations c (c.assign name list outcomes).1 := by
  unfold assign
  cases hwinner : list.argmin (fun entry => commitKey entry.1) with
  | none => exact Steps.refl c
  | some winner =>
      have hin : winner ∈ list := List.argmin_mem hwinner
      obtain ⟨op, hpayload, rfl, hadmission, hunbound⟩ := isCandidate_iff.mp (hlist winner hin)
      simp only [hpayload]
      cases hexpiry : c.expiryAfter winner.1.height with
      | none => exact Steps.refl c
      | some expiry =>
          refine .of_step (hmem winner hin) (.claim hmode hpayload ?_ ?_ hexpiry)
          · rw [hterms.admitObservation]; exact hadmission
          · rw [hname]; exact hunbound

/-- Assigning one name leaves every other name alone. -/
theorem assign_names_of_ne {name other : Name} (hne : name ≠ other)
    (list : List (Observation × Nat)) (outcomes : List Outcome) :
    (c.assign name list outcomes).1.names[other]? = c.names[other]? := by
  unfold assign
  split
  · rfl
  · simp only
    split
    · split
      · rfl
      · simp [ExtTreeMap.getElem?_insert, hne]
    · rfl

theorem stateOf_congr {names names' : ExtTreeMap Name NameState} {name : Name}
    (h : names[name]? = names'[name]?) : stateOf names name = stateOf names' name := by
  unfold stateOf; rw [h]

/-- The second loop: entries with distinct names, each still in its starting state. -/
theorem assignEntry_foldl_steps {start : Connecting}
    {entries : List (Name × List (Observation × Nat))}
    (hdistinct : (entries.map Prod.fst).Nodup)
    (hlist : ∀ entry ∈ entries, ∀ candidate ∈ entry.2,
      start.isCandidate entry.1 candidate = true ∧ candidate.1 ∈ observations)
    (c : Connecting) (outcomes : List Outcome) (hmode : c.rules.mode = .«open»)
    (hterms : SameTerms start.toCore c.toCore)
    (hnames : ∀ entry ∈ entries, stateOf c.names entry.1 = stateOf start.names entry.1) :
    Steps observations c (entries.foldl assignEntry (c, outcomes)).1 := by
  induction entries generalizing c outcomes with
  | nil => exact Steps.refl c
  | cons entry rest ih =>
      rw [List.map_cons, List.nodup_cons] at hdistinct
      have hfirst : Steps observations c (c.assign entry.1 entry.2 outcomes).1 :=
        assign_step hmode hterms
          (fun candidate h => (hlist entry List.mem_cons_self candidate h).1)
          (fun candidate h => (hlist entry List.mem_cons_self candidate h).2)
          (hnames entry List.mem_cons_self)
      refine hfirst.trans (ih hdistinct.2
        (fun e he => hlist e (List.mem_cons_of_mem _ he)) _ _ ?_
        (hterms.trans hfirst.sameTerms) ?_)
      · rw [hfirst.sameTerms.rules]; exact hmode
      · intro e he
        have hne : entry.1 ≠ e.1 := fun heq => hdistinct.1 (heq ▸ List.mem_map_of_mem he)
        rw [stateOf_congr (assign_names_of_ne hne entry.2 outcomes)]
        exact hnames e (List.mem_cons_of_mem _ he)

/-- The names of a tree map's entries are distinct. -/
theorem toList_keys_nodup {V : Type} (table : ExtTreeMap Name V) :
    (table.toList.map Prod.fst).Nodup := by
  rw [List.Nodup, List.pairwise_map]
  refine table.distinct_keys_toList.imp ?_
  intro a b hne heq
  exact hne (by rw [heq]; exact ReflOrd.compare_self)

theorem claims_steps (hmode : c.rules.mode = .«open») (observations : List Observation)
    (outcomes : List Outcome) :
    Steps (ownerOps observations) c (c.claims observations outcomes).1 := by
  show Steps (ownerOps observations) c
    ((c.gatheredClaims observations outcomes).toList.foldl assignEntry (c, _)).1
  refine assignEntry_foldl_steps (toList_keys_nodup _) ?_ c _ hmode (SameTerms.refl _)
    (fun _ _ => rfl)
  rintro ⟨name, list⟩ hentry candidate hcandidate
  obtain ⟨_, hlist⟩ := of_mem_gatheredClaims hentry
  rw [hlist, List.mem_filter] at hcandidate
  obtain ⟨op, hpayload, _⟩ := isCandidate_iff.mp hcandidate.2
  exact ⟨hcandidate.2, List.mem_filter.mpr
    ⟨List.fst_mem_of_mem_zipIdx hcandidate.1, by rw [hpayload]; rfl⟩⟩

/-! ## Expiry -/

/-- The entries `expire` visits, in index order. -/
def due (c : Connecting) (height : Nat) : List (Nat × Name) :=
  upTo c.expiries (fun expiry => expiry ≤ height)

theorem mem_due (hindex : c.IndexExact) {height expiry : Nat} {name : Name} :
    (expiry, name) ∈ c.due height ↔
      ∃ bound, (stateOf c.names name).binding = .bound bound ∧ bound.expiry = expiry ∧
        expiry ≤ height := by
  unfold due
  rw [mem_upTo, hindex.mem_iff, decide_eq_true_eq]
  · constructor
    · rintro ⟨⟨bound, hbinding, hexpiry⟩, hle⟩; exact ⟨bound, hbinding, hexpiry, hle⟩
    · rintro ⟨bound, hbinding, hexpiry, hle⟩; exact ⟨⟨bound, hbinding, hexpiry⟩, hle⟩
  · intro a b hab hb
    rw [decide_eq_true_eq] at hb ⊢
    exact (Nat.isLE_compare.mp hab).trans hb

/-- A name is bound until one height only, so it is due once. -/
theorem due_names_nodup (hindex : c.IndexExact) (height : Nat) :
    ((c.due height).map Prod.snd).Nodup := by
  refine List.Nodup.map_on ?_ (Lib.SecondaryIndex.upTo_nodup _ _)
  rintro ⟨e₁, n₁⟩ h₁ ⟨e₂, n₂⟩ h₂ hname
  obtain ⟨b₁, hb₁, he₁, _⟩ := (mem_due hindex).mp h₁
  obtain ⟨b₂, hb₂, he₂, _⟩ := (mem_due hindex).mp h₂
  simp only at hname
  subst hname
  rw [hb₁] at hb₂
  cases hb₂
  rw [← he₁, ← he₂]

/-- Releasing one name: what `expireEntry` does to a name that is bound. -/
theorem expireEntry_of_bound {entry : Nat × Name} {bound : Bound}
    (h : (stateOf c.names entry.2).binding = .bound bound) :
    c.expireEntry entry =
      c.setName entry.2 { stateOf c.names entry.2 with binding := .unbound } := by
  unfold expireEntry
  simp only [h]

/-- The sweep visits distinct bound names, so its `Unbound` branch is never taken and
every round is a step. -/
theorem expireEntry_foldl_steps {entries : List (Nat × Name)}
    (hdistinct : (entries.map Prod.snd).Nodup) (c : Connecting)
    (hbound : ∀ entry ∈ entries, ∃ bound,
      (stateOf c.names entry.2).binding = .bound bound ∧ bound.expiry ≤ c.height) :
    Steps [] c (entries.foldl expireEntry c) := by
  induction entries generalizing c with
  | nil => exact Steps.refl c
  | cons entry rest ih =>
      rw [List.map_cons, List.nodup_cons] at hdistinct
      obtain ⟨bound, hbinding, hle⟩ := hbound entry List.mem_cons_self
      have hfirst : Steps [] c (c.expireEntry entry) := by
        rw [expireEntry_of_bound hbinding]
        exact .single (fun o ho => by cases ho) (.expire hbinding hle)
      refine hfirst.trans (ih hdistinct.2 _ ?_)
      intro e he
      obtain ⟨bound', hbinding', hle'⟩ := hbound e (List.mem_cons_of_mem _ he)
      have hne : entry.2 ≠ e.2 := fun heq => hdistinct.1 (heq ▸ List.mem_map_of_mem he)
      rw [expireEntry_of_bound hbinding]
      exact ⟨bound', by rw [stateOf_setName_of_ne c hne]; exact hbinding', by simpa using hle'⟩

theorem expire_steps (hindex : c.IndexExact) : Steps [] c (c.expire c.height) := by
  refine expireEntry_foldl_steps (due_names_nodup hindex c.height) c ?_
  rintro ⟨expiry, name⟩ hentry
  obtain ⟨bound, hbinding, hexpiry, hle⟩ := (mem_due hindex).mp hentry
  exact ⟨bound, hbinding, hexpiry ▸ hle⟩

/-! ## The whole block -/

theorem Steps.weaken {wider : List Observation} {c' : Connecting}
    (hsub : ∀ o ∈ observations, o ∈ wider) (h : Steps observations c c') :
    Steps wider c c' := by
  refine Relation.ReflTransGen.mono ?_ _ _ h
  rintro a b ⟨trigger, hmem, hstep⟩
  exact ⟨trigger, fun o ho => hsub o (hmem o ho), hstep⟩

/-- The registry between the approver pass and the other two. -/
def afterApprovers (c : Connecting) (observations : List Observation) : Connecting :=
  ((c.expire c.height).approverRecords observations []).1

/-- The claim and owner passes. -/
theorem applyBlock_steps_owner (c : Connecting) (observations : List Observation) :
    Steps (ownerOps observations) (c.afterApprovers observations)
      (c.applyBlock observations).1 := by
  unfold applyBlock afterApprovers
  simp only
  split
  · next hmode =>
    exact (claims_steps hmode observations _).trans (ownerRecords_steps observations _ _)
  · exact ownerRecords_steps observations _ _

/-- The passes after the sweep. -/
theorem applyBlock_steps_expire (c : Connecting) (observations : List Observation) :
    Steps observations (c.expire c.height) (c.applyBlock observations).1 := by
  have happrove := approverRecords_steps observations (c.expire c.height) []
  exact (happrove.weaken (fun _ h => List.mem_of_mem_filter h)).trans
    ((applyBlock_steps_owner c observations).weaken (fun _ h => List.mem_of_mem_filter h))

/-- **A block is a sequence of steps.** -/
theorem applyBlock_steps (hindex : c.IndexExact) (observations : List Observation) :
    Steps observations c (c.applyBlock observations).1 :=
  ((expire_steps hindex).weaken (fun _ h => absurd h List.not_mem_nil)).trans
    (applyBlock_steps_expire c observations)

end Connecting

/-- The sweep of a block keeps its terms. -/
theorem Core.expire_sameTerms {c : Core} (hindex : c.IndexExact) (height : Nat) :
    SameTerms (c.open height).toCore ((c.open height).expire height).toCore :=
  (Connecting.expire_steps (c := c.open height) hindex).sameTerms

end Urma.Names
