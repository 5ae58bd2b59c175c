import Urma.Names.Outcomes

/-!
# Who gets a name

In an open registry a free name goes to the oldest commit among the claims of a block, however
the reveals are ordered. The winner is applied, the other claims have lost the race, and claims of
a bound name are inert. The order in which the caller lists a block decides nothing.
-/

namespace Urma.Names

open Std

/-- The observation claims the name, and the registry admits it. -/
def Core.Claims (self : Core) (name : Name) (o : Observation) : Prop :=
  ∃ op, o.payload = .claim op ∧ op.name = name ∧
    self.admitObservation o op.registry = .admitted

/-- Different claims spend different commit outputs; an output is known by the place of its
transaction and its index. -/
def DistinctCommits (observations : List Observation) : Prop :=
  ∀ a ∈ observations, ∀ b ∈ observations, Connecting.isClaim a = true →
    Connecting.isClaim b = true → commitKey a = commitKey b → a = b

/-! ## The order of a block -/

section Order

variable {xs ys : List Observation}

theorem strictPositions_of_pairwise
    (h : xs.Pairwise fun a b => a.position < b.position) : strictPositions xs = true := by
  induction xs with
  | nil => rfl
  | cons a rest ih =>
      cases rest with
      | nil => rfl
      | cons b rest =>
          obtain ⟨hfirst, hrest⟩ := List.pairwise_cons.mp h
          unfold strictPositions
          rw [Bool.and_eq_true, decide_eq_true_eq]
          exact ⟨hfirst b List.mem_cons_self, ih hrest⟩

/-- **A block passes the order check** when no two observations share a position. -/
theorem strictPositions_sort_iff :
    strictPositions (sortByPosition xs) = true ↔ (xs.map Observation.position).Nodup := by
  have hperm : ((sortByPosition xs).map Observation.position).Perm
      (xs.map Observation.position) := (List.perm_insertionSort _ xs).map _
  constructor
  · intro h
    rw [← hperm.nodup_iff, List.Nodup, List.pairwise_map]
    exact (pairwise_of_strictPositions h).imp fun hlt => Nat.ne_of_lt hlt
  · intro h
    rw [← hperm.nodup_iff, List.Nodup, List.pairwise_map] at h
    have htotal : Std.Total fun a b : Observation => a.position ≤ b.position :=
      ⟨fun a b => Nat.le_total a.position b.position⟩
    have htrans : IsTrans Observation fun a b => a.position ≤ b.position :=
      ⟨fun _ _ _ hab hbc => Nat.le_trans hab hbc⟩
    have hsorted := List.pairwise_insertionSort
      (fun a b : Observation => a.position ≤ b.position) xs
    apply strictPositions_of_pairwise
    exact (hsorted.and h).imp fun hboth => Nat.lt_of_le_of_ne hboth.1 hboth.2

/-- The sorted block is the same for every order of the observations. -/
theorem sortByPosition_perm (h : xs.Perm ys) (hx : (xs.map Observation.position).Nodup) :
    sortByPosition ys = sortByPosition xs := by
  have hpx := pairwise_of_strictPositions (strictPositions_sort_iff.mpr hx)
  have hpy := pairwise_of_strictPositions
    (strictPositions_sort_iff.mpr ((h.map Observation.position).nodup_iff.mp hx))
  have hperm : (sortByPosition ys).Perm (sortByPosition xs) :=
    (List.perm_insertionSort _ ys).trans (h.symm.trans (List.perm_insertionSort _ xs).symm)
  apply hperm.eq_of_pairwise ?_ hpy hpx
  intro a b _ _ hab hba
  exact absurd hab (Nat.lt_asymm hba)

/-- The checks of a block do not depend on how it is listed. -/
theorem Core.admitBlock_perm (core : Core) (height : Nat) (h : xs.Perm ys) :
    core.admitBlock height ys = core.admitBlock height xs := by
  unfold Core.admitBlock
  cases checkedAdd core.height 1 with
  | none => rfl
  | some expected =>
      have hall : (ys.all fun observation => observation.height == height) =
          xs.all fun observation => observation.height == height := h.symm.all_eq
      by_cases hnodup : (xs.map Observation.position).Nodup
      · rw [sortByPosition_perm h hnodup, hall]
      · have hx : strictPositions (sortByPosition xs) = false :=
          Bool.eq_false_of_not_eq_true fun hstrict => hnodup (strictPositions_sort_iff.mp hstrict)
        have hy : strictPositions (sortByPosition ys) = false := by
          apply Bool.eq_false_of_not_eq_true
          intro hstrict
          exact hnodup ((h.map Observation.position).nodup_iff.mpr
            (strictPositions_sort_iff.mp hstrict))
        simp only [hx, hy, hall, ensure_false, Except.error_bind]

/-- **A block is connected alike however it is listed.** -/
theorem Registry.connectDelta_perm (r : Registry) (height : Nat) (h : xs.Perm ys) :
    r.connectDelta height ys = r.connectDelta height xs := by
  rw [connectDelta, connectDelta, r.toCore.admitBlock_perm height h]

end Order

namespace Connecting

variable {c : Connecting} {observations : List Observation} {outcomes : List Outcome}

/-! ## Outcomes only grow -/

theorem eachRecord_subset (handle : Connecting → Observation → Option (Connecting × Verdict))
    (observations : List Observation) (c : Connecting) (outcomes : List Outcome) :
    outcomes ⊆ (eachRecord handle observations (c, outcomes)).2 := by
  induction observations generalizing c outcomes with
  | nil => exact List.Subset.refl _
  | cons o rest ih =>
      rw [eachRecord]
      cases handle c o with
      | none => exact ih c outcomes
      | some result =>
          exact List.Subset.trans (List.subset_append_left _ _) (ih result.1 _)

theorem gatherClaim_subset (c : Connecting) (gathered : Candidates × List Outcome)
    (entry : Observation × Nat) : gathered.2 ⊆ (gatherClaim c gathered entry).2 := by
  obtain ⟨candidates, outcomes⟩ := gathered
  unfold gatherClaim
  cases entry.1.payload with
  | claim op =>
      simp only
      split
      · exact List.subset_append_left _ _
      · split
        · exact List.subset_append_left _ _
        · split <;> exact List.Subset.refl _
  | genesis rules => exact List.Subset.refl _
  | update op => exact List.Subset.refl _
  | renew op => exact List.Subset.refl _
  | approve approval => exact List.Subset.refl _
  | suspend op => exact List.Subset.refl _
  | restore op => exact List.Subset.refl _

theorem gatherClaim_foldl_subset (c : Connecting) (entries : List (Observation × Nat))
    (gathered : Candidates × List Outcome) :
    gathered.2 ⊆ (entries.foldl (gatherClaim c) gathered).2 := by
  induction entries generalizing gathered with
  | nil => exact List.Subset.refl _
  | cons entry rest ih => exact List.Subset.trans (gatherClaim_subset c gathered entry) (ih _)

theorem assign_subset (c : Connecting) (name : Name) (list : List (Observation × Nat))
    (outcomes : List Outcome) : outcomes ⊆ (c.assign name list outcomes).2 := by
  unfold assign
  split
  · exact List.Subset.refl _
  · simp only
    split
    · split
      · exact List.subset_append_left _ _
      · exact List.subset_append_left _ _
    · exact List.Subset.refl _

theorem assignEntry_foldl_subset (entries : List (Name × List (Observation × Nat)))
    (c : Connecting) (outcomes : List Outcome) :
    outcomes ⊆ (entries.foldl assignEntry (c, outcomes)).2 := by
  induction entries generalizing c outcomes with
  | nil => exact List.Subset.refl _
  | cons entry rest ih =>
      exact List.Subset.trans (assign_subset c entry.1 entry.2 outcomes)
        (ih (c.assign entry.1 entry.2 outcomes).1 _)

/-! ## The claims pass -/

/-- An admitted claim of a bound name is inert. -/
theorem mem_gatherClaim_foldl {entries : List (Observation × Nat)} {entry : Observation × Nat}
    {op : OwnerOp} {bound : Bound} (hmem : entry ∈ entries) (hpayload : entry.1.payload = .claim op)
    (hadmitted : c.admitObservation entry.1 op.registry = .admitted)
    (hbound : (stateOf c.names op.name).binding = .bound bound)
    (gathered : Candidates × List Outcome) :
    Outcome.new entry.1 (.inert .nameBound) ∈ (entries.foldl (gatherClaim c) gathered).2 := by
  induction entries generalizing gathered with
  | nil => cases hmem
  | cons first rest ih =>
      rw [List.foldl_cons]
      rcases List.mem_cons.mp hmem with rfl | hrest
      · apply gatherClaim_foldl_subset
        simp [gatherClaim, hpayload, hadmitted, hbound]
      · exact ih hrest _

/-- **A race answers every claim of its name.** -/
theorem mem_assign {name : Name} {list : List (Observation × Nat)} {winner entry : Observation × Nat}
    {op : OwnerOp} {expiry : Nat} (hwinner : list.argmin (fun e => commitKey e.1) = some winner)
    (hpayload : winner.1.payload = .claim op)
    (hexpiry : c.expiryAfter winner.1.height = some expiry) (hmem : entry ∈ list) :
    Outcome.new entry.1 (if entry.2 = winner.2 then .applied else .inert .lostRace) ∈
      (c.assign name list outcomes).2 := by
  unfold assign
  simp only [hwinner, hpayload, hexpiry]
  exact List.mem_append_right _ (List.mem_map.mpr ⟨entry, hmem, rfl⟩)

theorem mem_assignEntry_foldl {start : Connecting} {name : Name}
    {list : List (Observation × Nat)} {winner entry : Observation × Nat} {op : OwnerOp}
    {expiry : Nat} {entries : List (Name × List (Observation × Nat))}
    (hentry : (name, list) ∈ entries)
    (hwinner : list.argmin (fun e => commitKey e.1) = some winner)
    (hpayload : winner.1.payload = .claim op)
    (hexpiry : start.expiryAfter winner.1.height = some expiry) (hmem : entry ∈ list)
    (hterms : SameTerms start.toCore c.toCore) :
    Outcome.new entry.1 (if entry.2 = winner.2 then .applied else .inert .lostRace) ∈
      (entries.foldl assignEntry (c, outcomes)).2 := by
  induction entries generalizing c outcomes with
  | nil => cases hentry
  | cons first rest ih =>
      rw [List.foldl_cons]
      rcases List.mem_cons.mp hentry with rfl | hrest
      · apply assignEntry_foldl_subset rest (c.assign name list outcomes).1
        exact mem_assign hwinner hpayload (by rw [hterms.expiryAfter]; exact hexpiry) hmem
      · exact @ih (c.assign first.1 first.2 outcomes).1 (c.assign first.1 first.2 outcomes).2 hrest
          (hterms.trans (assign_sameTerms c first.1 first.2 outcomes).1)

/-- A name with candidates is visited by the second loop. -/
theorem mem_gatheredClaims {name : Name} {entry : Observation × Nat}
    (hmem : entry ∈ observations.zipIdx.filter (c.isCandidate name)) :
    (name, observations.zipIdx.filter (c.isCandidate name)) ∈
      (c.gatheredClaims observations outcomes).toList := by
  rw [ExtTreeMap.mem_toList_iff_getElem?_eq_some, gatheredClaims_get, asEntry_eq_some]
  exact ⟨List.ne_nil_of_mem hmem, rfl⟩

/-- **The winner of a name**: its binding, and the verdicts of the candidates. -/
theorem claims_winner {name : Name} {winner : Observation × Nat} {op : OwnerOp} {expiry : Nat}
    (hwinner : (observations.zipIdx.filter (c.isCandidate name)).argmin
      (fun e => commitKey e.1) = some winner)
    (hpayload : winner.1.payload = .claim op)
    (hexpiry : c.expiryAfter winner.1.height = some expiry) :
    (stateOf (c.claims observations outcomes).1.names name).binding =
        .bound (firstBinding winner.1.author (targetOf op) expiry winner.1.txid winner.1.txid) ∧
      ∀ entry ∈ observations.zipIdx.filter (c.isCandidate name),
        Outcome.new entry.1 (if entry.2 = winner.2 then .applied else .inert .lostRace) ∈
          (c.claims observations outcomes).2 := by
  constructor
  · rw [stateOf_congr (claims_get c observations outcomes name)]
    unfold assign
    simp only [hwinner, hpayload, hexpiry, stateOf_setName_self]
    rfl
  · intro entry hentry
    exact mem_assignEntry_foldl (mem_gatheredClaims (List.argmin_mem hwinner)) hwinner hpayload
      hexpiry hentry (SameTerms.refl _)

/-! ## One verdict for each position -/

theorem answered_sublist (c : Connecting) (height : Nat) (list : List (Observation × Nat)) :
    (c.answered height list).Sublist list := by
  unfold answered
  split
  · cases hwinner : list.argmin (fun entry => commitKey entry.1) with
    | none => exact List.nil_sublist _
    | some winner => exact List.singleton_sublist.mpr (List.argmin_mem hwinner)
  · exact List.Sublist.refl _

theorem answered_flatMap_sublist (c : Connecting) (height : Nat)
    (entries : List (Name × List (Observation × Nat))) :
    (entries.flatMap fun entry => c.answered height entry.2).Sublist
      (entries.flatMap Prod.snd) := by
  induction entries with
  | nil => exact List.Sublist.refl _
  | cons entry rest ih =>
      rw [List.flatMap_cons, List.flatMap_cons]
      exact (c.answered_sublist height entry.2).append ih

/-- **No position of an open block has two verdicts.** -/
theorem open_positions_nodup (hmode : (c.expire c.height).rules.mode = .«open») {height : Nat}
    (hheight : ∀ o ∈ observations, o.height = height)
    (hstrict : strictPositions observations = true) :
    ((c.applyBlock observations).2.map Outcome.position).Nodup := by
  obtain ⟨gathered, _, _, rest, hkeys, hall⟩ := open_keys hmode hheight
  have hpositions : ((observations.map Observation.key).map Prod.fst).Nodup := by
    rw [List.map_map, List.Nodup, List.pairwise_map]
    exact (pairwise_of_strictPositions hstrict).imp fun hlt => Nat.ne_of_lt hlt
  have hwhole := ((hall.map Prod.fst).nodup_iff.mp hpositions)
  have hsub : (rest ++ (gathered.flatMap fun entry =>
      (c.expire c.height).answered height entry.2).map entryKey).Sublist
        (rest ++ (gathered.flatMap Prod.snd).map entryKey) :=
    List.Sublist.append_left ((answered_flatMap_sublist _ height gathered).map entryKey) rest
  have hanswered := (hkeys.map Prod.fst).nodup_iff.mpr ((hsub.map Prod.fst).nodup hwhole)
  rw [keys, List.map_map] at hanswered
  exact hanswered

end Connecting

/-! ## The allocation -/

/-- The observation has this verdict, and no other. -/
def Judged (outcomes : List Outcome) (o : Observation) (verdict : Verdict) : Prop :=
  outcomes.filter (fun outcome => outcome.position = o.position) = [Outcome.new o verdict]

/-- Where no position has two outcomes, a verdict is the only one of its observation. -/
theorem Judged.of_mem {outcomes : List Outcome} {o : Observation} {verdict : Verdict}
    (hnodup : (outcomes.map Outcome.position).Nodup) (hmem : Outcome.new o verdict ∈ outcomes) :
    Judged outcomes o verdict := by
  rw [Judged, ← List.perm_singleton, List.perm_ext_iff_of_nodup (hnodup.of_map.filter _)
    (List.nodup_singleton _)]
  intro outcome
  rw [List.mem_filter, decide_eq_true_eq, List.mem_singleton]
  constructor
  · rintro ⟨houtcome, hposition⟩
    exact List.inj_on_of_nodup_map hnodup houtcome hmem hposition
  · rintro rfl
    exact ⟨hmem, rfl⟩

/-- The registry between the claims pass and the owner pass of an open block. -/
def Connecting.afterClaims (c : Connecting) (observations : List Observation) : Connecting :=
  let (passed, outcomes) := (c.expire c.height).approverRecords observations []
  (passed.claims observations outcomes).1

/-- The candidates for a name after the sweep are its admitted claims, if it is free. -/
theorem Core.isCandidate_iff_claims {core : Core} (hindex : core.IndexExact) {height i : Nat}
    {name : Name} {o : Observation} :
    ((core.open height).expire height).isCandidate name (o, i) = true ↔
      core.Claims name o ∧
        (stateOf ((core.open height).expire height).names name).binding = .unbound := by
  have hadmits : ∀ o registry, ((core.open height).expire height).admitObservation o registry =
      core.admitObservation o registry := by
    intro o registry
    rw [(Core.expire_sameTerms hindex height).admitObservation]
    rfl
  rw [Connecting.isCandidate_iff]
  simp only [hadmits, Core.Claims]
  constructor
  · rintro ⟨op, hpayload, hname, hadmitted, hfree⟩
    exact ⟨⟨op, hpayload, hname, hadmitted⟩, hfree⟩
  · rintro ⟨⟨op, hpayload, hname, hadmitted⟩, hfree⟩
    exact ⟨op, hpayload, hname, hadmitted, hfree⟩

namespace Registry

/-- **Open allocation.** A free name with an admitted claim goes to the oldest commit; that claim is
applied, the other admitted claims of the name have lost the race, and admitted claims of a bound
name are inert. The order in which a block is listed changes nothing. -/
theorem open_allocation {r r' : Registry} (hreach : r.Reachable) (hmode : r.rules.mode = .«open»)
    {height : Nat} {observations : List Observation} {block : AppliedBlock}
    (hconnect : r.connectDelta height observations = (.ok block, r'))
    (hcommits : DistinctCommits observations) :
    (∀ name expiry,
      (stateOf ((r.toCore.open height).expire height).names name).binding = .unbound →
      r.expiryAfter height = some expiry → (∃ o ∈ observations, r.Claims name o) →
      ∃ w ∈ observations, ∃ op, w.payload = .claim op ∧ r.Claims name w ∧
        (∀ o ∈ observations, r.Claims name o → o ≠ w → commitKey w < commitKey o) ∧
        (stateOf ((r.toCore.open height).afterClaims (sortByPosition observations)).names
          name).binding =
            .bound (Connecting.firstBinding w.author (targetOf op) expiry w.txid w.txid) ∧
        Judged block.outcomes w .applied ∧
        ∀ o ∈ observations, r.Claims name o → o ≠ w →
          Judged block.outcomes o (.inert .lostRace)) ∧
    (∀ name bound,
      (stateOf ((r.toCore.open height).expire height).names name).binding = .bound bound →
      ∀ o ∈ observations, r.Claims name o → Judged block.outcomes o (.inert .nameBound)) ∧
    ∀ others, observations.Perm others →
      r.connectDelta height others = r.connectDelta height observations := by
  have hindex := hreach.indexExact
  obtain ⟨sorted, hadmits, rfl, _⟩ := connectDelta_eq_ok.mp hconnect
  have hmem : ∀ o, o ∈ sorted ↔ o ∈ observations := by
    intro o
    rw [hadmits.sorted_eq]
    exact mem_sortByPosition
  have hterms := Core.expire_sameTerms hindex height
  have hswept : ((r.toCore.open height).expire height).rules.mode = .«open» :=
    (congrArg Genesis.mode hterms.rules).trans hmode
  obtain ⟨answers, hanswers⟩ : ∃ answers,
    answers = (((r.toCore.open height).expire height).approverRecords sorted []).2 := ⟨_, rfl⟩
  have hblock := @Connecting.applyBlock_open (r.toCore.open height) sorted hswept answers hanswers
  have hnodup := @Connecting.open_positions_nodup (r.toCore.open height) sorted hswept height
    (fun o ho => hadmits.heights o ((hmem o).mp ho)) hadmits.strict
  -- what the claims pass answers is among the outcomes of the block
  have hanswered : ((((r.toCore.open height).expire height).claims sorted answers).2) ⊆
      ((r.toCore.open height).applyBlock sorted).2 := by
    rw [hblock]
    exact Connecting.eachRecord_subset _ _ _ _
  have hentry : ∀ o ∈ observations, ∃ i, (o, i) ∈ sorted.zipIdx := by
    intro o ho
    obtain ⟨i, hi⟩ := List.mem_iff_getElem?.mp ((hmem o).mpr ho)
    exact ⟨i, List.mem_zipIdx_iff_getElem?.mpr hi⟩
  have hsource : ∀ {o : Observation} {i : Nat}, (o, i) ∈ sorted.zipIdx → o ∈ observations :=
    fun hi => (hmem _).mp (List.fst_mem_of_mem_zipIdx hi)
  refine ⟨?_, ?_, fun others hperm => r.connectDelta_perm height hperm⟩
  · rintro name expiry hfree hexpiry ⟨claim, hclaim, hclaims⟩
    obtain ⟨swept, hsame⟩ : ∃ swept, swept = (r.toCore.open height).expire height := ⟨_, rfl⟩
    have hcandidate : ∀ {o : Observation} {i : Nat}, (o, i) ∈ sorted.zipIdx → r.Claims name o →
        (o, i) ∈ sorted.zipIdx.filter (swept.isCandidate name) := by
      intro o i hi ho
      rw [hsame]
      exact List.mem_filter.mpr ⟨hi, (Core.isCandidate_iff_claims hindex).mpr ⟨ho, hfree⟩⟩
    obtain ⟨i, hi⟩ := hentry claim hclaim
    cases hwinner : (sorted.zipIdx.filter (swept.isCandidate name)).argmin
        (fun e => commitKey e.1) with
    | none =>
        have hnone := hcandidate hi hclaims
        rw [List.argmin_eq_none.mp hwinner] at hnone
        cases hnone
    | some winner =>
        obtain ⟨w, j⟩ := winner
        have hin := List.argmin_mem hwinner
        obtain ⟨hj, hwcandidate⟩ := List.mem_filter.mp hin
        rw [hsame] at hwcandidate
        have hwclaims := ((Core.isCandidate_iff_claims hindex).mp hwcandidate).1
        obtain ⟨op, hpayload, _⟩ := id hwclaims
        have hwin := hsource hj
        have hexpiry' : swept.expiryAfter w.height = some expiry := by
          rw [hsame, hterms.expiryAfter, hadmits.heights w hwin]
          exact hexpiry
        obtain ⟨hbinding, hverdicts⟩ :=
          @Connecting.claims_winner swept sorted answers name (w, j) op expiry hwinner hpayload
            hexpiry'
        have hverdict : ∀ o ∈ observations, r.Claims name o →
            ∃ k, (o, k) ∈ sorted.zipIdx ∧ Judged ((r.toCore.open height).applyBlock sorted).2 o
              (if k = j then .applied else .inert .lostRace) := by
          intro o ho hoclaims
          obtain ⟨k, hk⟩ := hentry o ho
          refine ⟨k, hk, .of_mem hnodup (hanswered ?_)⟩
          rw [← hsame]
          exact hverdicts (o, k) (hcandidate hk hoclaims)
        refine ⟨w, hwin, op, hpayload, hwclaims, ?_, ?_, ?_, ?_⟩
        · intro o ho hoclaims hne
          obtain ⟨k, hk⟩ := hentry o ho
          have hle : commitKey w ≤ commitKey o :=
            List.le_of_mem_argmin (f := fun e : Observation × Nat => commitKey e.1)
              (hcandidate hk hoclaims) hwinner
          refine hle.lt_of_ne fun heq => hne ?_
          obtain ⟨op', hpayload', _⟩ := hoclaims
          exact hcommits o ho w hwin (by rw [Connecting.isClaim, hpayload'])
            (by rw [Connecting.isClaim, hpayload]) heq.symm
        · have hpass : ((r.toCore.open height).expire height).approverRecords sorted [] =
              (swept, answers) :=
            Prod.ext ((Connecting.approverRecords_open hswept).trans hsame.symm) hanswers.symm
          have hafter : (r.toCore.open height).afterClaims sorted =
              (swept.claims sorted answers).1 := by
            unfold Connecting.afterClaims
            show (match ((r.toCore.open height).expire height).approverRecords sorted [] with
              | (passed, outcomes) => (passed.claims sorted outcomes).1) = _
            rw [hpass]
          rw [← hadmits.sorted_eq, hafter]
          exact hbinding
        · obtain ⟨k, hk, hjudged⟩ := hverdict w hwin hwclaims
          have hnext := hverdicts (w, j) hin
          rw [if_pos rfl] at hnext
          exact .of_mem hnodup (hanswered (hsame ▸ hnext))
        · intro o ho hoclaims hne
          obtain ⟨k, hk, hjudged⟩ := hverdict o ho hoclaims
          have hindices : k ≠ j := by
            rintro rfl
            rw [List.mem_zipIdx_iff_getElem?] at hk hj
            exact hne (Option.some.inj (hk.symm.trans hj))
          rw [if_neg hindices] at hjudged
          exact hjudged
  · rintro name bound hbound o ho ⟨op, hpayload, rfl, hadmitted⟩
    obtain ⟨i, hi⟩ := hentry o ho
    have hinert := @Connecting.mem_gatherClaim_foldl ((r.toCore.open height).expire height)
      sorted.zipIdx (o, i) op bound hi hpayload
      (by rw [hterms.admitObservation]; exact hadmitted) hbound (∅, answers)
    exact .of_mem hnodup (hanswered (Connecting.assignEntry_foldl_subset _ _ _ hinert))

end Registry

/-! ## Two claims of one name -/

namespace Sample

/-- A later claim of `a`, in the block of the first one. -/
def rivalClaim : Observation :=
  { claim with
    txid := txid 4
    author := key 2
    position := 0
    commit := ⟨txid 5, 1, 101, 0⟩ }

/-- A claim of `a` after it is bound, addressed to another registry. -/
def strayClaim : Observation :=
  { claim with
    txid := txid 6
    payload := .claim ⟨txid 7, Vector.replicate 16 0, name, txid 9⟩
    height := 103
    commit := ⟨txid 8, 0, 102, 0⟩ }

theorem connectDelta_rivals : openRegistry.connectDelta 102 [claim, rivalClaim] =
    (.ok ⟨[⟨txid 4, 0, .inert .lostRace⟩, ⟨txid 2, 1, .applied⟩], claimDelta⟩,
      (openRegistry.connectDelta 102 [claim, rivalClaim]).2) :=
  Prod.ext (by decide +kernel) rfl

theorem connectDelta_stray : claimedRegistry.connectDelta 103 [strayClaim] =
    (.ok ⟨[⟨txid 6, 1, .invalid .foreignRegistry⟩], ⟨103, [], []⟩⟩,
      (claimedRegistry.connectDelta 103 [strayClaim]).2) :=
  Prod.ext (by decide +kernel) rfl

theorem rivals_distinct : DistinctCommits [claim, rivalClaim] := by
  intro a ha b hb _ _ hkey
  simp only [List.mem_cons, List.not_mem_nil, or_false] at ha hb
  rcases ha with rfl | rfl <;> rcases hb with rfl | rfl
  · rfl
  · exact absurd hkey (by decide)
  · exact absurd hkey (by decide)
  · rfl

end Sample

/-- A claim of a bound name that the registry does not admit is invalid, not inert. -/
theorem Registry.not_open_allocation :
    ¬∀ r : Registry, r.Reachable → r.rules.mode = .«open» → ∀ height observations block r',
      r.connectDelta height observations = (.ok block, r') → DistinctCommits observations →
      ∀ name bound,
        (stateOf ((r.toCore.open height).expire height).names name).binding = .bound bound →
        ∀ o ∈ observations, ∀ op, o.payload = .claim op → op.name = name →
          Judged block.outcomes o (.inert .nameBound) := by
  intro h
  have hjudged := h Sample.claimedRegistry Sample.claimedRegistry_reaches.reachable rfl 103
    [Sample.strayClaim] _ _ Sample.connectDelta_stray
    (fun a ha b hb _ _ _ => (List.mem_singleton.mp ha).trans (List.mem_singleton.mp hb).symm)
    Sample.name ⟨Sample.key 1, .publication (Sample.txid 9), 112, Sample.txid 2, Sample.txid 2⟩
    (by decide +kernel) Sample.strayClaim List.mem_cons_self _ rfl rfl
  exact absurd hjudged (by unfold Judged; decide +kernel)

/-- Of two claims of `a` the older commit wins, although it is revealed later. -/
theorem Registry.open_allocation_rivals :
    ∃ w ∈ [Sample.claim, Sample.rivalClaim],
      Judged [⟨Sample.txid 4, 0, .inert .lostRace⟩, ⟨Sample.txid 2, 1, .applied⟩] w .applied ∧
        ∀ o ∈ [Sample.claim, Sample.rivalClaim], Sample.openRegistry.Claims Sample.name o →
          o ≠ w → commitKey w < commitKey o := by
  obtain ⟨w, hw, _, _, _, hleast, _, hjudged, _⟩ :=
    (Registry.open_allocation Sample.openRegistry_reaches.reachable rfl Sample.connectDelta_rivals
      Sample.rivals_distinct).1 Sample.name 112 (by decide +kernel) (by decide +kernel)
      ⟨Sample.claim, List.mem_cons_self, _, rfl, rfl, by decide +kernel⟩
  exact ⟨w, hw, hjudged, hleast⟩

end Urma.Names
