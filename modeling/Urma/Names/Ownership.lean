import Urma.Names.Expiries
import Urma.Names.Quorum

/-!
# Ownership is stable until expiry

While a name is bound, only its owner can move the binding. `Act` says what a step can do
to one bound name before it expires: nothing, or one of three things its owner asked for.
From it follow what a block keeps (`Core.Chain.connect_kept`) and what a run of blocks
keeps (`Registry.ownership_stable`).
-/

namespace Urma.Names

open Std

/-! ## What can happen to a bound name -/

namespace Connecting

variable {c c' : Connecting} {name : Name} {bound bound' : Bound}
  {observations : List Observation}

/-- What one step does to a name that stays bound: the binding afterwards, with the owner's
request behind every change. -/
inductive Act (c : Connecting) (name : Name) (bound : Bound) :
    Option Observation → Connecting → Bound → Prop
  | idle {trigger c'} : Act c name bound trigger c' bound
  | retarget {o approval record c'} : Counts c o approval record →
      record.kind = .update → record.name = name → record.author = bound.owner →
      c'.pending[approval.recordTxid]? = some (closed record o.author) →
      Act c name bound (some o) c'
        { bound with target := .publication record.target, lastTxid := o.txid }
  | update {o op c'} : c.rules.mode = .«open» → o.payload = .update op → op.name = name →
      o.author = bound.owner → c.admitObservation o op.registry = .admitted →
      Act c name bound (some o) c' { bound with target := targetOf op, lastTxid := o.txid }
  | renew {o op c' expiry target} : o.payload = .renew op → op.name = name →
      o.author = bound.owner → c.admitObservation o op.registry = .admitted →
      c.expiryAfter o.height = some expiry →
      (c.rules.mode = .administered → target = bound.target) →
      Act c name bound (some o) c' { bound with target, expiry, lastTxid := o.txid }

/-- Writing another name keeps this one bound. -/
private theorem act_of_ne {other : Name} (hne : other ≠ name) (state : NameState)
    (hbound : (stateOf c.names name).binding = .bound bound) (trigger : Option Observation) :
    ∃ bound', (stateOf (c.setName other state).names name).binding = .bound bound' ∧
      Act c name bound trigger (c.setName other state) bound' := by
  refine ⟨bound, ?_, .idle⟩
  rw [stateOf_setName_of_ne c hne]
  exact hbound

/-- **Every step acts on a bound name as its owner asked**, as long as its expiry is ahead:
only the sweep unbinds, and requests and claims need an unbound name. -/
theorem Step.act {trigger : Option Observation} (h : Step c trigger c')
    (hbound : (stateOf c.names name).binding = .bound bound) (hahead : c.height < bound.expiry) :
    ∃ bound', (stateOf c'.names name).binding = .bound bound' ∧
      Act c name bound trigger c' bound' := by
  -- the constructors that write the name of an unbound state
  have hnotUnbound : ∀ {other : Name}, (stateOf c.names other).binding = .unbound →
      other ≠ name := by
    intro other hunbound heq
    rw [heq, hbound] at hunbound
    cases hunbound
  -- the constructors that write a name whose binding they read
  have hsame : ∀ {other : Name} {b : Bound}, (stateOf c.names other).binding = .bound b →
      other = name → b = bound := by
    intro other b hother heq
    rw [heq, hbound] at hother
    cases hother
    rfl
  cases h with
  | @expire other b hother hle =>
      by_cases heq : other = name
      · have hb := hsame hother heq
        rw [hb] at hle
        omega
      · exact act_of_ne heq _ hbound none
  | endorse => exact ⟨bound, by rw [setPending_names]; exact hbound, .idle⟩
  | close => exact ⟨bound, by rw [setPending_names]; exact hbound, .idle⟩
  | grant _ _ _ _ hunbound =>
      refine ⟨bound, ?_, .idle⟩
      rw [setPending_names, stateOf_setName_of_ne c (hnotUnbound hunbound)]
      exact hbound
  | @retarget o approval record b hcounts _ hkind hother howner =>
      rw [setPending_names]
      by_cases heq : record.name = name
      · have hb := hsame hother heq
        subst hb
        subst heq
        refine ⟨_, by rw [stateOf_setName_self], .retarget hcounts hkind rfl howner.symm ?_⟩
        rw [setPending_pending, ExtTreeMap.getElem?_insert_self]
      · refine ⟨bound, ?_, .idle⟩
        rw [stateOf_setName_of_ne c heq]
        exact hbound
  | @vote o op suspend =>
      by_cases heq : op.name = name
      · subst heq
        refine ⟨bound, ?_, .idle⟩
        rw [stateOf_setName_self, countVote_binding]
        exact hbound
      · exact act_of_ne heq _ hbound _
  | claim _ _ _ hunbound => exact act_of_ne (hnotUnbound hunbound) _ hbound _
  | request => exact ⟨bound, (setPending_names _ _ _).symm ▸ hbound, .idle⟩
  | propose => exact ⟨bound, (setPending_names _ _ _).symm ▸ hbound, .idle⟩
  | @update o op b hmode hpayload hadmission hother howner =>
      by_cases heq : op.name = name
      · have hb := hsame hother heq
        subst hb
        subst heq
        exact ⟨_, by rw [stateOf_setName_self],
          .update hmode hpayload rfl howner.symm hadmission⟩
      · exact act_of_ne heq _ hbound _
  | @renew o op b expiry target hpayload hadmission hexpiry hother howner _ hkept =>
      by_cases heq : op.name = name
      · have hb := hsame hother heq
        subst hb
        subst heq
        exact ⟨_, by rw [stateOf_setName_self],
          .renew hpayload rfl howner.symm hadmission hexpiry (fun hmode => (hkept hmode).1)⟩
      · exact act_of_ne heq _ hbound _

/-- No act hands the name over. -/
theorem Act.owner {trigger : Option Observation} (h : Act c name bound trigger c' bound') :
    bound'.owner = bound.owner ∧ bound'.claimTxid = bound.claimTxid := by
  cases h <;> exact ⟨rfl, rfl⟩

end Connecting

/-! ## Requests of an owner -/

/-- `o` is an admitted renewal of `name` by `owner`. -/
def Core.Renews (c : Core) (name : Name) (owner : XOnlyPublicKey) (o : Observation) : Prop :=
  ∃ op, o.payload = .renew op ∧ op.name = name ∧ o.author = owner ∧
    c.admitObservation o op.registry = .admitted

/-- `o` is an admitted update of `name` by `owner`. -/
def Core.Updates (c : Core) (name : Name) (owner : XOnlyPublicKey) (o : Observation) : Prop :=
  ∃ op, o.payload = .update op ∧ op.name = name ∧ o.author = owner ∧
    c.admitObservation o op.registry = .admitted

/-- `o` is an approval in the block `sorted` that completes a pending update of `name`
proposed by `owner`: the record is open when the approver pass comes to `o`, and
completed right after it. -/
def Core.Completes (c : Core) (height : Nat) (sorted : List Observation) (name : Name)
    (owner : XOnlyPublicKey) (o : Observation) : Prop :=
  ∃ part approval record, part ++ [o] <+: sorted ∧ o.payload = .approve approval ∧
    c.admitApprover o approval.registry = .admitted ∧
    (c.during height part).pending[approval.recordTxid]? = some record ∧
    record.kind = .update ∧ record.name = name ∧ record.author = owner ∧
    record.sha256 = approval.recordSha256 ∧ record.completed = false ∧
    ∃ record', (c.during height (part ++ [o])).pending[approval.recordTxid]? = some record' ∧
      record'.completed = true

/-- What a block at `height` does to a name it finds bound until later. -/
structure Core.Kept (c : Core) (height : Nat) (sorted : List Observation) (name : Name)
    (bound bound' : Bound) : Prop where
  owner : bound'.owner = bound.owner
  claimTxid : bound'.claimTxid = bound.claimTxid
  expiry : bound.expiry ≤ bound'.expiry
  extended : bound.expiry < bound'.expiry → ∃ o ∈ sorted, c.Renews name bound.owner o
  retargeted : bound'.target ≠ bound.target →
    (c.rules.mode = .«open» ∧
      ∃ o ∈ sorted, c.Updates name bound.owner o ∨ c.Renews name bound.owner o) ∨
    (c.rules.mode = .administered ∧
      ∃ o ∈ sorted, c.Completes height sorted name bound.owner o)
  changed : bound' ≠ bound → ∃ o ∈ sorted, c.Renews name bound.owner o ∨
    (c.rules.mode = .«open» ∧ c.Updates name bound.owner o) ∨
    (c.rules.mode = .administered ∧ c.Completes height sorted name bound.owner o)

namespace Core.Kept

variable {core : Core} {height : Nat} {sorted : List Observation} {name : Name}
  {bound bound' bound'' : Bound}

theorem refl : core.Kept height sorted name bound bound where
  owner := rfl
  claimTxid := rfl
  expiry := Nat.le_refl _
  extended := fun h => absurd h (Nat.lt_irrefl _)
  retargeted := fun h => absurd rfl h
  changed := fun h => absurd rfl h

theorem trans (h₁ : core.Kept height sorted name bound bound')
    (h₂ : core.Kept height sorted name bound' bound'') :
    core.Kept height sorted name bound bound'' where
  owner := h₂.owner.trans h₁.owner
  claimTxid := h₂.claimTxid.trans h₁.claimTxid
  expiry := Nat.le_trans h₁.expiry h₂.expiry
  extended := by
    intro hlt
    by_cases hfirst : bound.expiry < bound'.expiry
    · exact h₁.extended hfirst
    · rw [← h₁.owner]
      apply h₂.extended
      omega
  retargeted := by
    intro hne
    by_cases hfirst : bound'.target = bound.target
    · rw [← h₁.owner]
      apply h₂.retargeted
      rw [hfirst]
      exact hne
    · exact h₁.retargeted hfirst
  changed := by
    intro hne
    by_cases hfirst : bound' = bound
    · rw [← h₁.owner]
      apply h₂.changed
      rw [hfirst]
      exact hne
    · exact h₁.changed hfirst

/-- An act of the claim or owner pass. -/
theorem of_owner_act {c c' : Connecting} {trigger : Option Observation}
    (hact : Connecting.Act c name bound trigger c' bound')
    (hterms : SameTerms (core.open height).toCore c.toCore)
    (hmem : ∀ o, trigger = some o → o ∈ Connecting.ownerOps sorted)
    (hheights : ∀ o ∈ sorted, o.height = height)
    (hupper : bound.expiry ≤ height + core.rules.expiryBlocks.toNat) :
    core.Kept height sorted name bound bound' := by
  cases hact with
  | idle => exact refl
  | retarget hcounts =>
      -- approvals are not handled by these passes
      have hkind := (List.mem_filter.mp (hmem _ rfl)).2
      rw [hcounts.payload] at hkind
      cases hkind
  | @update o op _ hmode hpayload hname hauthor hadmission =>
      have hin : o ∈ sorted := List.mem_of_mem_filter (hmem o rfl)
      rw [hterms.admitObservation] at hadmission
      have hupdates : core.Updates name bound.owner o :=
        ⟨op, hpayload, hname, hauthor, hadmission⟩
      have hopen : core.rules.mode = .«open» := by
        rw [← hmode, hterms.rules]
        rfl
      exact {
        owner := rfl
        claimTxid := rfl
        expiry := Nat.le_refl _
        extended := fun h => absurd h (Nat.lt_irrefl _)
        retargeted := fun _ => Or.inl ⟨hopen, o, hin, Or.inl hupdates⟩
        changed := fun _ => ⟨o, hin, Or.inr (Or.inl ⟨hopen, hupdates⟩)⟩ }
  | @renew o op _ expiry target hpayload hname hauthor hadmission hexpiry hkept =>
      have hin : o ∈ sorted := List.mem_of_mem_filter (hmem o rfl)
      rw [hterms.admitObservation] at hadmission
      have hrenews : core.Renews name bound.owner o :=
        ⟨op, hpayload, hname, hauthor, hadmission⟩
      -- the new expiry is the largest one possible in this block
      have hlatest : expiry = height + core.rules.expiryBlocks.toNat := by
        obtain ⟨_, hsum⟩ := checkedAdd_eq_some.mp hexpiry
        rw [hsum, hheights o hin, hterms.rules]
        rfl
      refine ⟨rfl, rfl, ?_, fun _ => ⟨o, hin, hrenews⟩, ?_, fun _ => ⟨o, hin, Or.inl hrenews⟩⟩
      · show bound.expiry ≤ expiry
        omega
      · intro hne
        cases hmode : core.rules.mode with
        | «open» => exact Or.inl ⟨rfl, o, hin, Or.inr hrenews⟩
        | administered =>
            have hsame := hkept (by rw [hterms.rules]; exact hmode)
            exact absurd hsame hne

end Core.Kept

namespace Core

variable {core : Core} {height : Nat} {sorted : List Observation} {name : Name}
  {bound : Bound}

/-- The sweep leaves a name alone whose expiry is ahead. -/
theorem expire_binding (hindex : core.IndexExact)
    (hbound : (stateOf core.names name).binding = .bound bound) (hahead : height < bound.expiry) :
    (stateOf ((core.open height).expire height).names name).binding = .bound bound := by
  rw [Connecting.stateOf_expire (c := core.open height) hindex]
  split
  · next hdue =>
    obtain ⟨b, hb, hle⟩ := hdue
    have heq : b = bound := by
      rw [show (stateOf (core.open height).names name).binding = .bound bound from hbound] at hb
      cases hb
      rfl
    rw [heq] at hle
    omega
  · exact hbound

/-- The approver records of a block, one after the other. -/
theorem during_kept (hindex : core.IndexExact)
    (hbound : (stateOf core.names name).binding = .bound bound) (hahead : height < bound.expiry)
    (part : List Observation) (hpart : part <+: sorted) :
    ∃ bound', (stateOf (core.during height part).names name).binding = .bound bound' ∧
      bound'.expiry = bound.expiry ∧ core.Kept height sorted name bound bound' := by
  induction part using List.reverseRecOn with
  | nil => exact ⟨bound, expire_binding hindex hbound hahead, rfl, .refl⟩
  | append_singleton part o ih =>
      obtain ⟨bound', hbound', hexpiry, hkept⟩ :=
        ih ((List.prefix_append part [o]).trans hpart)
      have hterms := Core.during_sameTerms hindex height part
      rcases Core.during_snoc core height part o with heq | ⟨hkind, hstep⟩
      · rw [heq]
        exact ⟨bound', hbound', hexpiry, hkept⟩
      · have hheight : (core.during height part).height = height := hterms.height
        obtain ⟨bound'', hbound'', hact⟩ := hstep.act hbound' (by omega)
        refine ⟨bound'', hbound'', ?_⟩
        cases hact with
        | idle => exact ⟨hexpiry, hkept⟩
        | @retarget _ approval record _ hcounts hrequest hname hauthor hclosed =>
            have hadmitted := hcounts.admitted
            rw [hterms.admitApprover] at hadmitted
            have hmode : core.rules.mode = .administered := (Core.of_admitApprover hadmitted).1
            have hcompletes : core.Completes height sorted name bound'.owner o :=
              ⟨part, approval, record, hpart, hcounts.payload, hadmitted, hcounts.found,
                hrequest, hname, hauthor, hcounts.hash, hcounts.incomplete, _, hclosed, rfl⟩
            refine ⟨hexpiry, hkept.trans ?_⟩
            have hin : o ∈ sorted := hpart.subset (by simp)
            exact {
              owner := rfl
              claimTxid := rfl
              expiry := Nat.le_refl _
              extended := fun h => absurd h (Nat.lt_irrefl _)
              retargeted := fun _ => Or.inr ⟨hmode, o, hin, hcompletes⟩
              changed := fun _ => ⟨o, hin, Or.inr (Or.inr ⟨hmode, hcompletes⟩)⟩ }
        | update _ hpayload => rw [hpayload] at hkind; cases hkind
        | renew hpayload => rw [hpayload] at hkind; cases hkind

/-- **One block keeps a name bound** whose expiry is ahead, and moves its binding only at
its owner's request. -/
theorem applyBlock_kept (hindex : core.IndexExact)
    (hbounded : Connecting.Bounded core.height (core.height + core.rules.expiryBlocks.toNat)
      core.names)
    {observations : List Observation} (hadmits : core.Admits height observations sorted)
    (hbound : (stateOf core.names name).binding = .bound bound)
    (hahead : height < bound.expiry) :
    ∃ bound', (stateOf ((core.open height).applyBlock sorted).1.names name).binding =
        .bound bound' ∧ core.Kept height sorted name bound bound' := by
  obtain ⟨bound₁, hbound₁, hexpiry₁, hkept₁⟩ :=
    during_kept hindex hbound hahead sorted (List.prefix_refl sorted)
  have hupper := (hbounded name bound hbound).2
  have hnext := hadmits.next
  have hheights : ∀ o ∈ sorted, o.height = height := by
    intro o ho
    rw [hadmits.sorted_eq, mem_sortByPosition] at ho
    exact hadmits.heights o ho
  have hsteps : Connecting.Steps (Connecting.ownerOps sorted) (core.during height sorted)
      ((core.open height).applyBlock sorted).1 :=
    Connecting.applyBlock_steps_owner (core.open height) sorted
  -- the claim and owner passes: the binding moves on from the one the approver pass left
  let inv (c : Connecting) : Prop :=
    SameTerms (core.open height).toCore c.toCore ∧
      ∃ bound', (stateOf c.names name).binding = .bound bound' ∧
        bound'.expiry ≤ height + core.rules.expiryBlocks.toNat ∧
        bound₁.expiry ≤ bound'.expiry ∧ core.Kept height sorted name bound bound'
  have hend : inv ((core.open height).applyBlock sorted).1 := by
    refine hsteps.invariant inv ?_ ⟨Core.during_sameTerms hindex height sorted, bound₁,
      hbound₁, by omega, Nat.le_refl _, hkept₁⟩
    intro a b trigger hmem hstep hinv
    obtain ⟨hterms, bound', hbound', hlatest, hgrown, hkept⟩ := hinv
    have hheight : a.height = height := hterms.height
    obtain ⟨bound'', hbound'', hact⟩ := hstep.act hbound' (by omega)
    have hone := Kept.of_owner_act hact hterms hmem hheights hlatest
    refine ⟨hterms.trans (Connecting.Steps.single hmem hstep).sameTerms, bound'', hbound'',
      ?_, Nat.le_trans hgrown hone.expiry, hkept.trans hone⟩
    cases hact with
    | idle => exact hlatest
    | retarget => exact hlatest
    | update => exact hlatest
    | @renew o _ _ expiry _ _ _ _ _ hexpiry =>
        have hin : o ∈ sorted := List.mem_of_mem_filter (hmem o rfl)
        obtain ⟨_, hsum⟩ := checkedAdd_eq_some.mp hexpiry
        have hrules : a.rules = core.rules := hterms.rules
        show expiry ≤ _
        rw [hsum, hheights o hin, hrules]
  obtain ⟨_, bound', hbound', _, _, hkept⟩ := hend
  exact ⟨bound', hbound', hkept⟩

end Core

namespace Registry

variable {r r' : Registry} {name : Name} {bound : Bound}

/-- One accepted block. -/
theorem connectDelta_kept (hreach : r.Reachable) {height : Nat}
    {observations : List Observation} {applied : AppliedBlock}
    (hconnect : r.connectDelta height observations = (.ok applied, r'))
    (hbound : (stateOf r.names name).binding = .bound bound) (hahead : height < bound.expiry) :
    ∃ bound', (stateOf r'.names name).binding = .bound bound' ∧
      r.Kept height (sortByPosition observations) name bound bound' := by
  obtain ⟨_, hreaches⟩ := hreach
  obtain ⟨_, hchain, _⟩ := hreaches.chain
  obtain ⟨sorted, hadmits, _, rfl⟩ := connectDelta_eq_ok.mp hconnect
  have hkept := Core.applyBlock_kept hchain.indexExact hchain.bounded hadmits hbound hahead
  rw [← hadmits.sorted_eq]
  exact hkept

/-- **Ownership is stable.** A name bound until `bound.expiry` stays bound to the same owner
by the same claim through every run of accepted blocks that ends before that height, and its
expiry never shrinks. Each block of the run moves the binding only as `Core.Kept` allows:
the expiry grows only with an admitted renewal by the owner, the target changes only with an
admitted update or renewal by the owner (open) or an approval that completes the owner's
pending update (administered), and with none of these the binding does not change at all. -/
theorem ownership_stable {blocks : List Block} {deltas : List BlockDelta}
    (hreach : r.Reachable) (hbound : (stateOf r.names name).binding = .bound bound)
    (hrun : r.connectAll blocks = some (deltas, r')) (hahead : r'.height < bound.expiry) :
    (∃ bound', (stateOf r'.names name).binding = .bound bound' ∧
      bound'.owner = bound.owner ∧ bound'.claimTxid = bound.claimTxid ∧
      bound.expiry ≤ bound'.expiry) ∧
    ∀ before block after, blocks = before ++ block :: after →
      ∃ deltas₁ r₁ applied r₂ bound₁ bound₂,
        r.connectAll before = some (deltas₁, r₁) ∧
        r₁.connectDelta block.height block.observations = (.ok applied, r₂) ∧
        (stateOf r₁.names name).binding = .bound bound₁ ∧
        (stateOf r₂.names name).binding = .bound bound₂ ∧
        bound₁.owner = bound.owner ∧ bound₁.claimTxid = bound.claimTxid ∧
        bound.expiry ≤ bound₁.expiry ∧
        r₁.Kept block.height (sortByPosition block.observations) name bound₁ bound₂ := by
  induction blocks generalizing r bound deltas with
  | nil =>
      cases hrun
      refine ⟨⟨bound, hbound, rfl, rfl, Nat.le_refl _⟩, ?_⟩
      intro before block after hsplit
      simp at hsplit
  | cons block rest ih =>
      obtain ⟨applied, r₁, deltas₁, hconnect, hrest, rfl⟩ := connectAll_cons.mp hrun
      obtain ⟨_, hheight⟩ := connectDelta_height hreach.indexExact hconnect
      have hreach₁ := hreach.connect hconnect
      have hlength := connectAll_height hreach₁ hrest
      obtain ⟨bound₁, hbound₁, hkept⟩ := connectDelta_kept hreach hconnect hbound (by omega)
      have hlonger := hkept.expiry
      obtain ⟨⟨bound', hbound', howner, hclaim, hexpiry⟩, hblocks⟩ :=
        ih hreach₁ hbound₁ hrest (by omega)
      refine ⟨⟨bound', hbound', howner.trans hkept.owner, hclaim.trans hkept.claimTxid,
        Nat.le_trans hlonger hexpiry⟩, ?_⟩
      intro before block' after hsplit
      cases before with
      | nil =>
          obtain ⟨rfl, rfl⟩ := List.cons.inj hsplit
          exact ⟨[], r, applied, r₁, bound, bound₁, rfl, hconnect, hbound, hbound₁, rfl, rfl,
            Nat.le_refl _, hkept⟩
      | cons first before =>
          rw [List.cons_append] at hsplit
          obtain ⟨rfl, htail⟩ := List.cons.inj hsplit
          obtain ⟨deltas₂, r₂, applied₂, r₃, bound₂, bound₃, hbefore, hnext, hbound₂, hbound₃,
            howner₂, hclaim₂, hexpiry₂, hkept₂⟩ := hblocks before block' after htail
          refine ⟨applied.delta :: deltas₂, r₂, applied₂, r₃, bound₂, bound₃, ?_, hnext,
            hbound₂, hbound₃, howner₂.trans hkept.owner, hclaim₂.trans hkept.claimTxid,
            Nat.le_trans hlonger hexpiry₂, hkept₂⟩
          exact connectAll_cons.mpr ⟨applied, r₁, deltas₂, hconnect, hbefore, rfl⟩

/-- The granted name `a` through the two votes that suspend it. -/
theorem ownership_stable_suspended :
    ∃ deltas r', Sample.grantedRegistry.connectAll
        [⟨104, [Sample.suspension 6 1 0, Sample.suspension 7 2 1]⟩] = some (deltas, r') ∧
      r'.resolve Sample.name = .suspended ∧
      ∃ bound', (stateOf r'.names Sample.name).binding = .bound bound' ∧
        bound'.owner = Sample.key 3 ∧ 113 ≤ bound'.expiry := by
  have hbound : (stateOf Sample.grantedRegistry.names Sample.name).binding =
      .bound Sample.grantedBound := by decide +kernel
  have hadmits : Sample.grantedRegistry.Admits 104
      [Sample.suspension 6 1 0, Sample.suspension 7 2 1]
      [Sample.suspension 6 1 0, Sample.suspension 7 2 1] :=
    Core.admitBlock_eq_ok.mp (by decide +kernel)
  have hconnect := connectDelta_eq_ok.mpr ⟨_, hadmits, rfl, rfl⟩
  have hrun := (@connectAll_cons _ _ ⟨104, _⟩ [] _).mpr ⟨_, _, _, hconnect, rfl, rfl⟩
  refine ⟨_, _, hrun, by decide +kernel, ?_⟩
  obtain ⟨bound', hbound', howner, _, hexpiry⟩ := (ownership_stable
    Sample.grantedRegistry_reaches.reachable hbound hrun (by decide +kernel)).1
  exact ⟨bound', hbound', howner, hexpiry⟩

end Registry

end Urma.Names
