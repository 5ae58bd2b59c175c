import Urma.Names.Run

/-!
# Expiry heights

A binding made or renewed in block `h` lasts until `h + expiry_blocks`; the sweep at the
start of each block releases what is due. Between blocks every bound expiry is ahead of
the registry's height and at most `expiry_blocks` ahead (`Bounded`), so what is due at the
next height is exactly what expires there.

The sweep is described by `expire_get`; the other passes only write expiries that
`expiry_after` returned for the block's own height (`Step.bounded`).
-/

namespace Urma.Names

open Std

namespace Connecting

variable {c c' : Connecting} {observations : List Observation}

/-! ## The sweep, name by name -/

theorem expireEntry_foldl_get {entries : List (Nat × Name)}
    (hdistinct : (entries.map Prod.snd).Nodup) (c : Connecting)
    (hbound : ∀ entry ∈ entries, ∃ bound,
      (stateOf c.names entry.2).binding = .bound bound) (name : Name) :
    (entries.foldl expireEntry c).names[name]? =
      if name ∈ entries.map Prod.snd then
        some { stateOf c.names name with binding := .unbound }
      else c.names[name]? := by
  induction entries generalizing c with
  | nil => simp
  | cons entry rest ih =>
      rw [List.map_cons, List.nodup_cons] at hdistinct
      obtain ⟨bound, hbinding⟩ := hbound entry List.mem_cons_self
      rw [List.foldl_cons, expireEntry_of_bound hbinding, ih hdistinct.2]
      · by_cases hname : entry.2 = name
        · subst hname
          rw [if_neg hdistinct.1, if_pos (by simp)]
          simp
        · rw [stateOf_setName_of_ne c hname]
          have hiff : name ∈ (entry :: rest).map Prod.snd ↔ name ∈ rest.map Prod.snd := by
            rw [List.map_cons, List.mem_cons]
            exact or_iff_right (fun h => hname h.symm)
          simp only [hiff, setName_names, ExtTreeMap.getElem?_insert,
            LawfulEqCmp.compare_eq_iff_eq, if_neg hname]
      · intro e he
        obtain ⟨bound', hbinding'⟩ := hbound e (List.mem_cons_of_mem _ he)
        have hne : entry.2 ≠ e.2 := fun heq => hdistinct.1 (heq ▸ List.mem_map_of_mem he)
        exact ⟨bound', by rw [stateOf_setName_of_ne c hne]; exact hbinding'⟩

/-- The names that `expire` releases at a height. -/
def Due (c : Connecting) (height : Nat) (name : Name) : Prop :=
  ∃ bound, (stateOf c.names name).binding = .bound bound ∧ bound.expiry ≤ height

theorem mem_due_names (hindex : c.IndexExact) {height : Nat} {name : Name} :
    name ∈ (c.due height).map Prod.snd ↔ c.Due height name := by
  rw [List.mem_map]
  constructor
  · rintro ⟨⟨expiry, name⟩, hentry, rfl⟩
    obtain ⟨bound, hbinding, hexpiry, hle⟩ := (mem_due hindex).mp hentry
    exact ⟨bound, hbinding, hexpiry ▸ hle⟩
  · rintro ⟨bound, hbinding, hle⟩
    exact ⟨(bound.expiry, name), (mem_due hindex).mpr ⟨bound, hbinding, rfl, hle⟩, rfl⟩

open Classical in
/-- **What `expire` does to a name**: a due name loses its binding and keeps the rest. -/
theorem expire_get (hindex : c.IndexExact) (height : Nat) (name : Name) :
    (c.expire height).names[name]? =
      if c.Due height name then some { stateOf c.names name with binding := .unbound }
      else c.names[name]? := by
  have hfold := expireEntry_foldl_get (due_names_nodup hindex height) c (fun entry hentry => by
    obtain ⟨bound, hbinding, _⟩ := (mem_due hindex).mp hentry
    exact ⟨bound, hbinding⟩) name
  rw [show c.expire height = (c.due height).foldl expireEntry c from rfl, hfold]
  simp only [mem_due_names hindex]

open Classical in
theorem stateOf_expire (hindex : c.IndexExact) (height : Nat) (name : Name) :
    stateOf (c.expire height).names name =
      if c.Due height name then { stateOf c.names name with binding := .unbound }
      else stateOf c.names name := by
  rw [stateOf_eq_getD, expire_get hindex]
  split
  · rfl
  · rw [stateOf_eq_getD]

/-- After the sweep every binding outlives the height. -/
theorem expire_ahead (hindex : c.IndexExact) {height : Nat} {name : Name} {bound : Bound}
    (h : (stateOf (c.expire height).names name).binding = .bound bound) :
    height < bound.expiry := by
  rw [stateOf_expire hindex] at h
  split at h
  · cases h
  · next hdue =>
    by_contra hle
    exact hdue ⟨bound, h, Nat.le_of_not_lt hle⟩

/-! ## The other passes -/

/-- Every bound expiry lies in `lower + 1 ..= upper`. -/
def Bounded (lower upper : Nat) (names : ExtTreeMap Name NameState) : Prop :=
  ∀ name bound, (stateOf names name).binding = .bound bound →
    lower < bound.expiry ∧ bound.expiry ≤ upper

theorem Bounded.setName {lower upper : Nat} (h : Bounded lower upper c.names) {name : Name}
    {state : NameState}
    (hstate : ∀ bound, state.binding = .bound bound →
      lower < bound.expiry ∧ bound.expiry ≤ upper) :
    Bounded lower upper (c.setName name state).names := by
  intro other bound hbinding
  rw [setName_names, stateOf_insert] at hbinding
  split at hbinding
  · exact hstate bound hbinding
  · exact h other bound hbinding

/-- A step of a block at `c.height` keeps the bounds of that height. -/
theorem Step.bounded {lower : Nat} {trigger : Option Observation} (h : Step c trigger c')
    (hheight : ∀ o, trigger = some o → o.height = c.height)
    (hlower : lower < c.height + c.rules.expiryBlocks.toNat)
    (hc : Bounded lower (c.height + c.rules.expiryBlocks.toNat) c.names) :
    Bounded lower (c.height + c.rules.expiryBlocks.toNat) c'.names := by
  -- an expiry that `expiry_after` returned for this block
  have hnew : ∀ {o expiry}, trigger = some o → c.expiryAfter o.height = some expiry →
      lower < expiry ∧ expiry ≤ c.height + c.rules.expiryBlocks.toNat := by
    intro o expiry ho hexpiry
    obtain ⟨_, rfl⟩ := checkedAdd_eq_some.mp hexpiry
    rw [hheight o ho]
    exact ⟨hlower, Nat.le_refl _⟩
  cases h with
  | expire =>
      refine hc.setName (fun bound hbound => ?_)
      cases hbound
  | endorse => rw [setPending_names]; exact hc
  | close => rw [setPending_names]; exact hc
  | grant _ _ _ _ _ hexpiry =>
      rw [setPending_names]
      refine hc.setName (fun bound hbound => ?_)
      cases hbound
      exact hnew rfl hexpiry
  | retarget _ _ _ hbinding =>
      rw [setPending_names]
      refine hc.setName (fun bound hbound => ?_)
      cases hbound
      have hold := hc _ _ hbinding
      exact hold
  | vote =>
      refine hc.setName (fun bound hbound => ?_)
      rw [countVote_binding] at hbound
      exact hc _ _ hbound
  | claim _ _ _ _ hexpiry =>
      refine hc.setName (fun bound hbound => ?_)
      cases hbound
      exact hnew rfl hexpiry
  | request => exact (setPending_names _ _ _).symm ▸ hc
  | propose => exact (setPending_names _ _ _).symm ▸ hc
  | update _ _ _ hbinding =>
      refine hc.setName (fun bound hbound => ?_)
      cases hbound
      have hold := hc _ _ hbinding
      exact hold
  | renew _ _ hexpiry =>
      refine hc.setName (fun bound hbound => ?_)
      cases hbound
      exact hnew rfl hexpiry

theorem Steps.bounded {lower : Nat} (h : Steps observations c c')
    (hheight : ∀ o ∈ observations, o.height = c.height)
    (hlower : lower < c.height + c.rules.expiryBlocks.toNat)
    (hc : Bounded lower (c.height + c.rules.expiryBlocks.toNat) c.names) :
    Bounded lower (c.height + c.rules.expiryBlocks.toNat) c'.names := by
  refine (h.invariant (fun c' => SameTerms c.toCore c'.toCore ∧
    Bounded lower (c.height + c.rules.expiryBlocks.toNat) c'.names) ?_
    ⟨SameTerms.refl _, hc⟩).2
  rintro a b trigger hmem hstep ⟨hterms, ha⟩
  refine ⟨hterms.trans (Steps.single hmem hstep).sameTerms, ?_⟩
  rw [← hterms.height, ← hterms.rules] at ha hlower ⊢
  exact hstep.bounded (fun o ho => (hheight o (hmem o ho)).trans hterms.height.symm) hlower ha

end Connecting

/-! ## Between blocks -/

open Connecting

namespace Core

variable {genesis : Txid} {genesisHeight : Nat} {rules : Genesis} {blocks : List Block}
  {frames : List Delta} {core : Core}

/-- What is bound before a block and survives its sweep is bounded at the block's height. -/
theorem bounded_expire {core : Core} {height : Nat} (hindex : core.IndexExact)
    (hnext : height = core.height + 1)
    (h : Bounded core.height (core.height + core.rules.expiryBlocks.toNat) core.names) :
    Bounded height (height + core.rules.expiryBlocks.toNat)
      ((core.open height).expire height).names := by
  have hopen : (core.open height).IndexExact := hindex
  intro name bound hbinding
  refine ⟨expire_ahead hopen hbinding, ?_⟩
  rw [stateOf_expire hopen] at hbinding
  split at hbinding
  · cases hbinding
  · have := (h name bound hbinding).2
    omega

/-- Between blocks every bound expiry is ahead of the height, at most `expiry_blocks`. -/
theorem Chain.bounded (h : Chain genesis genesisHeight rules blocks frames core) :
    Bounded core.height (core.height + core.rules.expiryBlocks.toNat) core.names := by
  induction h with
  | new =>
      intro name bound hbinding
      simp [Core.initial, stateOf] at hbinding
  | @connect _ _ core height observations sorted hchain hadmits ih =>
      obtain ⟨_, _, hrules, hvalid⟩ := hchain.terms
      have hpositive : 0 < core.rules.expiryBlocks.toNat := by
        have := hvalid.expiry
        rw [hrules]
        omega
      have hexpire := bounded_expire hchain.indexExact hadmits.next ih
      have hsweep : SameTerms (core.open height).toCore
          ((core.open height).expire height).toCore :=
        (expire_steps (c := core.open height) hchain.indexExact).sameTerms
      have hsteps : Steps sorted ((core.open height).expire height)
          ((core.open height).applyBlock sorted).1 :=
        applyBlock_steps_expire (core.open height) sorted
      generalize (core.open height).expire height = swept at *
      have hheight : swept.height = height := hsweep.height
      have hswept : swept.rules = core.rules := hsweep.rules
      have hall : ∀ o ∈ sorted, o.height = swept.height := by
        intro o ho
        rw [hadmits.sorted_eq, mem_sortByPosition] at ho
        exact (hadmits.heights o ho).trans hheight.symm
      rw [hsteps.sameTerms.height, hsteps.sameTerms.rules]
      rw [← hheight, ← hswept] at hexpire
      exact hsteps.bounded hall (by rw [hswept]; omega) hexpire

/-- At the next height, due means expiring there. -/
theorem due_next_iff
    (h : Bounded core.height (core.height + core.rules.expiryBlocks.toNat) core.names)
    {name : Name} :
    (core.open (core.height + 1)).Due (core.height + 1) name ↔
      (stateOf core.names name).expiry? = some (core.height + 1) := by
  rw [NameState.expiry?_eq_some]
  constructor
  · rintro ⟨bound, hbinding, hle⟩
    have hahead := (h name bound hbinding).1
    exact ⟨bound, hbinding, by omega⟩
  · rintro ⟨bound, hbinding, hexpiry⟩
    exact ⟨bound, hbinding, by omega⟩

end Core

namespace Registry

/-- **The expiry index and the sweep.** In every reachable registry `expiries` is the index
of the bound names by expiry, and every bound expiry is ahead of the height and at most
`expiry_blocks` ahead. Hence the sweep of the next block releases exactly the names whose
expiry is that height, leaves every other name as it is, and finds each name it visits bound
until exactly then, so its `Unbound` branch is never taken. -/
theorem expiry_index_exact {r : Registry} (hreach : r.Reachable) :
    (∀ (expiry : Nat) (name : Name), (expiry, name) ∈ r.expiries ↔
      ∃ (state : NameState) (bound : Bound), r.names[name]? = some state ∧ state.binding = .bound bound ∧
        bound.expiry = expiry) ∧
    (∀ (name : Name) (state : NameState) (bound : Bound),
      r.names[name]? = some state → state.binding = .bound bound →
      r.height < bound.expiry ∧ bound.expiry ≤ r.height + r.rules.expiryBlocks.toNat) ∧
    (∀ name : Name, ((r.toCore.open (r.height + 1)).expire (r.height + 1)).names[name]? =
      (r.names[name]?).map fun state =>
        if state.expiry? = some (r.height + 1) then { state with binding := .unbound }
        else state) ∧
    (∀ (before after : List (Nat × Name)) (entry : Nat × Name),
      (r.toCore.open (r.height + 1)).due (r.height + 1) = before ++ entry :: after →
      ∃ bound, (stateOf (before.foldl expireEntry (r.toCore.open (r.height + 1))).names
        entry.2).binding = .bound bound ∧ bound.expiry = entry.1 ∧
        entry.1 = r.height + 1) := by
  obtain ⟨_, hreaches⟩ := hreach
  obtain ⟨_, hchain, _⟩ := hreaches.chain
  have hindex : (r.toCore.open (r.height + 1)).IndexExact := hchain.indexExact
  have hbounded := hchain.bounded
  refine ⟨?_, ?_, ?_, ?_⟩
  · intro expiry name
    rw [hchain.indexExact expiry name]
    constructor
    · rintro ⟨state, hget, hexpiry⟩
      obtain ⟨bound, hbinding, heq⟩ := NameState.expiry?_eq_some.mp hexpiry
      exact ⟨state, bound, hget, hbinding, heq⟩
    · rintro ⟨state, bound, hget, hbinding, heq⟩
      exact ⟨state, hget, NameState.expiry?_eq_some.mpr ⟨bound, hbinding, heq⟩⟩
  · intro name state bound hget hbinding
    exact hbounded name bound (by rw [stateOf_of_get hget]; exact hbinding)
  · intro name
    rw [expire_get hindex]
    have hstate : stateOf (r.toCore.open (r.height + 1)).names name = stateOf r.names name :=
      rfl
    simp only [Core.due_next_iff hbounded, hstate]
    cases hget : r.names[name]? with
    | none =>
        have hnone : stateOf r.names name = .unbound := by rw [stateOf_eq_getD, hget]; rfl
        rw [hnone, if_neg (by simp [NameState.expiry?])]
        exact hget
    | some state =>
        rw [stateOf_of_get hget, Option.map_some]
        split
        · rfl
        · exact hget
  · intro before after entry hdue
    have hnodup := due_names_nodup hindex (r.height + 1)
    have hmem : entry ∈ (r.toCore.open (r.height + 1)).due (r.height + 1) := by
      rw [hdue]; simp
    obtain ⟨bound, hbinding, hexpiry, hle⟩ := (mem_due hindex).mp hmem
    have hahead := (hbounded entry.2 bound hbinding).1
    rw [hdue, List.map_append, List.map_cons, List.nodup_append] at hnodup
    have hfresh : entry.2 ∉ before.map Prod.snd := fun h =>
      hnodup.2.2 _ h _ List.mem_cons_self rfl
    have hget := expireEntry_foldl_get hnodup.1 (r.toCore.open (r.height + 1))
      (fun e he => by
        obtain ⟨b, hb, _⟩ := (mem_due hindex).mp (show e ∈ _ by rw [hdue]; simp [he])
        exact ⟨b, hb⟩) entry.2
    rw [if_neg hfresh] at hget
    refine ⟨bound, ?_, hexpiry, by omega⟩
    rw [stateOf_congr hget]
    exact hbinding

/-- The registry that holds the claim of `a` until height 112. -/
theorem expiry_index_exact_claimed :
    (112, Sample.name) ∈ Sample.claimedRegistry.expiries :=
  ((expiry_index_exact Sample.claimedRegistry_reaches.reachable).1 112 Sample.name).mpr
    ⟨Sample.claimed, ⟨Sample.key 1, .publication (Sample.txid 9), 112, Sample.txid 2,
      Sample.txid 2⟩, by decide +kernel, rfl, rfl⟩

end Registry

end Urma.Names
