import Urma.Names.Passes

/-!
# Undo frames

`connect_delta` remembers every key before it first writes it, and `disconnect_delta`
writes the remembered values back. Both maps are instances of the journal of
`Urma.Lib.Journal`: `Journaled` is its invariant for the two of them, the passes keep it
because every write remembers (`Write.journaled`), and `disconnectDelta_connectDelta` is
undoing at the level of the registry.
-/

namespace Urma.Names

open Std
open Urma.Lib.Journal

/-! ## Frames as pre-images -/

section Images

variable {K V : Type}

/-- The pre-images a frame list holds, absence as `none`. -/
def images (entries : List (K × Previous V)) : Frame K V :=
  entries.map fun entry => (entry.1, beforeValue entry.2)

@[simp] theorem beforeValue_previous (value : Option V) :
    beforeValue (previous value) = value := by
  cases value <;> rfl

theorem images_keys (entries : List (K × Previous V)) :
    (images entries).map Prod.fst = entries.map Prod.fst := by
  unfold images
  rw [List.map_map]
  rfl

theorem images_any [DecidableEq K] (entries : List (K × Previous V)) (key : K) :
    (images entries).any (fun entry => entry.1 = key) =
      entries.any (fun entry => entry.1 = key) := by
  unfold images
  rw [List.any_map]
  rfl

end Images

namespace Connecting

theorem rememberName_images (c : Connecting) (name : Name) :
    images (c.rememberName name).frame.names =
      (images c.frame.names).remember c.names name := by
  unfold rememberName Frame.remember
  rw [images_any]
  split
  · rfl
  · simp [images]

theorem rememberPending_images (c : Connecting) (txid : Txid) :
    images (c.rememberPending txid).frame.pending =
      (images c.frame.pending).remember c.pending txid := by
  unfold rememberPending Frame.remember
  rw [images_any]
  split
  · rfl
  · simp [images]

/-- The open frame holds the pre-images of both maps since `start`. -/
structure Journaled (start : Core) (c : Connecting) : Prop where
  names : Records start.names c.names (images c.frame.names)
  pending : Records start.pending c.pending (images c.frame.pending)

theorem Journaled.open (core : Core) (height : Nat) : Journaled core (core.open height) :=
  ⟨Records.empty _, Records.empty _⟩

/-- Every write remembers its key first. -/
theorem Write.journaled {start : Core} {c c' : Connecting} (h : Write c c')
    (hc : Journaled start c) : Journaled start c' := by
  cases h with
  | name name state =>
      refine ⟨?_, ?_⟩
      · rw [setName_names]
        show Records _ (put c.names name (some state)) (images (c.rememberName name).frame.names)
        rw [rememberName_images]
        exact hc.names.write name (some state)
      · rw [setName_pending]
        show Records _ _ (images (c.rememberName name).frame.pending)
        rw [rememberName_pendingFrame]
        exact hc.pending
  | pending txid record =>
      refine ⟨?_, ?_⟩
      · rw [setPending_names]
        show Records _ _ (images (c.rememberPending txid).frame.names)
        rw [rememberPending_nameFrame]
        exact hc.names
      · rw [setPending_pending]
        show Records _ (put c.pending txid (some record))
          (images (c.rememberPending txid).frame.pending)
        rw [rememberPending_images]
        exact hc.pending.write txid (some record)

theorem Steps.journaled {start : Core} {observations : List Observation} {c c' : Connecting}
    (h : Steps observations c c') (hc : Journaled start c) : Journaled start c' := by
  have hwrites := h.writes
  clear h
  induction hwrites with
  | refl => exact hc
  | tail _ hlast ih => exact hlast.journaled ih

end Connecting

/-! ## Writing a frame back -/

namespace Registry

theorem restoreName_names (core : Core) (entry : Name × Previous NameState) :
    (restoreName core entry).names = put core.names entry.1 (beforeValue entry.2) := by
  unfold restoreName
  cases entry.2 <;> rfl

theorem restoreName_indexExact {core : Core} (h : core.IndexExact)
    (entry : Name × Previous NameState) : (restoreName core entry).IndexExact := by
  unfold restoreName
  cases entry.2 with
  | present state => exact h.store entry.1 state
  | absent => exact h.forget entry.1

/-- The name loop of `disconnect_delta` writes the pre-images of the names and touches
nothing but the names and their index. -/
theorem restoreName_foldl (entries : List (Name × Previous NameState)) (core : Core)
    (h : core.IndexExact) :
    (entries.foldl restoreName core).names = putAll (images entries) core.names ∧
    (entries.foldl restoreName core).IndexExact ∧
    (entries.foldl restoreName core).pending = core.pending ∧
    SameTerms core (entries.foldl restoreName core) := by
  induction entries generalizing core with
  | nil => exact ⟨rfl, h, rfl, SameTerms.refl core⟩
  | cons entry rest ih =>
      obtain ⟨hnames, hindex, hpending, hterms⟩ :=
        ih (restoreName core entry) (restoreName_indexExact h entry)
      have hone : (restoreName core entry).pending = core.pending ∧
          SameTerms core (restoreName core entry) := by
        unfold restoreName
        cases entry.2 <;> exact ⟨rfl, rfl, rfl, rfl, rfl⟩
      refine ⟨?_, hindex, hpending.trans hone.1, hone.2.trans hterms⟩
      rw [List.foldl_cons, hnames, restoreName_names]
      rfl

/-- The pending loop of `disconnect_delta` writes the pre-images of the pending records. -/
theorem restorePending_foldl (entries : List (Txid × Previous PendingRecord)) (core : Core) :
    entries.foldl restorePending core =
      { core with pending := putAll (images entries) core.pending } := by
  induction entries generalizing core with
  | nil => rfl
  | cons entry rest ih =>
      rw [List.foldl_cons, ih]
      unfold restorePending
      cases hentry : entry.2 <;> simp [images, putAll, put, hentry, beforeValue]

/-- **Undo.** Writing a journaled frame back gives the core the block started from. -/
theorem restore_journaled {start : Core} {c : Connecting} {height : Nat}
    (hstart : start.IndexExact) (hindex : c.IndexExact)
    (hjournal : Connecting.Journaled start c)
    (hterms : SameTerms (start.open height).toCore c.toCore) :
    { c.frame.pending.foldl restorePending (c.frame.names.foldl restoreName c.toCore) with
      height := start.height } = start := by
  obtain ⟨hnames, hexact, hpending, hsame⟩ :=
    restoreName_foldl c.frame.names c.toCore hindex
  rw [hjournal.names.restore] at hnames
  rw [restorePending_foldl]
  have hexpiries : (c.frame.names.foldl restoreName c.toCore).expiries = start.expiries := by
    unfold Core.IndexExact at hexact
    rw [hnames] at hexact
    exact hexact.unique hstart
  ext1
  · exact hsame.genesis.trans hterms.genesis
  · exact hsame.genesisHeight.trans hterms.genesisHeight
  · exact hsame.rules.trans hterms.rules
  · rfl
  · exact hnames
  · show putAll _ _ = _
    rw [hpending]
    exact hjournal.pending.restore
  · exact hexpiries

end Registry

/-! ## What an accepted block looks like -/

/-- Writing the `after` values of a delta's changes. -/
def writeAfter {K V : Type} [Ord K] [TransOrd K] (changes : List (Change K V))
    (table : ExtTreeMap K V) : ExtTreeMap K V :=
  putAll (changes.map fun change => (change.key, change.after)) table

/-- Writing the `before` values of a delta's changes. -/
def writeBefore {K V : Type} [Ord K] [TransOrd K] (changes : List (Change K V))
    (table : ExtTreeMap K V) : ExtTreeMap K V :=
  putAll (changes.map fun change => (change.key, change.before)) table

/-- The checks `connect_delta` made before it changed anything. -/
structure Core.Admits (core : Core) (height : Nat) (observations sorted : List Observation) :
    Prop where
  next : height = core.height + 1
  bounded : height ≤ u64Max
  heights : ∀ o ∈ observations, o.height = height
  sorted_eq : sorted = sortByPosition observations
  strict : strictPositions sorted = true

theorem Core.admitBlock_eq_ok {core : Core} {height : Nat}
    {observations sorted : List Observation} :
    core.admitBlock height observations = .ok sorted ↔
      core.Admits height observations sorted := by
  unfold Core.admitBlock
  cases hnext : checkedAdd core.height 1 with
  | none =>
      constructor
      · intro h; cases h
      · intro h
        have : checkedAdd core.height 1 = some height :=
          checkedAdd_eq_some.mpr ⟨h.next ▸ h.bounded, h.next⟩
        rw [hnext] at this
        cases this
  | some expected =>
      obtain ⟨hbounded, rfl⟩ := checkedAdd_eq_some.mp hnext
      simp only [Except.bind_eq_ok, ensure_eq_ok, exists_const, beq_iff_eq,
        List.all_eq_true]
      constructor
      · rintro ⟨rfl, hheights, hstrict, hsorted⟩
        cases hsorted
        exact ⟨rfl, hbounded, hheights, rfl, hstrict⟩
      · rintro ⟨rfl, _, hheights, rfl, hstrict⟩
        exact ⟨rfl, hheights, hstrict, rfl⟩

theorem mem_sortByPosition {observations : List Observation} {o : Observation} :
    o ∈ sortByPosition observations ↔ o ∈ observations :=
  (List.perm_insertionSort _ observations).mem_iff

namespace Registry

/-- **Inversion of `connect_delta`**: an accepted call applied the sorted block to the
opened core and pushed its frame. -/
theorem connectDelta_eq_ok {r r' : Registry} {height : Nat} {observations : List Observation}
    {applied : AppliedBlock} :
    r.connectDelta height observations = (.ok applied, r') ↔
      ∃ sorted, r.Admits height observations sorted ∧
        applied = ⟨((r.toCore.open height).applyBlock sorted).2,
          ((r.toCore.open height).applyBlock sorted).1.forwardDelta
            ((r.toCore.open height).applyBlock sorted).1.frame⟩ ∧
        r' = { ((r.toCore.open height).applyBlock sorted).1.toCore with
          undo := ((r.toCore.open height).applyBlock sorted).1.frame :: r.undo } := by
  unfold connectDelta
  cases hadmission : r.admitBlock height observations with
  | error error =>
      constructor
      · intro h; cases h
      · rintro ⟨sorted, hadmits, _⟩
        rw [Core.admitBlock_eq_ok.mpr hadmits] at hadmission
        cases hadmission
  | ok sorted =>
      rw [Core.admitBlock_eq_ok] at hadmission
      constructor
      · intro h
        cases h
        exact ⟨sorted, hadmission, rfl, rfl⟩
      · rintro ⟨sorted', hadmits, rfl, rfl⟩
        obtain rfl : sorted' = sorted := hadmits.sorted_eq.trans hadmission.sorted_eq.symm
        rfl

/-- A call that fails leaves the registry as it was. -/
theorem connectDelta_error {r : Registry} {height : Nat} {observations : List Observation}
    {error : Error} (h : (r.connectDelta height observations).1 = .error error) :
    (r.connectDelta height observations).2 = r := by
  unfold connectDelta at h ⊢
  cases hadmission : r.admitBlock height observations with
  | error error => rfl
  | ok sorted => rw [hadmission] at h; cases h

theorem disconnectDelta_error {r : Registry} {error : Error}
    (h : r.disconnectDelta.1 = .error error) : r.disconnectDelta.2 = r := by
  unfold disconnectDelta at h ⊢
  cases hundo : r.undo with
  | nil => rfl
  | cons delta undo =>
      cases hheight : checkedSub r.height 1 with
      | none => rfl
      | some height => simp [hundo, hheight] at h

/-- The passes keep the index exact and the frame journaled. -/
theorem applyBlock_spec {core : Core} (hindex : core.IndexExact) (height : Nat)
    (sorted : List Observation) :
    ((core.open height).applyBlock sorted).1.IndexExact ∧
    Connecting.Journaled core ((core.open height).applyBlock sorted).1 ∧
    SameTerms (core.open height).toCore ((core.open height).applyBlock sorted).1.toCore := by
  have hopen : (core.open height).IndexExact := hindex
  have hsteps := Connecting.applyBlock_steps hopen sorted
  exact ⟨hsteps.indexExact hopen, hsteps.journaled (.open core height), hsteps.sameTerms⟩

/-- **Disconnecting right after connecting** returns the delta that connecting returned and
restores the registry. -/
theorem disconnectDelta_connectDelta {r r' : Registry} {height : Nat}
    {observations : List Observation} {applied : AppliedBlock} (hindex : r.IndexExact)
    (h : r.connectDelta height observations = (.ok applied, r')) :
    r'.disconnectDelta = (.ok applied.delta, r) := by
  obtain ⟨sorted, hadmits, rfl, rfl⟩ := connectDelta_eq_ok.mp h
  obtain ⟨hexact, hjournal, hterms⟩ := applyBlock_spec hindex height sorted
  generalize (r.toCore.open height).applyBlock sorted = block at *
  have hheight : block.1.height = r.height + 1 := hterms.height.trans hadmits.next
  have hsub : checkedSub block.1.height 1 = some r.height :=
    checkedSub_eq_some.mpr ⟨by omega, by omega⟩
  unfold disconnectDelta
  simp only [hsub]
  have hcore := restore_journaled hindex hexact hjournal hterms
  rw [Prod.mk.injEq]
  refine ⟨rfl, ?_⟩
  rw [Registry.mk.injEq]
  exact ⟨hcore, rfl⟩

end Registry

end Urma.Names
