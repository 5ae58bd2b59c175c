import Urma.Names.Run

/-!
# Restoring a registry

`Registry::from_parts` takes a registry's maps and the forward deltas of its last blocks, rewinds
the deltas over copies of the maps to check them, rebuilds the expiries and keeps the deltas as
undo frames. What a running registry hands out is restored to that registry; what is accepted
disconnects to exactly the deltas it was given.
-/

namespace Urma.Names

open Std
open Urma.Lib.Journal

/-! ## The code -/

section Rewind

variable {K V : Type} [Ord K] [TransOrd K] [LawfulEqOrd K] [DecidableEq K] [DecidableEq V]

/-- One round of a loop over the changes of a frame: the keys seen and the map, rewound. -/
def rewindChange (duplicate mismatch : String) (state : List K × ExtTreeMap K V)
    (change : Change K V) : Except Error (List K × ExtTreeMap K V) := do
  let (seen, table) := state
  ensure (!seen.contains change.key) duplicate
  ensure (table[change.key]? == change.after) mismatch
  .ok (change.key :: seen, put table change.key change.before)

/-- A loop over the changes of a frame. -/
def rewindChanges (duplicate mismatch : String) (table : ExtTreeMap K V)
    (changes : List (Change K V)) : Except Error (ExtTreeMap K V) := do
  let (_, table) ← changes.foldlM (rewindChange duplicate mismatch) ([], table)
  .ok table

end Rewind

/-- The maps while `from_parts` rewinds the frames, and the height the next one must have. -/
structure Rewound where
  names : ExtTreeMap Name NameState
  pending : ExtTreeMap Txid PendingRecord
  expected : Nat

/-- One round of the loop of `from_parts` over the frames. -/
def rewindFrame (genesisHeight : Nat) (state : Rewound) (frame : BlockDelta) :
    Except Error Rewound := do
  ensure (frame.height == state.expected && genesisHeight < frame.height)
    "noncontiguous undo suffix or frame at/before genesis"
  let names ← rewindChanges "duplicate undo name key" "undo name after-value mismatch"
    state.names frame.names
  let pending ← rewindChanges "duplicate undo pending key" "undo pending after-value mismatch"
    state.pending frame.pending
  .ok { names, pending, expected := state.expected - 1 }

/-- The undo frame of a delta. -/
def undoFrame (frame : BlockDelta) : Delta where
  names := frame.names.map fun change => (change.key, previous change.before)
  pending := frame.pending.map fun change => (change.key, previous change.before)

/-- `Registry::from_parts`. The frames are listed oldest first. -/
def Registry.fromParts (genesis : Txid) (genesisHeight : Nat) (rules : Genesis) (height : Nat)
    (names : ExtTreeMap Name NameState) (pending : ExtTreeMap Txid PendingRecord)
    (undo : List BlockDelta) : Except Error Registry := do
  let registry ← Registry.new genesis genesisHeight rules
  ensure (genesisHeight ≤ height) "registry height before genesis"
  let _ ← undo.reverse.foldlM (rewindFrame genesisHeight) ⟨names, pending, height⟩
  let core := names.toList.foldl (fun core entry => core.store entry.1 entry.2) registry.toCore
  .ok { core with pending, height, undo := (undo.map undoFrame).reverse }

/-! ## Rewinding -/

section Rewind

variable {K V : Type} [Ord K] [TransOrd K] [LawfulEqOrd K] [DecidableEq K] [DecidableEq V]
variable {duplicate mismatch : String} {changes : List (Change K V)}

theorem rewindChange_foldlM_eq_ok {seen : List K} {table : ExtTreeMap K V}
    {result : List K × ExtTreeMap K V} :
    changes.foldlM (rewindChange duplicate mismatch) (seen, table) = .ok result ↔
      (changes.map Change.key).Nodup ∧ (∀ change ∈ changes, change.key ∉ seen) ∧
        (∀ change ∈ changes, table[change.key]? = change.after) ∧
        result = ((changes.map Change.key).reverse ++ seen, writeBefore changes table) := by
  induction changes generalizing seen table with
  | nil =>
      rw [List.foldlM_nil]
      constructor
      · intro h
        cases h
        exact ⟨List.nodup_nil, fun _ h => absurd h List.not_mem_nil,
          fun _ h => absurd h List.not_mem_nil, rfl⟩
      · rintro ⟨_, _, _, rfl⟩
        rfl
  | cons change rest ih =>
      -- the later changes have other keys, so the first one does not touch their values
      have hother : change.key ∉ rest.map Change.key → ∀ other ∈ rest,
          (put table change.key change.before)[other.key]? = table[other.key]? := by
        intro hnot other hmem
        have hne : change.key ≠ other.key := by
          intro heq
          rw [heq] at hnot
          exact hnot (List.mem_map_of_mem hmem)
        exact get_put_of_ne hne change.before
      simp only [List.foldlM_cons, rewindChange, Except.bind_eq_ok, ensure_eq_ok, beq_iff_eq,
        Bool.not_eq_true', List.contains_eq_mem, decide_eq_false_iff_not]
      constructor
      · rintro ⟨_, ⟨_, hfirst, _, hvalue, hstate⟩, hrest⟩
        cases hstate
        obtain ⟨hnodup, hfresh, hvalues, rfl⟩ := ih.mp hrest
        have hnot : change.key ∉ rest.map Change.key := by
          intro hmem
          obtain ⟨other, hother, heq⟩ := List.mem_map.mp hmem
          exact hfresh other hother (heq ▸ List.mem_cons_self)
        refine ⟨List.nodup_cons.mpr ⟨hnot, hnodup⟩, ?_, ?_, ?_⟩
        · intro other hmem
          rcases List.mem_cons.mp hmem with rfl | hmem
          · exact hfirst
          · exact fun hseen => hfresh other hmem (List.mem_cons_of_mem _ hseen)
        · intro other hmem
          rcases List.mem_cons.mp hmem with rfl | hmem
          · exact hvalue
          · rw [← hother hnot other hmem]
            exact hvalues other hmem
        · rw [List.map_cons, List.reverse_cons, List.append_assoc]
          rfl
      · rintro ⟨hnodup, hfresh, hvalues, rfl⟩
        obtain ⟨hnot, hnodup⟩ := List.nodup_cons.mp hnodup
        refine ⟨_, ⟨(), hfresh change List.mem_cons_self, (), hvalues change List.mem_cons_self,
          rfl⟩, ih.mpr ⟨hnodup, ?_, ?_, ?_⟩⟩
        · intro other hmem hseen
          rcases List.mem_cons.mp hseen with heq | hseen
          · exact hnot (heq ▸ List.mem_map_of_mem hmem)
          · exact hfresh other (List.mem_cons_of_mem _ hmem) hseen
        · intro other hmem
          rw [hother hnot other hmem]
          exact hvalues other (List.mem_cons_of_mem _ hmem)
        · rw [List.map_cons, List.reverse_cons, List.append_assoc]
          rfl

/-- **A loop over changes** passes when no key is changed twice and the map holds the values after
them; it writes the values before. -/
theorem rewindChanges_eq_ok {table result : ExtTreeMap K V} :
    rewindChanges duplicate mismatch table changes = .ok result ↔
      (changes.map Change.key).Nodup ∧ (∀ change ∈ changes, table[change.key]? = change.after) ∧
        result = writeBefore changes table := by
  simp only [rewindChanges, Except.bind_eq_ok, Prod.exists, rewindChange_foldlM_eq_ok]
  constructor
  · rintro ⟨_, _, ⟨hnodup, _, hvalues, hstate⟩, h⟩
    cases hstate
    cases h
    exact ⟨hnodup, hvalues, rfl⟩
  · rintro ⟨hnodup, hvalues, rfl⟩
    exact ⟨_, _, ⟨hnodup, fun _ _ => List.not_mem_nil, hvalues, rfl⟩, rfl⟩

end Rewind

/-- What makes a frame one that led to these maps. -/
structure Fits (genesisHeight : Nat) (names : ExtTreeMap Name NameState)
    (pending : ExtTreeMap Txid PendingRecord) (height : Nat) (frame : BlockDelta) : Prop where
  height : frame.height = height
  later : genesisHeight < frame.height
  namesNodup : (frame.names.map Change.key).Nodup
  namesAfter : ∀ change ∈ frame.names, names[change.key]? = change.after
  pendingNodup : (frame.pending.map Change.key).Nodup
  pendingAfter : ∀ change ∈ frame.pending, pending[change.key]? = change.after

theorem rewindFrame_eq_ok {genesisHeight : Nat} {state result : Rewound} {frame : BlockDelta} :
    rewindFrame genesisHeight state frame = .ok result ↔
      Fits genesisHeight state.names state.pending state.expected frame ∧
        result = ⟨writeBefore frame.names state.names, writeBefore frame.pending state.pending,
          state.expected - 1⟩ := by
  simp only [rewindFrame, Except.bind_eq_ok, ensure_eq_ok, Bool.and_eq_true, beq_iff_eq,
    decide_eq_true_eq, rewindChanges_eq_ok]
  constructor
  · rintro ⟨_, ⟨hheight, hlater⟩, _, ⟨hnodup, hafter, rfl⟩, _, ⟨hnodup', hafter', rfl⟩, h⟩
    cases h
    exact ⟨⟨hheight, hlater, hnodup, hafter, hnodup', hafter'⟩, rfl⟩
  · rintro ⟨hfits, rfl⟩
    exact ⟨(), ⟨hfits.height, hfits.later⟩, _, ⟨hfits.namesNodup, hfits.namesAfter, rfl⟩, _,
      ⟨hfits.pendingNodup, hfits.pendingAfter, rfl⟩, rfl⟩

/-! ## The registry that is built -/

/-- The loop that stores every name. -/
def storeAll (core : Core) (entries : List (Name × NameState)) : Core :=
  entries.foldl (fun core entry => core.store entry.1 entry.2) core

theorem storeAll_spec (entries : List (Name × NameState)) {core : Core} (h : core.IndexExact) :
    (storeAll core entries).IndexExact ∧
      (storeAll core entries).names =
        putAll (entries.map fun entry => (entry.1, some entry.2)) core.names ∧
      SameTerms core (storeAll core entries) := by
  induction entries generalizing core with
  | nil => exact ⟨h, rfl, SameTerms.refl core⟩
  | cons entry rest ih =>
      obtain ⟨hindex, hnames, hterms⟩ := ih (h.store entry.1 entry.2)
      exact ⟨hindex, hnames, hterms.genesis, hterms.genesisHeight, hterms.rules, hterms.height⟩

/-- Writing every entry of a map into an empty one gives the map. -/
theorem putAll_toList (names : ExtTreeMap Name NameState) :
    putAll (names.toList.map fun entry => (entry.1, some entry.2)) ∅ = names := by
  apply ExtTreeMap.ext_getElem?
  intro name
  have hkeys : ((names.toList.map fun entry => (entry.1, some entry.2)).map Prod.fst) =
      names.toList.map Prod.fst := by
    rw [List.map_map]
    rfl
  cases hget : names[name]? with
  | none =>
      rw [get_putAll_of_notMem]
      · simp
      · rw [hkeys]
        intro hmem
        obtain ⟨⟨name', state⟩, hentry, rfl⟩ := List.mem_map.mp hmem
        rw [ExtTreeMap.mem_toList_iff_getElem?_eq_some, hget] at hentry
        cases hentry
  | some state =>
      apply get_putAll_of_mem
      · rw [hkeys]
        exact Connecting.toList_keys_nodup names
      · rw [← ExtTreeMap.mem_toList_iff_getElem?_eq_some] at hget
        exact List.mem_map.mpr ⟨(name, state), hget, rfl⟩

namespace Registry

/-- **What is restored**: the given maps and height, expiries that index the names, and the frames
of the deltas, under terms that validate. -/
theorem fromParts_eq_ok {genesis : Txid} {genesisHeight height : Nat} {rules : Genesis}
    {names : ExtTreeMap Name NameState} {pending : ExtTreeMap Txid PendingRecord}
    {undo : List BlockDelta} {r : Registry} :
    fromParts genesis genesisHeight rules height names pending undo = .ok r ↔
      rules.validate = .ok () ∧ genesisHeight ≤ height ∧
        (∃ state, undo.reverse.foldlM (rewindFrame genesisHeight) ⟨names, pending, height⟩ =
          .ok state) ∧
        r.genesis = genesis ∧ r.genesisHeight = genesisHeight ∧ r.rules = rules ∧
        r.height = height ∧ r.names = names ∧ r.pending = pending ∧ r.IndexExact ∧
        r.undo = (undo.map undoFrame).reverse := by
  have hempty : (Core.initial genesis genesisHeight rules).IndexExact :=
    Lib.SecondaryIndex.Exact.empty _
  obtain ⟨hindex, hnames, hterms⟩ := storeAll_spec names.toList hempty
  rw [show (Core.initial genesis genesisHeight rules).names = ∅ from rfl, putAll_toList] at hnames
  simp only [fromParts, Except.bind_eq_ok, new_eq_ok, ensure_eq_ok, decide_eq_true_eq]
  constructor
  · rintro ⟨_, ⟨hvalidate, rfl⟩, _, hheight, state, hstate, h⟩
    cases h
    refine ⟨hvalidate, hheight, ⟨state, hstate⟩, hterms.genesis, hterms.genesisHeight,
      hterms.rules, rfl, hnames, rfl, hindex, rfl⟩
  · rintro ⟨hvalidate, hheight, ⟨state, hstate⟩, hgenesis, hgenesisHeight, hrules, hr, hrnames,
      hrpending, hrindex, hundo⟩
    refine ⟨_, ⟨hvalidate, rfl⟩, (), hheight, state, hstate, ?_⟩
    have hexpiries : (storeAll (Core.initial genesis genesisHeight rules) names.toList).expiries =
        r.expiries := by
      unfold Core.IndexExact at hindex hrindex
      rw [hnames] at hindex
      rw [hrnames] at hrindex
      exact hindex.unique hrindex
    obtain ⟨core, frames⟩ := r
    simp only at hundo
    rw [Except.ok.injEq, Registry.mk.injEq]
    refine ⟨?_, hundo.symm⟩
    ext1
    · exact hterms.genesis.trans hgenesis.symm
    · exact hterms.genesisHeight.trans hgenesisHeight.symm
    · exact hterms.rules.trans hrules.symm
    · exact hr.symm
    · exact hnames.trans hrnames.symm
    · exact hrpending.symm
    · exact hexpiries

end Registry

/-! ## What a registry hands out -/

section Terms

variable (genesis : Txid) (genesisHeight : Nat) (rules : Genesis)

/-- Registries reached from `Registry::new`, with the deltas that `connect_delta` returned for the
blocks still connected, newest first. -/
inductive Registry.Recorded : List BlockDelta → Registry → Prop
  | new {r} : Registry.new genesis genesisHeight rules = .ok r → Recorded [] r
  | connect {deltas r r' height observations applied} : Recorded deltas r →
      r.connectDelta height observations = (.ok applied, r') → Recorded (applied.delta :: deltas) r'
  | disconnect {deltas r r' delta} : Recorded deltas r →
      r.disconnectDelta = (.ok delta, r') → Recorded deltas.tail r'
  | prune {deltas r} (keep : Nat) : Recorded deltas r → Recorded deltas (r.prune keep)

/-- The core of a run that only connects, with its deltas and its frames. -/
inductive Core.Trail : List BlockDelta → List Delta → Core → Prop
  | new : rules.validate = .ok () → Trail [] [] (Core.initial genesis genesisHeight rules)
  | connect {deltas frames core height observations sorted} : Trail deltas frames core →
      core.Admits height observations sorted →
      Trail (((core.open height).applyBlock sorted).1.forwardDelta
          ((core.open height).applyBlock sorted).1.frame :: deltas)
        (((core.open height).applyBlock sorted).1.frame :: frames)
        ((core.open height).applyBlock sorted).1.toCore

end Terms

variable {genesis : Txid} {genesisHeight : Nat} {rules : Genesis}

/-- Every run has its record. -/
theorem Registry.Reaches.recorded {blocks : List Block} {r : Registry}
    (h : Reaches genesis genesisHeight rules blocks r) :
    ∃ deltas, Recorded genesis genesisHeight rules deltas r := by
  induction h with
  | new hnew => exact ⟨[], .new hnew⟩
  | connect _ hconnect ih =>
      obtain ⟨deltas, hdeltas⟩ := ih
      exact ⟨_, hdeltas.connect hconnect⟩
  | disconnect _ hdisconnect ih =>
      obtain ⟨deltas, hdeltas⟩ := ih
      exact ⟨_, hdeltas.disconnect hdisconnect⟩
  | prune keep _ ih =>
      obtain ⟨deltas, hdeltas⟩ := ih
      exact ⟨deltas, hdeltas.prune keep⟩

namespace Core

theorem Trail.indexExact {deltas : List BlockDelta} {frames : List Delta} {core : Core}
    (h : Trail genesis genesisHeight rules deltas frames core) : core.IndexExact := by
  induction h with
  | new => exact Lib.SecondaryIndex.Exact.empty _
  | connect _ _ ih => exact (Registry.applyBlock_spec ih _ _).1

/-- The frame of a delta is the frame the delta was made of. -/
theorem undoFrame_forwardDelta (core : Core) (frame : Delta) :
    undoFrame (core.forwardDelta frame) = frame := by
  have hback : ∀ {T : Type} (value : Previous T), previous (beforeValue value) = value := by
    intro T value
    cases value <;> rfl
  obtain ⟨names, pending⟩ := frame
  simp [undoFrame, forwardDelta, Function.comp_def, hback]

theorem Trail.frames_eq {deltas : List BlockDelta} {frames : List Delta} {core : Core}
    (h : Trail genesis genesisHeight rules deltas frames core) :
    frames = deltas.map undoFrame := by
  induction h with
  | new => rfl
  | connect _ _ ih => rw [List.map_cons, undoFrame_forwardDelta, ih]

/-- The terms a trail runs under. -/
theorem Trail.terms {deltas : List BlockDelta} {frames : List Delta} {core : Core}
    (h : Trail genesis genesisHeight rules deltas frames core) :
    core.genesis = genesis ∧ core.genesisHeight = genesisHeight ∧ core.rules = rules ∧
      rules.validate = .ok () ∧ genesisHeight ≤ core.height := by
  induction h with
  | new hvalidate => exact ⟨rfl, rfl, rfl, hvalidate, Nat.le_refl _⟩
  | @connect _ _ core height _ sorted htrail hadmits ih =>
      have hterms := (Registry.applyBlock_spec htrail.indexExact height sorted).2.2
      obtain ⟨hg, hh, hr, hvalid, hle⟩ := ih
      refine ⟨hterms.genesis.trans hg, hterms.genesisHeight.trans hh, hterms.rules.trans hr,
        hvalid, ?_⟩
      rw [hterms.height]
      show genesisHeight ≤ height
      have hnext := hadmits.next
      omega

/-- **The newest deltas of a trail rewind.** -/
theorem Trail.rewinds {deltas : List BlockDelta} {frames : List Delta} {core : Core}
    (h : Trail genesis genesisHeight rules deltas frames core) (count : Nat) :
    ∃ state, (deltas.take count).foldlM (rewindFrame genesisHeight)
      ⟨core.names, core.pending, core.height⟩ = .ok state := by
  induction h generalizing count with
  | new => exact ⟨_, by rw [List.take_nil]; rfl⟩
  | @connect _ _ core height observations sorted htrail hadmits ih =>
      cases count with
      | zero => exact ⟨_, rfl⟩
      | succ count =>
          have hconnect := Registry.connectDelta_eq_ok.mpr
            ⟨sorted, (show (Registry.mk core []).Admits height observations sorted from hadmits),
              rfl, rfl⟩
          obtain ⟨hnames, hpending, _, _, hbefore, hbefore'⟩ :=
            Registry.connectDelta_delta (show (Registry.mk core []).IndexExact from
              htrail.indexExact) hconnect
          have hterms := (Registry.applyBlock_spec htrail.indexExact height sorted).2.2
          have hheight : ((core.open height).applyBlock sorted).1.height = height := hterms.height
          have hle := htrail.terms.2.2.2.2
          have hnext := hadmits.next
          obtain ⟨state, hstate⟩ := ih count
          refine ⟨state, ?_⟩
          rw [List.take_succ_cons, List.foldlM_cons, Except.bind_eq_ok]
          refine ⟨_, rewindFrame_eq_ok.mpr ⟨⟨rfl, ?_, hnames, ?_, hpending, ?_⟩, rfl⟩, ?_⟩
          · show genesisHeight < ((core.open height).applyBlock sorted).1.height
            omega
          · intro change hchange
            obtain ⟨entry, _, rfl⟩ := List.mem_map.mp hchange
            rfl
          · intro change hchange
            obtain ⟨entry, _, rfl⟩ := List.mem_map.mp hchange
            rfl
          · have hlower : ((core.open height).applyBlock sorted).1.height - 1 = core.height := by
              omega
            simp only [hlower]
            rw [← hstate]
            congr 2

end Core

namespace Registry

/-- The normal form of recorded registries: the core of a trail with some of its newest frames. -/
theorem Recorded.trail {deltas : List BlockDelta} {r : Registry}
    (h : Recorded genesis genesisHeight rules deltas r) :
    ∃ frames, Core.Trail genesis genesisHeight rules deltas frames r.toCore ∧
      r.undo <+: frames := by
  induction h with
  | new hnew =>
      obtain ⟨hvalidate, rfl⟩ := new_eq_ok.mp hnew
      exact ⟨[], .new hvalidate, List.prefix_refl []⟩
  | connect _ hconnect ih =>
      obtain ⟨frames, htrail, hprefix⟩ := ih
      obtain ⟨sorted, hadmits, rfl, rfl⟩ := connectDelta_eq_ok.mp hconnect
      exact ⟨_, .connect htrail hadmits, List.prefix_cons_inj _ |>.mpr hprefix⟩
  | @disconnect deltas r r' delta _ hdisconnect ih =>
      obtain ⟨frames, htrail, hprefix⟩ := ih
      obtain ⟨core, undo⟩ := r
      cases undo with
      | nil => cases hdisconnect
      | cons frame undo =>
          cases htrail with
          | new => simp at hprefix
          | connect htrail hadmits =>
              obtain ⟨rfl, hrest⟩ := List.cons_prefix_cons.mp hprefix
              rw [disconnectDelta_frame htrail.indexExact hadmits undo] at hdisconnect
              cases hdisconnect
              exact ⟨_, htrail, hrest⟩
  | prune keep _ ih =>
      obtain ⟨frames, htrail, hprefix⟩ := ih
      exact ⟨frames, htrail, (List.take_prefix keep _).trans hprefix⟩

/-- A registry is restored from its own parts and its newest deltas. -/
theorem Recorded.fromParts {deltas : List BlockDelta} {r : Registry}
    (h : Recorded genesis genesisHeight rules deltas r) :
    Registry.fromParts r.genesis r.genesisHeight r.rules r.height r.names r.pending
      (deltas.take r.undo.length).reverse = .ok r := by
  obtain ⟨frames, htrail, hprefix⟩ := h.trail
  obtain ⟨hgenesis, hgenesisHeight, hrules, hvalidate, hheight⟩ := htrail.terms
  refine fromParts_eq_ok.mpr ⟨hrules ▸ hvalidate, hgenesisHeight ▸ hheight, ?_, rfl, rfl, rfl, rfl,
    rfl, rfl, htrail.indexExact, ?_⟩
  · rw [List.reverse_reverse, hgenesisHeight]
    exact htrail.rewinds _
  · rw [List.map_reverse, List.reverse_reverse, List.map_take, ← htrail.frames_eq]
    exact List.prefix_iff_eq_take.mp hprefix

/-! ## What is accepted disconnects -/

/-- The pre-images of a delta's frame are the values before its changes. -/
theorem images_previous {K V : Type} (changes : List (Change K V)) :
    images (changes.map fun change => (change.key, previous change.before)) =
      changes.map fun change => (change.key, change.before) := by
  simp [images]

/-- The forward delta of a delta's frame is the delta, where its values after are in place. -/
theorem forwardDelta_undoFrame {core : Core} {frame : BlockDelta}
    (h : Fits genesisHeight core.names core.pending core.height frame) :
    core.forwardDelta (undoFrame frame) = frame := by
  obtain ⟨height, names, pending⟩ := frame
  obtain ⟨hheight, _, _, hnames, _, hpending⟩ := h
  have hmapNames : (names.map fun change : Change Name NameState =>
      (⟨change.key, change.before, core.names[change.key]?⟩ : Change Name NameState)) = names := by
    refine (List.map_congr_left fun change hmem => ?_).trans (List.map_id names)
    rw [hnames change hmem]
    rfl
  have hmapPending : (pending.map fun change : Change Txid PendingRecord =>
      (⟨change.key, change.before, core.pending[change.key]?⟩ :
        Change Txid PendingRecord)) = pending := by
    refine (List.map_congr_left fun change hmem => ?_).trans (List.map_id pending)
    rw [hpending change hmem]
    rfl
  simp only [Core.forwardDelta, undoFrame, List.map_map, Function.comp_def, beforeValue_previous,
    hmapNames, hmapPending]
  rw [← hheight]

/-- **One frame**: a registry whose newest frame is that of a fitting delta disconnects to it, and
to the maps before it. -/
theorem disconnectDelta_fits {r : Registry} {frame : BlockDelta} {undo : List Delta}
    (hindex : r.IndexExact) (hundo : r.undo = undoFrame frame :: undo)
    (h : Fits genesisHeight r.names r.pending r.height frame) :
    ∃ r', r.disconnectDelta = (.ok frame, r') ∧ r'.IndexExact ∧ r'.undo = undo ∧
      r'.names = writeBefore frame.names r.names ∧
      r'.pending = writeBefore frame.pending r.pending ∧ r'.height = r.height - 1 := by
  have hsub : checkedSub r.height 1 = some (r.height - 1) := by
    have hlater := h.later
    have hheight := h.height
    exact checkedSub_eq_some.mpr ⟨by omega, rfl⟩
  obtain ⟨hnames, hexact, hpending, _⟩ :=
    restoreName_foldl (undoFrame frame).names r.toCore hindex
  unfold disconnectDelta
  simp only [hundo, hsub, forwardDelta_undoFrame h]
  refine ⟨_, rfl, ?_, rfl, ?_, ?_, rfl⟩
  · rw [restorePending_foldl]
    exact hexact
  · rw [restorePending_foldl]
    show ((undoFrame frame).names.foldl restoreName r.toCore).names = _
    rw [hnames]
    show putAll (images (frame.names.map fun change => (change.key, previous change.before))) _ = _
    rw [images_previous]
    rfl
  · rw [restorePending_foldl]
    show putAll (images (frame.pending.map fun change => (change.key, previous change.before)))
      ((undoFrame frame).names.foldl restoreName r.toCore).pending = _
    rw [images_previous, hpending]
    rfl

/-- **All frames**: a registry whose frames are those of deltas that rewind disconnects to the
deltas, newest first. -/
theorem disconnectAll_rewinds {frames : List BlockDelta} {r : Registry} {state : Rewound}
    (hindex : r.IndexExact) (hundo : r.undo = frames.map undoFrame)
    (h : frames.foldlM (rewindFrame genesisHeight) ⟨r.names, r.pending, r.height⟩ = .ok state) :
    ∃ r', r.disconnectAll frames.length = some (frames, r') ∧ r'.undo = [] := by
  induction frames generalizing r with
  | nil => exact ⟨r, rfl, hundo⟩
  | cons frame rest ih =>
      rw [List.foldlM_cons, Except.bind_eq_ok] at h
      obtain ⟨next, hframe, hrest⟩ := h
      obtain ⟨hfits, rfl⟩ := rewindFrame_eq_ok.mp hframe
      obtain ⟨r₁, hdisconnect, hindex₁, hundo₁, hnames, hpending, hheight⟩ :=
        disconnectDelta_fits hindex hundo hfits
      rw [← hnames, ← hpending, ← hheight] at hrest
      obtain ⟨r', hall, hempty⟩ := ih hindex₁ hundo₁ hrest
      refine ⟨r', ?_, hempty⟩
      rw [List.length_cons, disconnectAll, hdisconnect]
      simp only [hall, Option.map_some]

/-- **`from_parts` restores exactly**: every run has a record of the deltas returned to it, a
registry of a run is restored from its parts and the deltas of its reversible blocks, and whatever
is accepted disconnects once for each frame, to the frames, newest first. -/
theorem from_parts_exact (genesis : Txid) (genesisHeight : Nat) (rules : Genesis) :
    (∀ blocks r, Reaches genesis genesisHeight rules blocks r →
      ∃ deltas, Recorded genesis genesisHeight rules deltas r) ∧
    (∀ deltas r, Recorded genesis genesisHeight rules deltas r →
      fromParts r.genesis r.genesisHeight r.rules r.height r.names r.pending
        (deltas.take r.undo.length).reverse = .ok r) ∧
    ∀ height names pending undo r,
      fromParts genesis genesisHeight rules height names pending undo = .ok r →
      ∃ r', r.disconnectAll undo.length = some (undo.reverse, r') ∧ r'.undo = [] := by
  refine ⟨fun _ _ h => h.recorded, fun _ _ h => h.fromParts, ?_⟩
  intro height names pending undo r h
  obtain ⟨_, _, ⟨state, hstate⟩, _, _, _, hheight, hnames, hpending, hindex, hundo⟩ :=
    fromParts_eq_ok.mp h
  rw [← hnames, ← hpending, ← hheight] at hstate
  rw [← List.map_reverse] at hundo
  have hall := disconnectAll_rewinds hindex hundo hstate
  rw [List.length_reverse] at hall
  exact hall

end Registry

/-- The open sample is restored after its claim. -/
theorem Registry.from_parts_exact_claim :
    fromParts Sample.claimedRegistry.genesis Sample.claimedRegistry.genesisHeight
      Sample.claimedRegistry.rules Sample.claimedRegistry.height Sample.claimedRegistry.names
      Sample.claimedRegistry.pending [⟨101, [], []⟩, Sample.claimDelta] =
        .ok Sample.claimedRegistry := by
  have hnew : Registry.new (Sample.txid 1) 100 Sample.openRules =
      .ok { Core.initial (Sample.txid 1) 100 Sample.openRules with undo := [] } := rfl
  have hconnect : (Registry.mk (Core.initial (Sample.txid 1) 100 Sample.openRules) []).connectDelta
      101 [] = (.ok ⟨[], ⟨101, [], []⟩⟩, Sample.openRegistry) := rfl
  have hrecorded := ((Recorded.new hnew).connect hconnect).connect Sample.connectDelta_claim
  exact (Registry.from_parts_exact (Sample.txid 1) 100 Sample.openRules).2.1 _ _ hrecorded

end Urma.Names
