import Urma.Names.Undo

/-!
# Runs of the registry

`Registry.Reaches blocks r`: the registry `r` is reached from `Registry::new` by
successful `connect_delta`, `disconnect_delta` and `prune` calls, and `blocks` are the
blocks still connected, newest first.

`Core.Chain` is the same with connects only. Undoing is exact, so a reachable registry is
the core of a chain of its connected blocks with the newest frames of that chain
(`Registry.Reaches.chain`); an invariant of all reachable registries then needs no case
for reorganisations.
-/

namespace Urma.Names

open Std
open Urma.Lib.Journal

/-- The arguments of one `connect_delta` call. -/
structure Block where
  height : Nat
  observations : List Observation
  deriving DecidableEq

/-- The observations of a run of blocks. -/
def observed (blocks : List Block) : List Observation :=
  blocks.flatMap Block.observations

/-- No two of the observations share a txid. -/
def DistinctTxids (observations : List Observation) : Prop :=
  (observations.map Observation.txid).Nodup

instance (observations : List Observation) : Decidable (DistinctTxids observations) :=
  inferInstanceAs (Decidable (observations.map Observation.txid).Nodup)

theorem DistinctTxids.append {first rest : List Observation}
    (h : DistinctTxids (first ++ rest)) :
    DistinctTxids first ∧ DistinctTxids rest ∧
      ∀ o ∈ first, o.txid ∉ rest.map Observation.txid := by
  unfold DistinctTxids at h
  rw [List.map_append, List.nodup_append] at h
  refine ⟨h.1, h.2.1, ?_⟩
  intro o ho hused
  exact h.2.2 _ (List.mem_map_of_mem ho) _ hused rfl

theorem DistinctTxids.sortByPosition {observations : List Observation}
    (h : DistinctTxids observations) : DistinctTxids (sortByPosition observations) :=
  ((List.perm_insertionSort _ observations).map _).nodup_iff.mpr h

/-- The registry a genesis starts. -/
def Core.initial (genesis : Txid) (genesisHeight : Nat) (rules : Genesis) : Core where
  genesis := genesis
  genesisHeight := genesisHeight
  rules := rules
  height := genesisHeight
  names := ∅
  pending := ∅
  expiries := ∅

theorem Registry.new_eq_ok {genesis : Txid} {genesisHeight : Nat} {rules : Genesis}
    {r : Registry} :
    Registry.new genesis genesisHeight rules = .ok r ↔
      rules.validate = .ok () ∧
        r = { Core.initial genesis genesisHeight rules with undo := [] } := by
  unfold Registry.new
  cases hvalidate : rules.validate with
  | error error => simp
  | ok u =>
      constructor
      · intro h; cases h; exact ⟨rfl, rfl⟩
      · rintro ⟨_, rfl⟩; rfl

/-! ## Reachable registries -/

section Terms

variable (genesis : Txid) (genesisHeight : Nat) (rules : Genesis)

/-- Registries reached from `Registry::new`, with the blocks still connected. -/
inductive Registry.Reaches : List Block → Registry → Prop
  | new {r} : Registry.new genesis genesisHeight rules = .ok r → Reaches [] r
  | connect {blocks r r' height observations applied} : Reaches blocks r →
      r.connectDelta height observations = (.ok applied, r') →
      Reaches (⟨height, observations⟩ :: blocks) r'
  | disconnect {blocks r r' delta} : Reaches blocks r →
      r.disconnectDelta = (.ok delta, r') → Reaches blocks.tail r'
  | prune {blocks r} (keep : Nat) : Reaches blocks r → Reaches blocks (r.prune keep)

/-- The core and the frames of a run that only connects. -/
inductive Core.Chain : List Block → List Delta → Core → Prop
  | new : rules.validate = .ok () → Chain [] [] (Core.initial genesis genesisHeight rules)
  | connect {blocks frames core height observations sorted} : Chain blocks frames core →
      core.Admits height observations sorted →
      Chain (⟨height, observations⟩ :: blocks)
        (((core.open height).applyBlock sorted).1.frame :: frames)
        ((core.open height).applyBlock sorted).1.toCore

end Terms

/-- A registry reached in some run under some rules. -/
def Registry.Reachable (r : Registry) : Prop :=
  ∃ blocks, Registry.Reaches r.genesis r.genesisHeight r.rules blocks r

variable {genesis : Txid} {genesisHeight : Nat} {rules : Genesis}

namespace Core

/-- **The invariant rule for chains.** -/
theorem Chain.invariant {inv : List Block → Core → Prop}
    (hnew : rules.validate = .ok () → inv [] (Core.initial genesis genesisHeight rules))
    (hconnect : ∀ blocks frames core height observations sorted,
      Chain genesis genesisHeight rules blocks frames core →
      core.Admits height observations sorted → inv blocks core →
      inv (⟨height, observations⟩ :: blocks)
        ((core.open height).applyBlock sorted).1.toCore)
    {blocks : List Block} {frames : List Delta} {core : Core}
    (h : Chain genesis genesisHeight rules blocks frames core) : inv blocks core := by
  induction h with
  | new hvalidate => exact hnew hvalidate
  | connect hchain hadmits ih => exact hconnect _ _ _ _ _ _ hchain hadmits ih

theorem Chain.indexExact {blocks : List Block} {frames : List Delta} {core : Core}
    (h : Chain genesis genesisHeight rules blocks frames core) : core.IndexExact := by
  induction h with
  | new => exact Lib.SecondaryIndex.Exact.empty _
  | connect _ _ ih => exact (Registry.applyBlock_spec ih _ _).1

/-- The passes of a chain's next block, as steps. -/
theorem Chain.steps {blocks : List Block} {frames : List Delta} {core : Core}
    (h : Chain genesis genesisHeight rules blocks frames core) (height : Nat)
    (sorted : List Observation) :
    Connecting.Steps sorted (core.open height) ((core.open height).applyBlock sorted).1 :=
  Connecting.applyBlock_steps (c := core.open height) h.indexExact sorted

/-- The terms a chain runs under. -/
theorem Chain.terms {blocks : List Block} {frames : List Delta} {core : Core}
    (h : Chain genesis genesisHeight rules blocks frames core) :
    core.genesis = genesis ∧ core.genesisHeight = genesisHeight ∧ core.rules = rules ∧
      rules.Valid := by
  induction h with
  | new hvalidate => exact ⟨rfl, rfl, rfl, Genesis.valid_of_validate hvalidate⟩
  | @connect _ _ _ height _ sorted hchain _ ih =>
      have hterms := (Registry.applyBlock_spec hchain.indexExact height sorted).2.2
      obtain ⟨hg, hh, hr, hvalid⟩ := ih
      exact ⟨hterms.genesis.trans hg, hterms.genesisHeight.trans hh, hterms.rules.trans hr,
        hvalid⟩

theorem Chain.height_eq {blocks : List Block} {frames : List Delta} {core : Core}
    (h : Chain genesis genesisHeight rules blocks frames core) :
    core.height = genesisHeight + blocks.length := by
  induction h with
  | new => rfl
  | @connect _ _ _ height _ sorted hchain hadmits ih =>
      have hterms := (Registry.applyBlock_spec hchain.indexExact height sorted).2.2
      rw [hterms.height]
      show _ = _ + (_ + 1)
      rw [← Nat.add_assoc, ← ih]
      exact hadmits.next

/-- Every pending record of a chain stands under the txid of an observation in it. -/
theorem Chain.keys {blocks : List Block} {frames : List Delta} {core : Core}
    (h : Chain genesis genesisHeight rules blocks frames core) :
    Connecting.Keys ((observed blocks).map Observation.txid) core.pending := by
  induction h with
  | new =>
      intro txid record hget
      simp [Core.initial] at hget
  | @connect blocks _ core height observations sorted hchain hadmits ih =>
      have hsplit : observed (⟨height, observations⟩ :: blocks) =
          observations ++ observed blocks := rfl
      rw [hsplit, List.map_append]
      refine (hchain.steps height sorted).invariant (fun c => Connecting.Keys _ c.pending) ?_ ?_
      · intro a b trigger hmem hstep hkeys
        apply hstep.keys hkeys
        intro o htrigger _
        have ho := hmem o htrigger
        rw [hadmits.sorted_eq, mem_sortByPosition] at ho
        exact List.mem_append_left _ (List.mem_map_of_mem ho)
      · intro txid record hget
        exact List.mem_append_right _ (ih txid record hget)

end Core

namespace Registry

/-- Disconnecting a registry whose newest frame is that of its last block gives back the
core that block was applied to. -/
theorem disconnectDelta_frame {core : Core} (hindex : core.IndexExact) {height : Nat}
    {observations sorted : List Observation} (hadmits : core.Admits height observations sorted)
    (undo : List Delta) :
    (Registry.mk ((core.open height).applyBlock sorted).1.toCore
      (((core.open height).applyBlock sorted).1.frame :: undo)).disconnectDelta =
      (.ok (((core.open height).applyBlock sorted).1.forwardDelta
        ((core.open height).applyBlock sorted).1.frame), ⟨core, undo⟩) :=
  disconnectDelta_connectDelta (r := ⟨core, undo⟩) hindex
    (connectDelta_eq_ok.mpr ⟨sorted, hadmits, rfl, rfl⟩)

/-- **Normal form of reachable registries**: the core of the chain of the connected blocks,
with a run of that chain's newest frames. -/
theorem Reaches.chain {blocks : List Block} {r : Registry}
    (h : Reaches genesis genesisHeight rules blocks r) :
    ∃ frames, Core.Chain genesis genesisHeight rules blocks frames r.toCore ∧
      r.undo <+: frames := by
  induction h with
  | new hnew =>
      obtain ⟨hvalidate, rfl⟩ := new_eq_ok.mp hnew
      exact ⟨[], .new hvalidate, List.prefix_refl []⟩
  | connect _ hconnect ih =>
      obtain ⟨frames, hchain, hprefix⟩ := ih
      obtain ⟨sorted, hadmits, _, rfl⟩ := connectDelta_eq_ok.mp hconnect
      exact ⟨_, .connect hchain hadmits, List.prefix_cons_inj _ |>.mpr hprefix⟩
  | @disconnect blocks r r' delta _ hdisconnect ih =>
      obtain ⟨frames, hchain, hprefix⟩ := ih
      obtain ⟨core, undo⟩ := r
      cases undo with
      | nil => cases hdisconnect
      | cons frame undo =>
          cases hchain with
          | new => simp at hprefix
          | connect hchain hadmits =>
              obtain ⟨rfl, hrest⟩ := List.cons_prefix_cons.mp hprefix
              rw [disconnectDelta_frame hchain.indexExact hadmits undo] at hdisconnect
              cases hdisconnect
              exact ⟨_, hchain, hrest⟩
  | prune keep _ ih =>
      obtain ⟨frames, hchain, hprefix⟩ := ih
      exact ⟨frames, hchain, (List.take_prefix keep _).trans hprefix⟩

theorem Reaches.indexExact {blocks : List Block} {r : Registry}
    (h : Reaches genesis genesisHeight rules blocks r) : r.IndexExact := by
  obtain ⟨_, hchain, _⟩ := h.chain
  exact hchain.indexExact

/-- A registry reached under some terms carries those terms. -/
theorem Reaches.reachable {blocks : List Block} {r : Registry}
    (h : Reaches genesis genesisHeight rules blocks r) : r.Reachable := by
  obtain ⟨_, hchain, _⟩ := h.chain
  obtain ⟨hg, hh, hr, _⟩ := hchain.terms
  exact ⟨blocks, by rw [hg, hh, hr]; exact h⟩

/-- Connecting a block that passes the checks of `connect_delta`. -/
theorem Reaches.connect_admitted {blocks : List Block} {r : Registry} (block : Block)
    (h : Reaches genesis genesisHeight rules blocks r)
    (hok : (r.admitBlock block.height block.observations).isOk = true) :
    Reaches genesis genesisHeight rules (block :: blocks)
      (r.connectDelta block.height block.observations).2 := by
  cases hadmitted : r.admitBlock block.height block.observations with
  | error error => rw [hadmitted] at hok; cases hok
  | ok sorted =>
      have hconnect := connectDelta_eq_ok.mpr ⟨sorted, Core.admitBlock_eq_ok.mp hadmitted, rfl, rfl⟩
      rw [hconnect]
      exact h.connect hconnect

theorem Reachable.indexExact {r : Registry} (h : r.Reachable) : r.IndexExact := by
  obtain ⟨_, hreaches⟩ := h
  exact hreaches.indexExact

theorem Reachable.connect {r r' : Registry} (h : r.Reachable) {height : Nat}
    {observations : List Observation} {applied : AppliedBlock}
    (hconnect : r.connectDelta height observations = (.ok applied, r')) : r'.Reachable := by
  obtain ⟨_, hreaches⟩ := h
  exact (hreaches.connect hconnect).reachable

/-- A block raises the height by one. -/
theorem connectDelta_height {r r' : Registry} {height : Nat} {observations : List Observation}
    {applied : AppliedBlock} (hindex : r.IndexExact)
    (h : r.connectDelta height observations = (.ok applied, r')) :
    height = r.height + 1 ∧ r'.height = height := by
  obtain ⟨sorted, hadmits, _, rfl⟩ := connectDelta_eq_ok.mp h
  have hterms := (applyBlock_spec hindex height sorted).2.2
  exact ⟨hadmits.next, hterms.height⟩

/-! ## Undoing whole runs -/

/-- Connect blocks in order; the deltas in the order of the blocks. -/
def connectAll (self : Registry) : List Block → Option (List BlockDelta × Registry)
  | [] => some ([], self)
  | block :: rest =>
    match self.connectDelta block.height block.observations with
    | (.ok applied, self) =>
      (self.connectAll rest).map fun (deltas, self) => (applied.delta :: deltas, self)
    | (.error _, _) => none

/-- Disconnect a number of blocks; the deltas in the order of the calls. -/
def disconnectAll (self : Registry) : Nat → Option (List BlockDelta × Registry)
  | 0 => some ([], self)
  | count + 1 =>
    match self.disconnectDelta with
    | (.ok delta, self) =>
      (self.disconnectAll count).map fun (deltas, self) => (delta :: deltas, self)
    | (.error _, _) => none

theorem connectAll_cons {r r' : Registry} {block : Block} {rest : List Block}
    {deltas : List BlockDelta} :
    r.connectAll (block :: rest) = some (deltas, r') ↔
      ∃ applied r₁ deltas₁, r.connectDelta block.height block.observations = (.ok applied, r₁) ∧
        r₁.connectAll rest = some (deltas₁, r') ∧ deltas = applied.delta :: deltas₁ := by
  rw [connectAll]
  rcases hconnect : r.connectDelta block.height block.observations with ⟨result, r₁⟩
  cases result with
  | error error =>
      constructor
      · intro h; cases h
      · rintro ⟨_, _, _, h, _⟩; cases h
  | ok applied =>
      simp only [Option.map_eq_some_iff, Prod.mk.injEq, Prod.exists, Except.ok.injEq]
      constructor
      · rintro ⟨deltas₁, r₂, hrest, rfl, rfl⟩
        exact ⟨applied, r₁, deltas₁, ⟨rfl, rfl⟩, hrest, rfl⟩
      · rintro ⟨_, _, deltas₁, ⟨rfl, rfl⟩, hrest, rfl⟩
        exact ⟨deltas₁, r', hrest, rfl, rfl⟩

theorem connectAll_height {blocks : List Block} {r r' : Registry} {deltas : List BlockDelta}
    (hreach : r.Reachable) (h : r.connectAll blocks = some (deltas, r')) :
    r'.height = r.height + blocks.length := by
  induction blocks generalizing r deltas with
  | nil => cases h; rfl
  | cons block rest ih =>
      obtain ⟨applied, r₁, deltas₁, hconnect, hrest, rfl⟩ := connectAll_cons.mp h
      obtain ⟨hnext, hheight⟩ := connectDelta_height hreach.indexExact hconnect
      have hrun := ih (hreach.connect hconnect) hrest
      rw [List.length_cons]
      omega

/-- One more disconnect after a run of them. -/
theorem disconnectAll_snoc {r r₁ r₂ : Registry} {count : Nat} {deltas : List BlockDelta}
    {delta : BlockDelta} (hrun : r.disconnectAll count = some (deltas, r₁))
    (hlast : r₁.disconnectDelta = (.ok delta, r₂)) :
    r.disconnectAll (count + 1) = some (deltas ++ [delta], r₂) := by
  induction count generalizing r deltas with
  | zero =>
      cases hrun
      simp [disconnectAll, hlast]
  | succ count ih =>
      rw [disconnectAll] at hrun ⊢
      rcases hfirst : r.disconnectDelta with ⟨result, r'⟩
      rw [hfirst] at hrun
      cases result with
      | error error => cases hrun
      | ok first =>
          simp only [Option.map_eq_some_iff, Prod.mk.injEq, Prod.exists] at hrun
          obtain ⟨deltas', r₁', hrest, rfl, rfl⟩ := hrun
          simp only [ih hrest, Option.map_some, List.cons_append]

/-- Disconnecting as many blocks as were connected is the identity, and returns the deltas
of the connects newest first. -/
theorem disconnectAll_connectAll {blocks : List Block} {r r' : Registry}
    {deltas : List BlockDelta} (hreach : r.Reachable)
    (h : r.connectAll blocks = some (deltas, r')) :
    r'.disconnectAll blocks.length = some (deltas.reverse, r) := by
  induction blocks generalizing r deltas with
  | nil => cases h; rfl
  | cons block rest ih =>
      obtain ⟨applied, r₁, deltas₁, hconnect, hrest, rfl⟩ := connectAll_cons.mp h
      rw [List.length_cons, List.reverse_cons]
      exact disconnectAll_snoc (ih (hreach.connect hconnect) hrest)
        (disconnectDelta_connectDelta hreach.indexExact hconnect)

/-- The delta an accepted block returns: unique keys, and a faithful record of both maps in
both directions. -/
theorem connectDelta_delta {r r' : Registry} {height : Nat}
    {observations : List Observation} {applied : AppliedBlock} (hindex : r.IndexExact)
    (h : r.connectDelta height observations = (.ok applied, r')) :
    (applied.delta.names.map Change.key).Nodup ∧
    (applied.delta.pending.map Change.key).Nodup ∧
    writeAfter applied.delta.names r.names = r'.names ∧
    writeAfter applied.delta.pending r.pending = r'.pending ∧
    writeBefore applied.delta.names r'.names = r.names ∧
    writeBefore applied.delta.pending r'.pending = r.pending := by
  obtain ⟨sorted, _, rfl, rfl⟩ := connectDelta_eq_ok.mp h
  obtain ⟨_, hjournal, _⟩ := applyBlock_spec hindex height sorted
  generalize (r.toCore.open height).applyBlock sorted = block at *
  have hn := hjournal.names
  have hp := hjournal.pending
  refine ⟨?_, ?_, ?_, ?_, ?_, ?_⟩
  · have := hn.nodup
    rw [images_keys] at this
    simpa [Core.forwardDelta, List.map_map, Function.comp_def] using this
  · have := hp.nodup
    rw [images_keys] at this
    simpa [Core.forwardDelta, List.map_map, Function.comp_def] using this
  · have := hn.replay
    simpa [writeAfter, Core.forwardDelta, images, List.map_map, Function.comp_def] using this
  · have := hp.replay
    simpa [writeAfter, Core.forwardDelta, images, List.map_map, Function.comp_def] using this
  · have := hn.restore
    simpa [writeBefore, Core.forwardDelta, images, List.map_map, Function.comp_def] using this
  · have := hp.restore
    simpa [writeBefore, Core.forwardDelta, images, List.map_map, Function.comp_def] using this

/-- **Connecting and disconnecting are exact inverses** on reachable registries: one
disconnect returns the delta of the connect and restores every field, the delta records
both maps in both directions with unique keys, `k` connects followed by `k` disconnects are
the identity, and a call that fails changes nothing. -/
theorem connect_disconnect_exact {r : Registry} (hreach : r.Reachable) :
    (∀ height observations applied r',
      r.connectDelta height observations = (.ok applied, r') →
        r'.disconnectDelta = (.ok applied.delta, r) ∧
        (applied.delta.names.map Change.key).Nodup ∧
        (applied.delta.pending.map Change.key).Nodup ∧
        writeAfter applied.delta.names r.names = r'.names ∧
        writeAfter applied.delta.pending r.pending = r'.pending ∧
        writeBefore applied.delta.names r'.names = r.names ∧
        writeBefore applied.delta.pending r'.pending = r.pending) ∧
    (∀ blocks deltas r', r.connectAll blocks = some (deltas, r') →
      r'.disconnectAll blocks.length = some (deltas.reverse, r)) ∧
    (∀ height observations error,
      (r.connectDelta height observations).1 = .error error →
        (r.connectDelta height observations).2 = r) ∧
    (∀ error, r.disconnectDelta.1 = .error error → r.disconnectDelta.2 = r) := by
  refine ⟨?_, ?_, ?_, ?_⟩
  · intro height observations applied r' hconnect
    exact ⟨disconnectDelta_connectDelta hreach.indexExact hconnect,
      connectDelta_delta hreach.indexExact hconnect⟩
  · intro blocks deltas r' hconnect
    exact disconnectAll_connectAll hreach hconnect
  · intro height observations error herror
    exact connectDelta_error herror
  · intro error herror
    exact disconnectDelta_error herror

end Registry

/-! ## A small open registry

Concrete values for the runs that instantiate the theorems of this development. -/

namespace Sample

/-- A transaction id with one repeated byte. -/
def txid (byte : UInt8) : Txid := ⟨Vector.replicate 32 byte⟩

/-- A key with one repeated byte. -/
def key (byte : UInt8) : XOnlyPublicKey := ⟨Vector.replicate 32 byte⟩

/-- The name `a`. -/
def name : Name := ⟨[97], Name.check_letter⟩

/-- Ten blocks of binding, a window of two, no approvers. -/
def openRules : Genesis := ⟨.«open», 10, 2, 0, []⟩

/-- A registry founded at height 100, after the empty block 101. -/
def openRegistry : Registry :=
  { Core.initial (txid 1) 100 openRules with height := 101, undo := [⟨[], []⟩] }

/-- A claim of `a` in block 102, committed in block 101. -/
def claim : Observation where
  txid := txid 2
  author := key 1
  recordSha256 := Vector.replicate 32 0
  payload := .claim ⟨txid 1, Vector.replicate 16 0, name, txid 9⟩
  height := 102
  position := 1
  commit := ⟨txid 3, 0, 101, 0⟩

/-- The state the claim gives `a`. -/
def claimed : NameState :=
  { NameState.unbound with
    binding := .bound ⟨key 1, .publication (txid 9), 112, txid 2, txid 2⟩ }

/-- The delta of the block that holds the claim. -/
def claimDelta : BlockDelta := ⟨102, [⟨name, none, some claimed⟩], []⟩

/-- The registry after that block. -/
def claimedRegistry : Registry := (openRegistry.connectDelta 102 [claim]).2

theorem openRegistry_reaches :
    Registry.Reaches (txid 1) 100 openRules [⟨101, []⟩] openRegistry := by
  have hnew : Registry.new (txid 1) 100 openRules =
      .ok { Core.initial (txid 1) 100 openRules with undo := [] } := rfl
  have hconnect : (Registry.mk (Core.initial (txid 1) 100 openRules) []).connectDelta 101 [] =
      (.ok ⟨[], ⟨101, [], []⟩⟩, openRegistry) := rfl
  exact .connect (.new hnew) hconnect

theorem connectDelta_claim : openRegistry.connectDelta 102 [claim] =
    (.ok ⟨[⟨txid 2, 1, .applied⟩], claimDelta⟩, claimedRegistry) :=
  Prod.ext (by decide +kernel) rfl

theorem claimedRegistry_reaches :
    Registry.Reaches (txid 1) 100 openRules [⟨102, [claim]⟩, ⟨101, []⟩] claimedRegistry :=
  .connect openRegistry_reaches connectDelta_claim

end Sample

/-- Connecting and disconnecting the claim of `a`. -/
theorem Registry.connect_disconnect_exact_claim :
    Sample.claimedRegistry.disconnectDelta =
      (.ok Sample.claimDelta, Sample.openRegistry) :=
  ((Registry.connect_disconnect_exact Sample.openRegistry_reaches.reachable).1 _ _ _ _
    Sample.connectDelta_claim).1

end Urma.Names
