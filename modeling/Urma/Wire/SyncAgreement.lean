import Mathlib.Data.List.Induction
import Urma.Wire.BatchOrdered
import Urma.Web.StoreAuthentic
import Urma.Wire.Sync

/-!
# A synced index is that of the chain

Between two calls the source's chain may change in any way. Below, an index that was built on a
chain is rolled back to what that chain shares with the next one, and extended on the next. So an
index that reaches the tip is the one a fresh sync builds, and what is stored was always built on
the chain of some call.
-/

namespace Urma.Wire

open Chain

variable {E : Type} {crates : WireCrates}

/-! ## Chains -/

/-- The best chain of a source. Only the blocks up to the tip are its own. -/
structure BestChain where
  tip : ℕ
  block : ℕ → Block

/-- `Block::block_hash`. -/
def hashOf (crates : WireCrates) (block : Block) : Bytes32 :=
  crates.reveal.consensus.blockHash block.header

/-- The blocks and transactions sources ever serve. -/
structure World where
  blocks : Block → Prop
  transactions : Transaction → Prop

/-- A hash stands for one block and a txid for one transaction, witnesses apart. The text of a hash
stands for the hash. -/
structure World.Sound (crates : WireCrates) (world : World) : Prop where
  hash : ∀ block other, world.blocks block → world.blocks other →
    hashOf crates block = hashOf crates other → block = other
  txid : ∀ tx other, world.transactions tx → world.transactions other →
    crates.reveal.consensus.computeTxid tx = crates.reveal.consensus.computeTxid other →
      tx.strip = other.strip
  display : Function.Injective crates.displayHash

/-- Every transaction a source answers with has the txid that was asked for. -/
def Delivers (crates : WireCrates) (world : World) (reader : Reader E) : Prop :=
  ∀ height position txid tx, reader.transaction height position txid = .ok tx →
    world.transactions tx ∧ crates.reveal.consensus.computeTxid tx = txid

/-- During one call the source answers from one chain, or fails. -/
structure Serves (crates : WireCrates) (world : World) (reader : Reader E)
    (chain : BestChain) : Prop where
  mined : ∀ height ≤ chain.tip, world.blocks (chain.block height)
  linked : ∀ height < chain.tip,
    (chain.block (height + 1)).header.prevBlockhash = hashOf crates (chain.block height)
  genesis : ∀ hash, reader.genesis = .ok hash → hash = hashOf crates (chain.block 0)
  tipHeight : ∀ tip, reader.tipHeight = .ok tip → tip = chain.tip
  blockHash : ∀ height ≤ chain.tip, ∀ hash, reader.blockHash height = .ok hash →
    hash = hashOf crates (chain.block height)
  block : ∀ height ≤ chain.tip, ∀ pair, reader.block height = .ok pair →
    pair = (chain.block height, hashOf crates (chain.block height))
  transaction : Delivers crates world reader

variable {world : World} {chain other : BestChain} {start height position : ℕ}

/-! ## Entries -/

/-- An entry reads the txid and the outputs of the commit only. -/
theorem verifiedEntry_congr {tx commit commit' : Transaction}
    (htxid : crates.reveal.consensus.computeTxid commit' =
      crates.reveal.consensus.computeTxid commit)
    (hstrip : commit'.strip = commit.strip) :
    verifiedEntry crates tx commit' height position =
      verifiedEntry crates tx commit height position := by
  rw [verifiedEntry, verifiedEntry, VerifiedRecord.verify, VerifiedRecord.verify,
    Envelope.verifyRecordProof, Envelope.verifyRecordProof, htxid,
    Transaction.output_eq_of_strip hstrip]

/-- What a transaction adds, once its commit was delivered, does not depend on who delivered it. -/
theorem readTransaction_unique {E' : Type} {reader : Reader E} {reader' : Reader E'}
    (hsound : world.Sound crates) (hreader : Delivers crates world reader)
    (hreader' : Delivers crates world reader') {tx : Transaction} {entries entries' : List Entry}
    (h : readTransaction crates reader height position tx = .ok entries)
    (h' : readTransaction crates reader' height position tx = .ok entries') :
    entries = entries' := by
  rw [readTransaction] at h h'
  by_cases hread : isRead tx = true
  · rw [if_pos hread] at h h'
    split at h
    · next candidate input _ hcandidate hinput =>
        simp only [hcandidate, hinput, Except.bind_eq_ok, SyncError.ofWire_eq_ok,
          protocol_eq_ok] at h h'
        obtain ⟨kind, hkind, h⟩ := h
        obtain ⟨kind', hkind', h'⟩ := h'
        rw [hkind] at hkind'
        cases hkind'
        by_cases hwire : (!isWireKind kind) = true
        · rw [if_pos hwire] at h h'
          rw [Except.ok.inj h.symm, Except.ok.inj h'.symm]
        · rw [if_neg hwire] at h h'
          simp only [Except.bind_eq_ok, SyncError.ofSource_eq_ok, SyncError.ofWire_eq_ok,
            protocol_eq_ok] at h h'
          obtain ⟨commit, hcommit, place, hplace, h⟩ := h
          obtain ⟨commit', hcommit', place', hplace', h'⟩ := h'
          rw [hplace] at hplace'
          cases hplace'
          obtain ⟨hknown, htxid⟩ := hreader _ _ _ _ hcommit
          obtain ⟨hknown', htxid'⟩ := hreader' _ _ _ _ hcommit'
          have hsame := htxid'.trans htxid.symm
          rw [verifiedEntry_congr hsame (hsound.txid _ _ hknown' hknown hsame)] at h'
          split at h <;> rename_i hentry <;> simp only [hentry] at h' <;>
            rw [Except.ok.inj h.symm, Except.ok.inj h'.symm]
    · next hnone =>
        split at h'
        · next candidate input _ hcandidate hinput =>
            exact absurd hinput (hnone candidate input _ hcandidate)
        · rw [Except.ok.inj h.symm, Except.ok.inj h'.symm]
  · rw [if_neg hread] at h h'
    rw [Except.ok.inj h.symm, Except.ok.inj h'.symm]

/-- An entry has the place it was made for. -/
theorem verifiedEntry_place {tx commit : Transaction} {entry : Entry}
    (h : verifiedEntry crates tx commit height position = .ok (some entry)) :
    entry.height = height ∧ entry.position = position := by
  simp only [verifiedEntry, entryFromRecord, Except.bind_eq_ok, protocol_eq_ok] at h
  obtain ⟨record, _, kind, _, h⟩ := h
  split at h
  · cases h
  · obtain ⟨_, _, hentry⟩ := Except.bind_eq_ok.mp h
    cases hentry
    exact ⟨rfl, rfl⟩

/-- A transaction adds at most one entry, at its own place. -/
theorem readTransaction_place {reader : Reader E} {tx : Transaction} {entries : List Entry}
    (h : readTransaction crates reader height position tx = .ok entries) :
    entries = [] ∨ ∃ entry, entries = [entry] ∧ entry.height = height ∧
      entry.position = position := by
  rw [readTransaction] at h
  split at h
  · split at h
    · simp only [Except.bind_eq_ok, SyncError.ofWire_eq_ok, protocol_eq_ok] at h
      obtain ⟨kind, _, h⟩ := h
      split at h
      · exact Or.inl (Except.ok.inj h).symm
      · simp only [Except.bind_eq_ok, SyncError.ofSource_eq_ok, SyncError.ofWire_eq_ok,
          protocol_eq_ok] at h
        obtain ⟨commit, _, place, hplace, h⟩ := h
        split at h
        · next entry hentry =>
            rw [(tryU32_eq_ok.mp hplace).2] at hentry
            exact Or.inr ⟨entry, (Except.ok.inj h).symm, verifiedEntry_place hentry⟩
        · exact Or.inl (Except.ok.inj h).symm
        · exact Or.inl (Except.ok.inj h).symm
    · exact Or.inl (Except.ok.inj h).symm
  · exact Or.inl (Except.ok.inj h).symm

/-- The entries of a block, as some source that delivers what exists gives them. -/
def EntriesOf (crates : WireCrates) (world : World) (block : Block) (height : ℕ)
    (entries : List Entry) : Prop :=
  ∃ (E : Type) (reader : Reader E), Delivers crates world reader ∧
    readEntries crates reader height 0 block.txdata = .ok entries

theorem readEntries_unique {E' : Type} {reader : Reader E} {reader' : Reader E'}
    (hsound : world.Sound crates) (hreader : Delivers crates world reader)
    (hreader' : Delivers crates world reader') {txs : List Transaction}
    {entries entries' : List Entry}
    (h : readEntries crates reader height position txs = .ok entries)
    (h' : readEntries crates reader' height position txs = .ok entries') :
    entries = entries' := by
  induction txs generalizing position entries entries' with
  | nil => rw [Except.ok.inj h.symm, Except.ok.inj h'.symm]
  | cons tx txs ih =>
      simp only [readEntries, Except.bind_eq_ok] at h h'
      obtain ⟨first, hfirst, rest, hrest, h⟩ := h
      obtain ⟨first', hfirst', rest', hrest', h'⟩ := h'
      rw [Except.ok.inj h.symm, Except.ok.inj h'.symm,
        readTransaction_unique hsound hreader hreader' hfirst hfirst', ih hrest hrest']

/-- **A block has one list of entries**, whoever delivered the commits. -/
theorem EntriesOf.unique (hsound : world.Sound crates) {block : Block}
    {entries entries' : List Entry} (h : EntriesOf crates world block height entries)
    (h' : EntriesOf crates world block height entries') : entries = entries' := by
  obtain ⟨_, _, hreader, hread⟩ := h
  obtain ⟨_, _, hreader', hread'⟩ := h'
  exact readEntries_unique hsound hreader hreader' hread hread'

/-- The order of entries. -/
def Entry.Before (entry later : Entry) : Prop :=
  entry.height < later.height ∨ entry.height = later.height ∧ entry.position < later.position

theorem readEntries_ordered {reader : Reader E} {txs : List Transaction} {entries : List Entry}
    (h : readEntries crates reader height position txs = .ok entries) :
    entries.Pairwise Entry.Before ∧
      ∀ entry ∈ entries, entry.height = height ∧ position ≤ entry.position := by
  induction txs generalizing position entries with
  | nil =>
      cases h
      exact ⟨.nil, by nofun⟩
  | cons tx txs ih =>
      simp only [readEntries, Except.bind_eq_ok] at h
      obtain ⟨first, hfirst, rest, hrest, h⟩ := h
      cases h
      obtain ⟨hordered, hplaces⟩ := ih hrest
      have hlater : ∀ entry ∈ rest, entry.height = height ∧ position ≤ entry.position :=
        fun entry hentry => ⟨(hplaces entry hentry).1, by have := (hplaces entry hentry).2; omega⟩
      rcases readTransaction_place hfirst with rfl | ⟨entry, rfl, hheight, hposition⟩
      · exact ⟨hordered, hlater⟩
      · refine ⟨List.pairwise_cons.mpr ⟨fun later hmem => ?_, hordered⟩, fun other hother => ?_⟩
        · obtain ⟨hsame, hafter⟩ := hplaces later hmem
          exact Or.inr ⟨by rw [hheight, hsame], by omega⟩
        · rcases List.mem_cons.mp hother with rfl | hother
          · exact ⟨hheight, by omega⟩
          · exact hlater other hother

/-! ## What is built on a chain -/

/-- The checkpoint of a chain at a height. -/
def checkpointAt (crates : WireCrates) (chain : BestChain) (height : ℕ) : Checkpoint :=
  ⟨height, crates.displayHash (hashOf crates (chain.block height))⟩

/-- The checkpoints and entries of so many blocks of a chain, from a start height on. -/
inductive Built (crates : WireCrates) (world : World) (chain : BestChain) (start : ℕ) :
    ℕ → List Checkpoint → List Entry → Prop
  | nil : Built crates world chain start 0 [] []
  | snoc {count : ℕ} {blocks : List Checkpoint} {entries more : List Entry} :
      Built crates world chain start count blocks entries → start + count ≤ chain.tip →
        EntriesOf crates world (chain.block (start + count)) (start + count) more →
          Built crates world chain start (count + 1)
            (blocks ++ [checkpointAt crates chain (start + count)]) (entries ++ more)

namespace Built

variable {count : ℕ} {blocks blocks' : List Checkpoint} {entries entries' : List Entry}

theorem length (h : Built crates world chain start count blocks entries) :
    blocks.length = count := by
  induction h with
  | nil => rfl
  | snoc _ _ _ ih => rw [List.length_append, ih, List.length_singleton]

theorem heights (h : Built crates world chain start count blocks entries) :
    blocks.map Checkpoint.height = List.range' start count := by
  induction h with
  | nil => rfl
  | snoc _ _ _ ih =>
      rw [List.map_append, ih, List.range'_concat, Nat.one_mul]
      rfl

/-- **What is built on a chain is determined by it.** -/
theorem unique (hsound : world.Sound crates)
    (h : Built crates world chain start count blocks entries)
    (h' : Built crates world chain start count blocks' entries') :
    blocks = blocks' ∧ entries = entries' := by
  induction h generalizing blocks' entries' with
  | nil =>
      cases h'
      exact ⟨rfl, rfl⟩
  | snoc _ _ hmore ih =>
      cases h' with
      | snoc hfirst' _ hmore' =>
          obtain ⟨rfl, rfl⟩ := ih hfirst'
          rw [hmore.unique hsound hmore']
          exact ⟨rfl, rfl⟩

/-- The entries are in order, and below the next height. -/
theorem ordered (h : Built crates world chain start count blocks entries) :
    entries.Pairwise Entry.Before ∧ ∀ entry ∈ entries, entry.height < start + count := by
  induction h with
  | nil => exact ⟨.nil, by nofun⟩
  | snoc _ _ hmore ih =>
      obtain ⟨hordered, hbelow⟩ := ih
      obtain ⟨_, _, _, hread⟩ := hmore
      obtain ⟨hmoreOrdered, hplaces⟩ := readEntries_ordered hread
      refine ⟨List.pairwise_append.mpr ⟨hordered, hmoreOrdered, fun entry hentry later hlater => ?_⟩,
        fun entry hentry => ?_⟩
      · have := hbelow entry hentry
        have := (hplaces later hlater).1
        exact Or.inl (by omega)
      · rcases List.mem_append.mp hentry with hentry | hentry
        · have := hbelow entry hentry
          omega
        · have := (hplaces entry hentry).1
          omega

/-- A chain that has the last block has all of them. -/
theorem transfer (hsound : world.Sound crates)
    (hlinked : ∀ height < chain.tip,
      (chain.block (height + 1)).header.prevBlockhash = hashOf crates (chain.block height))
    (hlinked' : ∀ height < other.tip,
      (other.block (height + 1)).header.prevBlockhash = hashOf crates (other.block height))
    (hmined : ∀ height ≤ chain.tip, world.blocks (chain.block height))
    (hmined' : ∀ height ≤ other.tip, world.blocks (other.block height))
    (h : Built crates world chain start count blocks entries)
    (hlast : ∀ before, count = before + 1 → start + before ≤ other.tip ∧
      chain.block (start + before) = other.block (start + before)) :
    Built crates world other start count blocks entries := by
  induction h with
  | nil => exact .nil
  | @snoc count blocks entries more _ htip hmore ih =>
      obtain ⟨htip', hblock⟩ := hlast count rfl
      have hcheckpoint : checkpointAt crates chain (start + count) =
          checkpointAt crates other (start + count) := by
        rw [checkpointAt, checkpointAt, hblock]
      rw [hcheckpoint]
      rw [hblock] at hmore
      refine .snoc (ih fun before hbefore => ?_) htip' hmore
      cases hbefore
      refine ⟨by omega, hsound.hash _ _ (hmined _ (by omega)) (hmined' _ (by omega)) ?_⟩
      rw [← hlinked _ (by omega), ← hlinked' _ (by omega)]
      rw [show start + before + 1 = start + (before + 1) by omega, hblock]

/-- Every block and every entry is of the chain. -/
theorem onChain (h : Built crates world chain start count blocks entries) :
    (∀ checkpoint ∈ blocks, ∃ height ≤ chain.tip,
      checkpoint = checkpointAt crates chain height) ∧
      ∀ entry ∈ entries, ∃ height ≤ chain.tip, checkpointAt crates chain height ∈ blocks ∧
        ∃ all, EntriesOf crates world (chain.block height) height all ∧ entry ∈ all := by
  induction h with
  | nil => exact ⟨by nofun, by nofun⟩
  | @snoc count blocks entries more _ htip hmore ih =>
      refine ⟨fun checkpoint hcheckpoint => ?_, fun entry hentry => ?_⟩
      · rcases List.mem_append.mp hcheckpoint with hcheckpoint | hcheckpoint
        · exact ih.1 checkpoint hcheckpoint
        · exact ⟨_, htip, List.mem_singleton.mp hcheckpoint⟩
      · rcases List.mem_append.mp hentry with hentry | hentry
        · obtain ⟨height, hheight, hmem, hall⟩ := ih.2 entry hentry
          exact ⟨height, hheight, List.mem_append_left _ hmem, hall⟩
        · exact ⟨_, htip, List.mem_append_right _ List.mem_cons_self, more, hmore, hentry⟩

end Built

/-! ## Indexes -/

/-- An index that was built on a chain. -/
structure Sits (crates : WireCrates) (world : World) (chain : BestChain) (index : Index) :
    Prop where
  format : index.format = indexFormat
  built : Built crates world chain index.start index.blocks.length index.blocks index.entries

/-- Two indexes of one source and one start. -/
structure Alike (index index' : Index) : Prop where
  genesis : index'.genesis = index.genesis
  start : index'.start = index.start

variable {reader : Reader E} {index final : Index} {tip : ℕ}

/-- What stands has the hash the chain has there. -/
theorem stands_eq_true (hserves : Serves crates world reader chain) {last : Checkpoint}
    (h : stands crates reader chain.tip last = .ok true) :
    last.height ≤ chain.tip ∧
      crates.displayHash (hashOf crates (chain.block last.height)) = last.hash := by
  rw [stands] at h
  split at h
  · next hheight =>
      simp only [Except.bind_eq_ok, SyncError.ofSource_eq_ok, Except.ok.injEq, beq_iff_eq] at h
      obtain ⟨hash, hhash, hsame⟩ := h
      rw [hserves.blockHash _ hheight _ hhash] at hsame
      exact ⟨hheight, hsame⟩
  · cases h

/-- Without its last checkpoint an index is built on the same chain. -/
theorem Sits.pop {count : ℕ} {last : Checkpoint} (h : Sits crates world chain index)
    (hlast : index.blocks.getLast? = some last) (hcount : index.blocks.length = count + 1) :
    last = checkpointAt crates chain (index.start + count) ∧
      index.start + count ≤ chain.tip ∧
        Sits crates world chain (index.pop last) ∧ (index.pop last).blocks.length = count := by
  obtain ⟨hformat, hbuilt⟩ := h
  rw [hcount] at hbuilt
  generalize hblocks : index.blocks = blocks at *
  generalize hentries : index.entries = entries at *
  cases hbuilt with
  | @snoc _ before earlier more hbuilt htip hmore =>
      rw [List.getLast?_append, List.getLast?_singleton, Option.some_or, Option.some.injEq] at hlast
      have hheight : last.height = index.start + count := by rw [← hlast]; rfl
      have hkept : (earlier ++ more).filter (fun entry => entry.height < last.height) = earlier := by
        obtain ⟨_, _, _, hread⟩ := hmore
        rw [List.filter_append, List.filter_eq_self.mpr, List.filter_eq_nil_iff.mpr,
          List.append_nil]
        · intro entry hentry
          have := ((readEntries_ordered hread).2 entry hentry).1
          simp only [decide_eq_true_eq]
          omega
        · intro entry hentry
          have := hbuilt.ordered.2 entry hentry
          simp only [decide_eq_true_eq]
          omega
      have hpop : index.pop last = { index with blocks := before, entries := earlier } := by
        rw [Index.pop, hblocks, hentries, hkept, List.dropLast_concat]
      rw [hpop]
      refine ⟨hlast.symm, htip, ⟨hformat, ?_⟩, hbuilt.length⟩
      simp only [hbuilt.length]
      exact hbuilt

/-- The blocks of a source that served a chain: known, and linked. -/
structure Chained (crates : WireCrates) (world : World) (chain : BestChain) : Prop where
  mined : ∀ height ≤ chain.tip, world.blocks (chain.block height)
  linked : ∀ height < chain.tip,
    (chain.block (height + 1)).header.prevBlockhash = hashOf crates (chain.block height)

theorem Serves.chained (hserves : Serves crates world reader chain) :
    Chained crates world chain :=
  ⟨hserves.mined, hserves.linked⟩

/-- **Rolling back** leaves what was built on the old chain as built on the new one. -/
theorem rollbackBlocks_sits (hsound : world.Sound crates) (hold : Chained crates world other)
    (hserves : Serves crates world reader chain) {count removed removed' : ℕ}
    (hsits : Sits crates world other index) (hcount : index.blocks.length = count)
    (h : rollbackBlocks crates reader chain.tip count removed index = .ok (removed', final)) :
    Sits crates world chain final ∧ Alike index final := by
  induction count generalizing index removed with
  | zero =>
      obtain rfl : index = final := by cases h; rfl
      obtain ⟨hformat, hbuilt⟩ := hsits
      rw [hcount] at hbuilt
      refine ⟨⟨hformat, ?_⟩, rfl, rfl⟩
      rw [hcount]
      generalize index.blocks = blocks at *
      generalize index.entries = entries at *
      cases hbuilt
      exact .nil
  | succ count ih =>
      rw [rollbackBlocks] at h
      have hsome : index.blocks.getLast?.isSome := by
        rw [List.getLast?_isSome]
        intro hnil
        rw [hnil] at hcount
        cases hcount
      obtain ⟨last, hlast⟩ := Option.isSome_iff_exists.mp hsome
      obtain ⟨hcheckpoint, htip, hpopped, hlength⟩ := hsits.pop hlast hcount
      simp only [hlast, Except.bind_eq_ok] at h
      obtain ⟨standing, hstanding, h⟩ := h
      cases standing with
      | true =>
          obtain rfl : index = final := by cases h; rfl
          obtain ⟨hheight, hhash⟩ := stands_eq_true hserves hstanding
          rw [hcheckpoint] at hheight hhash
          have hblock : other.block (index.start + count) = chain.block (index.start + count) :=
            hsound.hash _ _ (hold.mined _ htip) (hserves.mined _ hheight)
              (hsound.display hhash).symm
          refine ⟨⟨hsits.format, hsits.built.transfer hsound hold.linked hserves.linked
            hold.mined hserves.mined fun before hbefore => ?_⟩, rfl, rfl⟩
          have hbefore : before = count := by omega
          rw [hbefore]
          exact ⟨hheight, hblock⟩
      | false =>
          obtain ⟨hfinal, hgenesis, hstart⟩ := ih hpopped hlength h
          exact ⟨hfinal, hgenesis, hstart⟩

/-- **Applying blocks** of a chain extends what was built on it. -/
theorem applyHeights_sits (hserves : Serves crates world reader chain) {count : ℕ}
    (hsits : Sits crates world chain index)
    (hwithin : ∀ height ∈ List.range' (index.start + index.blocks.length) count,
      height ≤ chain.tip)
    (h : applyHeights crates reader index
      (List.range' (index.start + index.blocks.length) count) = .ok final) :
    Sits crates world chain final ∧ Alike index final ∧
      final.blocks.length = index.blocks.length + count := by
  induction count generalizing index with
  | zero =>
      cases h
      exact ⟨hsits, ⟨rfl, rfl⟩, rfl⟩
  | succ count ih =>
      rw [List.range'_succ] at h hwithin
      obtain ⟨pair, middle, hpair, hmiddle, hrest⟩ := applyHeights_cons_eq_ok.mp h
      have hheight := hwithin _ List.mem_cons_self
      rw [hserves.block _ hheight _ hpair] at hmiddle
      obtain ⟨_, _, entries, hentries, hextended⟩ := applyBlock_eq_ok.mp hmiddle
      have hblocks : middle.blocks = index.blocks ++
          [checkpointAt crates chain (index.start + index.blocks.length)] := by
        rw [hextended]
        rfl
      have hlength : middle.blocks.length = index.blocks.length + 1 := by
        rw [hblocks, List.length_append, List.length_singleton]
      have hstart : middle.start = index.start := by rw [hextended]; rfl
      have hnext : middle.start + middle.blocks.length =
          index.start + index.blocks.length + 1 := by omega
      have hsits' : Sits crates world chain middle := by
        refine ⟨by rw [hextended]; exact hsits.format, ?_⟩
        rw [hlength, hstart, hblocks, show middle.entries = index.entries ++ entries by
          rw [hextended]; rfl]
        exact .snoc hsits.built hheight ⟨E, reader, hserves.transaction, hentries⟩
      rw [← hnext] at hrest
      obtain ⟨hfinal, halike, hfinalLength⟩ := ih hsits' (fun height hmem =>
        hwithin _ (List.mem_cons_of_mem _ (by rwa [hnext] at hmem))) hrest
      refine ⟨hfinal, ⟨?_, ?_⟩, by omega⟩
      · rw [halike.genesis, hextended]
        rfl
      · rw [halike.start, hstart]

/-- **A batch** extends what was built on the chain, however it ends; without an error it applies
the whole range. -/
theorem stream_sits {stream : StreamBatch E} (hstream : stream.Runs crates reader)
    (hserves : Serves crates world reader chain) {count : ℕ}
    (hsits : Sits crates world chain index)
    (hwithin : ∀ height ∈ List.range' (index.start + index.blocks.length) count,
      height ≤ chain.tip) :
    let outcome := stream index (List.range' (index.start + index.blocks.length) count)
    Sits crates world chain outcome.1 ∧ Alike index outcome.1 ∧
      index.blocks.length ≤ outcome.1.blocks.length := by
  intro outcome
  obtain ⟨state, hreach, _, hindex⟩ :=
    hstream index (List.range' (index.start + index.blocks.length) count)
  have hordered := Stream.Ordered.of_reachable (by decide) hreach
  have hexpected := hordered.expected
  have hcurrent := hordered.current
  rw [List.length_range'] at hexpected
  rw [List.take_range'_of_length_ge hexpected, hindex] at hcurrent
  obtain ⟨hfinal, halike, hlength⟩ := applyHeights_sits hserves hsits (fun height hheight =>
    hwithin height (by
      rw [List.mem_range'_1] at hheight ⊢
      omega)) hcurrent
  refine ⟨hfinal, halike, ?_⟩
  rw [show outcome.1.blocks.length = _ from hlength]
  omega

/-! ## One call -/

variable {files : FileCrates} {file : Option Index}

theorem load_eq_ok {read : Except WireError Unit} {stored : Index}
    (h : stored.load files read = .ok index) : index = stored ∧ index.format = indexFormat := by
  simp only [Index.load, Except.bind_eq_ok, ensureWire_eq_ok, beq_iff_eq] at h
  obtain ⟨_, _, _, _, _, hformat, _, _, _, _, _, _, _, _, hindex⟩ := h
  cases hindex
  exact ⟨rfl, hformat⟩

/-- **What is opened** is the stored index, or an empty one, of this source and this start. -/
theorem opened_eq_ok (hserves : Serves crates world reader chain)
    {read : Except WireError Unit} (h : opened crates files reader read file start = .ok index) :
    (file = some index ∨ file = none ∧ index.blocks = [] ∧ index.entries = []) ∧
      index.format = indexFormat ∧
        index.genesis = crates.displayHash (hashOf crates (chain.block 0)) ∧
          index.start = start := by
  rw [opened] at h
  obtain ⟨hash, hhash, h⟩ := Except.bind_eq_ok.mp h
  rw [hserves.genesis _ (SyncError.ofSource_eq_ok.mp hhash)] at h
  cases file with
  | some stored =>
      simp only [Except.bind_eq_ok, SyncError.ofWire_eq_ok, ensureWire_eq_ok, Bool.and_eq_true,
        beq_iff_eq] at h
      obtain ⟨found, hfound, _, ⟨hgenesis, hstart⟩, hindex⟩ := h
      cases hindex
      obtain ⟨hsame, hformat⟩ := load_eq_ok hfound
      exact ⟨Or.inl (by rw [hsame]), hformat, hgenesis, hstart⟩
  | none =>
      simp only [Except.bind_eq_ok, Except.ok.injEq] at h
      obtain ⟨found, hfound, _, _, hindex⟩ := h
      cases hindex
      cases hfound
      exact ⟨Or.inr ⟨rfl, rfl, rfl⟩, rfl, rfl, rfl⟩

/-- **Before the batch** the index is built on the chain of the call. -/
theorem prepare_eq_ok (hsound : world.Sound crates) (hserves : Serves crates world reader chain)
    (hfile : ∀ stored, file = some stored →
      ∃ other, Chained crates world other ∧ Sits crates world other stored)
    {read : Except WireError Unit} {maxBlocks removed : ℕ}
    (h : prepare crates files reader read file start maxBlocks = .ok (tip, removed, index)) :
    tip = chain.tip ∧ Sits crates world chain index ∧
      index.genesis = crates.displayHash (hashOf crates (chain.block 0)) ∧
        index.start = start := by
  simp only [prepare, Except.bind_eq_ok, SyncError.ofSource_eq_ok] at h
  obtain ⟨_, _, found, hfound, top, htop, ⟨count, rolled⟩, hrolled, hindex⟩ := h
  cases hindex
  obtain ⟨horigin, hformat, hgenesis, hstart⟩ := opened_eq_ok hserves hfound
  cases hserves.tipHeight _ htop
  obtain ⟨other, hold, hsits⟩ : ∃ other, Chained crates world other ∧
      Sits crates world other found := by
    rcases horigin with hstored | ⟨_, hblocks, hentries⟩
    · exact hfile _ hstored
    · refine ⟨chain, hserves.chained, hformat, ?_⟩
      rw [hblocks, hentries]
      exact .nil
  obtain ⟨hfinal, halike⟩ := rollbackBlocks_sits hsound hold hserves hsits rfl hrolled
  exact ⟨rfl, hfinal, by rw [halike.genesis, hgenesis], by rw [halike.start, hstart]⟩

theorem persist_file (write : Write) (file : Option Index) (index : Index) :
    (index.persist files write file).1 = file ∨
      (index.persist files write file).1 = some index := by
  unfold Index.persist
  split
  · split
    · cases write with
      | replaced => exact Or.inr rfl
      | refused cause => exact Or.inl rfl
      | unsynced cause => exact Or.inr rfl
    · exact Or.inl rfl
  · exact Or.inl rfl

/-- The file was left as it was, or holds an index built on the chain. -/
def LeftBy (crates : WireCrates) (world : World) (chain : BestChain)
    (file file' : Option Index) : Prop :=
  file' = file ∨ ∃ stored, file' = some stored ∧ Sits crates world chain stored

theorem LeftBy.trans {middle last : Option Index} (h : LeftBy crates world chain file middle)
    (h' : LeftBy crates world chain middle last) : LeftBy crates world chain file last := by
  rcases h' with rfl | h'
  · exact h
  · exact Or.inr h'

/-- Storing an index leaves the file as it was or with the index. -/
theorem persist_left {write : Write} (h : Sits crates world chain index) :
    LeftBy crates world chain file (index.persist files write file).1 := by
  rcases persist_file write file index with hsame | hnew
  · exact Or.inl hsame
  · exact Or.inr ⟨index, hnew, h⟩

/-- After the batch, so does what is left to do. -/
theorem conclude_left {write : Write} {removed next : ℕ} {base : Index}
    {streamed : Except (SyncError E) Unit} (h : Sits crates world chain index) :
    LeftBy crates world chain file
      (conclude crates files reader write file tip removed next base index streamed).1 := by
  simp only [conclude]
  split
  · cases confirmTail crates reader index with
    | error cause => exact Or.inl rfl
    | ok done => exact persist_left h
  · exact Or.inl rfl

/-- What is returned is the index of the batch, and it is complete when it reaches the tip. -/
theorem conclude_eq_ok {write : Write} {removed : ℕ} {base : Index}
    {streamed : Except (SyncError E) Unit} {report : SyncReport}
    (hstart : index.start = base.start) (hlength : base.blocks.length ≤ index.blocks.length)
    (h : (conclude crates files reader write file tip removed (base.start + base.blocks.length) base
      index streamed).2 = .ok (report, final)) :
    final = index ∧ (report.completeToTip = true →
      index.blocks ≠ [] ∧ index.start + index.blocks.length = tip + 1) := by
  simp only [conclude, Except.bind_eq_ok, Except.ok.injEq, Prod.mk.injEq] at h
  obtain ⟨_, _, _, _, complete, hcomplete, hreport, hfinal⟩ := h
  refine ⟨hfinal.symm, fun htip => ?_⟩
  cases hreport
  simp only at htip
  subst htip
  rw [completeToTip] at hcomplete
  split at hcomplete
  · cases hcomplete
  · next hblocks =>
      simp only [addHeight, Except.bind_eq_ok, Except.ok.injEq, beq_iff_eq] at hcomplete
      obtain ⟨reached, hreached, after, hafter, hsame⟩ := hcomplete
      split at hreached
      · next sum hsum =>
          split at hafter
          · next sum' hsum' =>
              cases hreached
              cases hafter
              have hsum := (checkedAdd_eq_some.mp hsum).2
              have hsum' := (checkedAdd_eq_some.mp hsum').2
              refine ⟨fun hnil => hblocks (by rw [hnil]; rfl), ?_⟩
              omega
          · cases hafter
      · cases hreached

/-- **One call** leaves the file as it was or with an index built on the chain of the call, and
what it returns is built on that chain; when it is complete it reaches the tip. -/
theorem sync_spec (hsound : world.Sound crates) (hserves : Serves crates world reader chain)
    {disk : Disk} {stream : StreamBatch E} (hstream : stream.Runs crates reader)
    (hfile : ∀ stored, file = some stored →
      ∃ other, Chained crates world other ∧ Sits crates world other stored)
    {maxBlocks : ℕ} :
    LeftBy crates world chain file
        (sync crates files reader disk stream file start maxBlocks).1 ∧
      ∀ report index,
        (sync crates files reader disk stream file start maxBlocks).2 = .ok (report, index) →
          Sits crates world chain index ∧
            index.genesis = crates.displayHash (hashOf crates (chain.block 0)) ∧
              index.start = start ∧ (report.completeToTip = true →
                index.blocks ≠ [] ∧ start + index.blocks.length = chain.tip + 1) := by
  rw [sync]
  cases hprepared : prepare crates files reader disk.read file start maxBlocks with
  | error cause => exact ⟨Or.inl rfl, by nofun⟩
  | ok prepared =>
      obtain ⟨tip, removed, base⟩ := prepared
      obtain ⟨htip, hbase, hgenesis, hstart⟩ := prepare_eq_ok hsound hserves hfile hprepared
      subst htip
      simp only
      generalize hpersisted : (if 0 < removed ∨ file = none then
        base.persist files disk.afterRollback file else (file, .ok ())) = persisted
      have hleft : LeftBy crates world chain file persisted.1 := by
        rw [← hpersisted]
        split
        · exact persist_left hbase
        · exact Or.inl rfl
      split
      · exact ⟨hleft, by nofun⟩
      · exact ⟨hleft, by nofun⟩
      · next next hstored hnext =>
          have hnext : next = base.start + base.blocks.length := by
            rw [addHeight] at hnext
            split at hnext
            · next sum hsum =>
                cases hnext
                exact (checkedAdd_eq_some.mp hsum).2
            · cases hnext
          subst hnext
          have hwithin : ∀ height ∈ List.range' (base.start + base.blocks.length)
              (min maxBlocks (chain.tip + 1 - (base.start + base.blocks.length))),
              height ≤ chain.tip := by
            intro height hheight
            rw [List.mem_range'_1] at hheight
            omega
          obtain ⟨hbatch, halike, hlonger⟩ := stream_sits hstream hserves hbase hwithin
          refine ⟨hleft.trans (conclude_left hbatch), fun report index hok => ?_⟩
          obtain ⟨rfl, hcomplete⟩ := conclude_eq_ok halike.start hlonger hok
          have hsame := halike.start.trans hstart
          refine ⟨hbatch, halike.genesis.trans hgenesis, hsame, fun htrue => ?_⟩
          obtain ⟨hsome, hreaches⟩ := hcomplete htrue
          rw [hsame] at hreaches
          exact ⟨hsome, hreaches⟩

/-! ## Histories -/

/-- One call of `sync` on a file. -/
structure Call (E : Type) where
  reader : Reader E
  chain : BestChain
  disk : Disk
  stream : StreamBatch E
  start : ℕ
  maxBlocks : ℕ

/-- The source answers from the chain, and the batch is one of `stream_batch`. -/
structure Call.Consistent (crates : WireCrates) (world : World) (call : Call E) : Prop where
  serves : Serves crates world call.reader call.chain
  streams : call.stream.Runs crates call.reader

def Call.run (crates : WireCrates) (files : FileCrates) (call : Call E) (file : Option Index) :
    Option Index × Except (SyncError E) (SyncReport × Index) :=
  sync crates files call.reader call.disk call.stream file call.start call.maxBlocks

/-- The file after some calls. There is none before the first. -/
def fileAfter (crates : WireCrates) (files : FileCrates) (calls : List (Call E)) : Option Index :=
  calls.foldl (fun file call => (call.run crates files file).1) none

/-- Every block and every entry of an index is of a chain, the entries of blocks of the index. -/
def OnChain (crates : WireCrates) (world : World) (chain : BestChain) (index : Index) : Prop :=
  (∀ checkpoint ∈ index.blocks, ∃ height ≤ chain.tip,
    checkpoint = checkpointAt crates chain height) ∧
    ∀ entry ∈ index.entries, ∃ height ≤ chain.tip,
      checkpointAt crates chain height ∈ index.blocks ∧
        ∃ all, EntriesOf crates world (chain.block height) height all ∧ entry ∈ all

/-- **What is stored** was built on the chain of some call. -/
theorem fileAfter_sits (hsound : world.Sound crates) {calls : List (Call E)}
    (hcalls : ∀ call ∈ calls, call.Consistent crates world) {stored : Index}
    (h : fileAfter crates files calls = some stored) :
    ∃ call ∈ calls, Sits crates world call.chain stored := by
  induction calls using List.reverseRecOn generalizing stored with
  | nil => cases h
  | append_singleton calls call ih =>
      have hearlier : ∀ stored, fileAfter crates files calls = some stored →
          ∃ call ∈ calls, Sits crates world call.chain stored :=
        fun stored => ih fun other hother => hcalls other (List.mem_append_left _ hother)
      have hcall := hcalls call (List.mem_append_right _ List.mem_cons_self)
      have hfile : ∀ stored, fileAfter crates files calls = some stored →
          ∃ other, Chained crates world other ∧ Sits crates world other stored := by
        intro stored hstored
        obtain ⟨other, hother, hsits⟩ := hearlier stored hstored
        exact ⟨other.chain,
          (hcalls other (List.mem_append_left _ hother)).serves.chained, hsits⟩
      rw [fileAfter, List.foldl_append] at h
      rcases (sync_spec hsound hcall.serves hcall.streams hfile).1 with hsame | ⟨index, hnew, hsits⟩
      · obtain ⟨other, hother, hsits⟩ := hearlier stored (hsame.symm.trans h)
        exact ⟨other, List.mem_append_left _ hother, hsits⟩
      · cases hnew.symm.trans h
        exact ⟨call, List.mem_append_right _ List.mem_cons_self, hsits⟩

/-- What is known of the file before a call. -/
theorem fileAfter_known (hsound : world.Sound crates) {calls : List (Call E)}
    (hcalls : ∀ call ∈ calls, call.Consistent crates world) (stored : Index)
    (h : fileAfter crates files calls = some stored) :
    ∃ other, Chained crates world other ∧ Sits crates world other stored := by
  obtain ⟨call, hcall, hsits⟩ := fileAfter_sits hsound hcalls h
  exact ⟨call.chain, (hcalls call hcall).serves.chained, hsits⟩

/-- One more call after some others. -/
theorem run_spec (hsound : world.Sound crates) {calls : List (Call E)} {last : Call E}
    (hcalls : ∀ call ∈ calls ++ [last], call.Consistent crates world) (files : FileCrates) :
    LeftBy crates world last.chain (fileAfter crates files calls)
        (last.run crates files (fileAfter crates files calls)).1 ∧
      ∀ report index,
        (last.run crates files (fileAfter crates files calls)).2 = .ok (report, index) →
          Sits crates world last.chain index ∧
            index.genesis = crates.displayHash (hashOf crates (last.chain.block 0)) ∧
              index.start = last.start ∧ (report.completeToTip = true →
                index.blocks ≠ [] ∧ last.start + index.blocks.length = last.chain.tip + 1) := by
  have hlast := hcalls last (List.mem_append_right _ List.mem_cons_self)
  exact sync_spec hsound hlast.serves hlast.streams (fileAfter_known hsound
    fun call hcall => hcalls call (List.mem_append_left _ hcall))

/-- Two indexes of one source that were built alike on one chain are the same. -/
theorem Sits.unique {index' : Index} (hsound : world.Sound crates)
    (h : Sits crates world chain index) (h' : Sits crates world chain index')
    (halike : Alike index index') (hlength : index'.blocks.length = index.blocks.length) :
    index = index' := by
  have hbuilt := h'.built
  rw [hlength, halike.start] at hbuilt
  obtain ⟨hblocks, hentries⟩ := h.built.unique hsound hbuilt
  have hformat := h.format.trans h'.format.symm
  have hgenesis := halike.genesis
  have hstart := halike.start
  cases index
  cases index'
  simp only at hblocks hentries hformat hgenesis hstart
  rw [hblocks, hentries, hformat, hgenesis, hstart]

theorem Sits.onChain (h : Sits crates world chain index) : OnChain crates world chain index :=
  h.built.onChain

/-- **An index that reaches the tip is that of a fresh sync.** After any two sequences of calls,
the source's chain changing between them in any way, two calls against one chain that reach its tip
return the same index: its checkpoints are contiguous from the start height to the tip, its entries
in the order of heights and places. And after every call, whether it fails or not, the file is the
one before it or holds nothing but blocks and entries of the chain of that call; so all it ever
holds was on the chain of some call. -/
theorem sync_agreement (hsound : world.Sound crates) {calls fresh : List (Call E)}
    {last lastFresh : Call E}
    (hcalls : ∀ call ∈ calls ++ [last], call.Consistent crates world)
    (hfresh : ∀ call ∈ fresh ++ [lastFresh], call.Consistent crates world)
    (hchain : lastFresh.chain = last.chain) (hstart : lastFresh.start = last.start)
    (files : FileCrates) :
    (∀ report index reportFresh indexFresh,
      (last.run crates files (fileAfter crates files calls)).2 = .ok (report, index) →
        report.completeToTip = true →
          (lastFresh.run crates files (fileAfter crates files fresh)).2 =
            .ok (reportFresh, indexFresh) → reportFresh.completeToTip = true →
              index = indexFresh ∧
                index.blocks.map Checkpoint.height =
                  List.range' last.start (last.chain.tip + 1 - last.start) ∧
                index.entries.Pairwise Entry.Before) ∧
      ∀ stored, fileAfter crates files (calls ++ [last]) = some stored →
        (fileAfter crates files calls = some stored ∨ OnChain crates world last.chain stored) ∧
          ∃ call ∈ calls ++ [last], OnChain crates world call.chain stored := by
  obtain ⟨hfile, hreturned⟩ := run_spec hsound hcalls files
  refine ⟨fun report index reportFresh indexFresh hrun hcomplete hrunFresh hcompleteFresh => ?_,
    fun stored hstored => ⟨?_, ?_⟩⟩
  · obtain ⟨hsits, hgenesis, hindexStart, hreaches⟩ := hreturned report index hrun
    obtain ⟨hsitsFresh, hgenesisFresh, hindexStartFresh, hreachesFresh⟩ :=
      (run_spec hsound hfresh files).2 reportFresh indexFresh hrunFresh
    obtain ⟨_, hlength⟩ := hreaches hcomplete
    obtain ⟨_, hlengthFresh⟩ := hreachesFresh hcompleteFresh
    rw [hchain] at hsitsFresh hgenesisFresh hlengthFresh
    rw [hstart] at hindexStartFresh hlengthFresh
    refine ⟨hsits.unique hsound hsitsFresh ⟨?_, ?_⟩ (by omega), ?_, hsits.built.ordered.1⟩
    · rw [hgenesis, hgenesisFresh]
    · rw [hindexStart, hindexStartFresh]
    · rw [hsits.built.heights, hindexStart]
      congr 1
      omega
  · rw [fileAfter, List.foldl_append] at hstored
    rcases hfile with hsame | ⟨index, hnew, hsits⟩
    · exact Or.inl (hsame.symm.trans hstored)
    · cases hnew.symm.trans hstored
      exact Or.inr hsits.onChain
  · obtain ⟨call, hcall, hsits⟩ := fileAfter_sits hsound hcalls hstored
    exact ⟨call, hcall, hsits.onChain⟩

/-! ## A reorganisation -/

/-- There is a batch for every index and range. -/
theorem exists_runs (crates : WireCrates) (reader : Reader E) :
    ∃ stream : StreamBatch E, stream.Runs crates reader := by
  have hall : ∀ index heights, ∃ outcome : Index × Except (SyncError E) Unit, ∃ state,
      Stream.Reachable crates reader heights fetchWorkers index state ∧
        state.Returned outcome.2 ∧ state.index = outcome.1 := by
    intro index heights
    obtain ⟨last, result, hreach, hreturned⟩ :=
      Stream.exists_returned (Stream.start fetchWorkers heights index)
    exact ⟨(last.index, result), last, hreach, hreturned, rfl⟩
  choose outcome houtcome using hall
  exact ⟨outcome, houtcome⟩

/-- A range that can be applied is. -/
theorem StreamBatch.Runs.eq_of_applied {stream : StreamBatch E} {heights : List ℕ}
    (hstream : stream.Runs crates reader)
    (h : applyHeights crates reader index heights = .ok final) :
    stream index heights = (final, .ok ()) := by
  obtain ⟨state, hreach, ⟨hfinished, _⟩, hindex⟩ := hstream index heights
  have hordered := Stream.Ordered.of_reachable (by decide) hreach
  have hjustified := hordered.result _ (Or.inr hfinished)
  cases hresult : (stream index heights).2 with
  | error cause =>
      rw [hresult] at hjustified
      exact absurd h (hjustified final)
  | ok done =>
      rw [hresult] at hjustified
      have hcurrent := hordered.current
      rw [show state.expected = heights.length from hjustified, List.take_length, h] at hcurrent
      rw [Except.ok.inj hcurrent, hindex, ← hresult]

namespace Sample

/-- Two chains that share their first block, and differ in the second by its nonce. -/
def branch (crates : WireCrates) (nonce : UInt32) : BestChain where
  tip := 1
  block
    | 0 => tipBlock
    | _ => ⟨⟨2, hashOf crates tipBlock, zeroHash, 0, 0, nonce⟩, []⟩

def branchReader (crates : WireCrates) (nonce : UInt32) : Reader String where
  genesis := .ok (hashOf crates ((branch crates nonce).block 0))
  tipHeight := .ok 1
  blockHash height := .ok (hashOf crates ((branch crates nonce).block height))
  block height :=
    .ok ((branch crates nonce).block height, hashOf crates ((branch crates nonce).block height))
  transaction _ _ _ := .error "unknown transaction"
  confirmHash height := .ok (hashOf crates ((branch crates nonce).block height))

/-- The three blocks, and no transactions. -/
def branches (crates : WireCrates) : World where
  blocks block := block = tipBlock ∨ block = (branch crates 1).block 1 ∨
    block = (branch crates 2).block 1
  transactions _ := False

theorem branches_sound : (branches wireCrates).Sound wireCrates where
  hash := by
    have hfirst : hashOf wireCrates tipBlock ≠
        hashOf wireCrates ((branch wireCrates 1).block 1) := by
      decide +kernel
    have hsecond : hashOf wireCrates tipBlock ≠
        hashOf wireCrates ((branch wireCrates 2).block 1) := by
      decide +kernel
    have hthird : hashOf wireCrates ((branch wireCrates 1).block 1) ≠
        hashOf wireCrates ((branch wireCrates 2).block 1) := by
      decide +kernel
    rintro block other (rfl | rfl | rfl) (rfl | rfl | rfl) hhash
    · rfl
    · exact absurd hhash hfirst
    · exact absurd hhash hsecond
    · exact absurd hhash.symm hfirst
    · rfl
    · exact absurd hhash hthird
    · exact absurd hhash.symm hsecond
    · exact absurd hhash.symm hthird
    · rfl
  txid := by nofun
  display := by
    intro hash other h
    have hreverse := List.reverse_injective (Web.hexEncode_inj h)
    exact Vector.toList_inj.mp hreverse

variable {nonce : UInt32} {stream : StreamBatch String}

theorem branchReader_serves (hnonce : nonce = 1 ∨ nonce = 2) :
    Serves crates (branches crates) (branchReader crates nonce) (branch crates nonce) where
  mined height _ := by
    cases height with
    | zero => exact Or.inl rfl
    | succ height =>
        rcases hnonce with rfl | rfl
        · exact Or.inr (Or.inl rfl)
        · exact Or.inr (Or.inr rfl)
  linked height hheight := by
    cases height with
    | zero => rfl
    | succ height => exact absurd hheight (by show ¬ height + 1 < 1; omega)
  genesis hash h := (Except.ok.inj h).symm
  tipHeight tip h := (Except.ok.inj h).symm
  blockHash height _ hash h := (Except.ok.inj h).symm
  block height _ pair h := (Except.ok.inj h).symm
  transaction := by nofun

/-- A file whose text is short, with texts that parse. -/
def fileCrates : FileCrates where
  toVec _ := []
  hexDecode _ := .ok []
  parseHash _ := .ok zeroHash
  parseTxid _ := .ok ⟨zeroHash⟩
  parseKey _ := .ok Envelope.Sample.generator

def branchDisk : Disk where
  read := .ok ()
  afterRollback := .replaced
  afterBatch := .replaced

def branchCall (crates : WireCrates) (nonce : UInt32) (stream : StreamBatch String) :
    Call String where
  reader := branchReader crates nonce
  chain := branch crates nonce
  disk := branchDisk
  stream := stream
  start := 1
  maxBlocks := 10

/-- An index without blocks: the first block comes before the start height. -/
def branchIndex (crates : WireCrates) : Index where
  format := indexFormat
  genesis := crates.displayHash (hashOf crates tipBlock)
  start := 1
  blocks := []
  entries := []

/-- The index at the tip of a branch. -/
def branchTip (crates : WireCrates) (nonce : UInt32) : Index :=
  (branchIndex crates).extend 1
    (crates.displayHash (hashOf crates ((branch crates nonce).block 1))) []

theorem applyHeights_branch :
    applyHeights crates (branchReader crates nonce) (branchIndex crates) [1] =
      .ok (branchTip crates nonce) :=
  applyHeights_cons_eq_ok.mpr ⟨_, branchTip crates nonce, rfl,
    applyBlock_eq_ok.mpr ⟨rfl, by rintro previous ⟨⟩, [], rfl, rfl⟩, rfl⟩

theorem prepare_fresh :
    prepare crates fileCrates (branchReader crates nonce) branchDisk.read none 1 10 =
      .ok (1, 0, branchIndex crates) := by
  simp [prepare, opened, branchReader, branch, branchIndex, rollback, rollbackBlocks, ensureWire,
    SyncError.ofWire, SyncError.ofSource, Except.mapError, bind, Except.bind]

/-- The index of the other branch is rolled back. -/
theorem prepare_branch
    (hother : crates.displayHash (hashOf crates ((branch crates 2).block 1)) ≠
      crates.displayHash (hashOf crates ((branch crates 1).block 1))) :
    prepare crates fileCrates (branchReader crates 2) branchDisk.read
      (some (branchTip crates 1)) 1 10 = .ok (1, 1, branchIndex crates) := by
  have hopened : opened crates fileCrates (branchReader crates 2) branchDisk.read
      (some (branchTip crates 1)) 1 = .ok (branchTip crates 1) := by
    show (SyncError.ofWire (ensureWire (crates.displayHash (hashOf crates tipBlock) ==
      crates.displayHash (hashOf crates tipBlock) && 1 == 1) _) >>= fun _ => _) = _
    rw [beq_self_eq_true]
    rfl
  have hstands : stands crates (branchReader crates 2) 1
      (checkpointAt crates (branch crates 1) 1) = .ok false := by
    show Except.ok (crates.displayHash (hashOf crates ((branch crates 2).block 1)) ==
      crates.displayHash (hashOf crates ((branch crates 1).block 1))) = _
    rw [beq_eq_false_iff_ne.mpr hother]
  have hrollback : rollback crates (branchReader crates 2) 1 (branchTip crates 1) =
      .ok (1, branchIndex crates) := by
    show (stands crates (branchReader crates 2) 1 (checkpointAt crates (branch crates 1) 1) >>=
      _) = _
    rw [hstands]
    rfl
  show (opened crates fileCrates (branchReader crates 2) branchDisk.read
    (some (branchTip crates 1)) 1 >>= _) = _
  rw [hopened]
  show (rollback crates (branchReader crates 2) 1 (branchTip crates 1) >>= _) = _
  rw [hrollback]
  rfl

/-- A call that starts from the first block reaches the tip. -/
theorem run_branch (hstream : stream.Runs crates (branchReader crates nonce))
    {file : Option Index} {removed : ℕ}
    (hprepared : prepare crates fileCrates (branchReader crates nonce) branchDisk.read
      file 1 10 = .ok (1, removed, branchIndex crates)) (hfile : 0 < removed ∨ file = none) :
    ∃ report, report.completeToTip = true ∧
      (branchCall crates nonce stream).run crates fileCrates file =
        (some (branchTip crates nonce), .ok (report, branchTip crates nonce)) := by
  have hbatch : stream (branchIndex crates) [1] = (branchTip crates nonce, .ok ()) :=
    hstream.eq_of_applied applyHeights_branch
  have hconfirm : confirmTail crates (branchReader crates nonce) (branchTip crates nonce) =
      .ok () := by
    show SyncError.ofWire (ensureWire
      (crates.displayHash (hashOf crates ((branch crates nonce).block 1)) ==
        crates.displayHash (hashOf crates ((branch crates nonce).block 1))) _) = _
    rw [beq_self_eq_true]
    rfl
  refine ⟨⟨1, removed, 0, 1, true⟩, rfl, ?_⟩
  rw [Call.run, sync]
  simp only [branchCall, hprepared]
  rw [if_pos hfile]
  show conclude crates fileCrates (branchReader crates nonce) .replaced (some (branchIndex crates))
    1 removed 1 (branchIndex crates) (stream (branchIndex crates) [1]).1
      (stream (branchIndex crates) [1]).2 = _
  rw [hbatch, conclude]
  simp only [hconfirm]
  rfl

end Sample

theorem sync_agreement_reorganised :
    ∃ (first second fresh : Call String) (report reportFresh : SyncReport)
      (index indexFresh : Index),
      first.chain = Sample.branch Sample.wireCrates 1 ∧
        second.chain = Sample.branch Sample.wireCrates 2 ∧ fresh.chain = second.chain ∧
          (second.run Sample.wireCrates Sample.fileCrates
            (fileAfter Sample.wireCrates Sample.fileCrates [first])).2 = .ok (report, index) ∧
          (fresh.run Sample.wireCrates Sample.fileCrates none).2 =
            .ok (reportFresh, indexFresh) ∧ index = indexFresh := by
  obtain ⟨stream, hstream⟩ := exists_runs Sample.wireCrates (Sample.branchReader _ 1)
  obtain ⟨stream', hstream'⟩ := exists_runs Sample.wireCrates (Sample.branchReader _ 2)
  have hother : Sample.wireCrates.displayHash
      (hashOf Sample.wireCrates ((Sample.branch Sample.wireCrates 2).block 1)) ≠
        Sample.wireCrates.displayHash
          (hashOf Sample.wireCrates ((Sample.branch Sample.wireCrates 1).block 1)) := by
    intro hsame
    have hhash := Sample.branches_sound.display hsame
    revert hhash
    decide +kernel
  obtain ⟨_, _, hfirst⟩ := Sample.run_branch hstream Sample.prepare_fresh (Or.inr rfl)
  obtain ⟨report, hcomplete, hsecond⟩ :=
    Sample.run_branch hstream' (Sample.prepare_branch hother) (Or.inl (by decide))
  obtain ⟨reportFresh, hcompleteFresh, hfresh⟩ :=
    Sample.run_branch hstream' Sample.prepare_fresh (Or.inr rfl)
  have hconsistent : ∀ call ∈ [Sample.branchCall Sample.wireCrates 1 stream] ++
      [Sample.branchCall Sample.wireCrates 2 stream'],
      call.Consistent Sample.wireCrates (Sample.branches Sample.wireCrates) := by
    rintro call (_ | ⟨_, _ | ⟨_, ⟨⟩⟩⟩)
    · exact ⟨Sample.branchReader_serves (Or.inl rfl), hstream⟩
    · exact ⟨Sample.branchReader_serves (Or.inr rfl), hstream'⟩
  have hconsistentFresh : ∀ call ∈ [] ++ [Sample.branchCall Sample.wireCrates 2 stream'],
      call.Consistent Sample.wireCrates (Sample.branches Sample.wireCrates) :=
    fun call hcall => hconsistent call (List.mem_append_right _ hcall)
  have hfile : fileAfter Sample.wireCrates Sample.fileCrates
      [Sample.branchCall Sample.wireCrates 1 stream] = some (Sample.branchTip _ 1) :=
    congrArg Prod.fst hfirst
  rw [← hfile] at hsecond
  have hrun := congrArg Prod.snd hsecond
  have hrunFresh := congrArg Prod.snd hfresh
  exact ⟨_, _, _, report, reportFresh, _, _, rfl, rfl, rfl, hrun, hrunFresh,
    ((sync_agreement Sample.branches_sound hconsistent hconsistentFresh rfl rfl
      Sample.fileCrates).1 _ _ _ _ hrun hcomplete hrunFresh hcompleteFresh).1⟩

end Urma.Wire
