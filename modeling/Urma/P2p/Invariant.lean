import Urma.P2p.Offers
import Urma.P2p.Worker
import Urma.Runtime.HeaderInvariant

/-!
# What the worker keeps

Whatever peers send and whenever they come and go, each hash is in flight at most once, what is
cached are blocks of the selected chain, and the byte counter of the cache is right. Every program
of the worker keeps this for the chain it finds; only `sync_from` changes the chain, and then the
blocks that a reorganization abandons are cut out of the cache.
-/

namespace Urma.P2p

open Chain Lib Urma.Runtime Stateful

variable {Addr : Type} {client : Client Addr} {inPlay : List Header}

/-! ## Blocks of the selected chain -/

/-- A block with the transactions and witnesses its header commits to. -/
structure Intact (crate : ConsensusCrate) (block : Block) : Prop where
  merkleRoot : Merkle.root crate.node (crate.txids block) = some block.header.merkleRoot
  witnesses : checkWitnessCommitment crate block = true

/-- The bytes are an intact block whose header is the one of the chain at the height. -/
def BlockAt (client : Client Addr) (headers : HeaderChain) (height : ℕ) (hash : Bytes32)
    (raw : Bytes) : Prop :=
  ∃ block, Decode.esploraBlock client.blocks client.consensus raw client.chain hash = .ok block ∧
    headers.headerAt height = .ok block.header ∧ client.pow.blockHash block.header = hash ∧
    Intact client.consensus block

variable {headers next : HeaderChain} {height : ℕ} {hash : Bytes32} {raw : Bytes}

/-- The hash of the block is that of the chain at its height. -/
theorem BlockAt.hashAt (h : BlockAt client headers height hash raw) :
    headers.hashAt client.pow height = .ok hash := by
  obtain ⟨block, _, hheader, hhash, _⟩ := h
  exact hashAt_eq_ok.mpr ⟨block.header, hheader, hhash⟩

/-- The block stays one of the chain when its height keeps its header. -/
theorem BlockAt.of_headerAt (h : BlockAt client headers height hash raw)
    (hnext : ∀ header, headers.headerAt height = .ok header →
      next.headerAt height = .ok header) : BlockAt client next height hash raw := by
  obtain ⟨block, hdecode, hheader, hrest⟩ := h
  exact ⟨block, hdecode, hnext _ hheader, hrest⟩

/-- What the checks of `admit_block` establish. -/
theorem blockAt_of_decode (hlawful : client.Lawful) {block : Block}
    (hdecode : Decode.esploraBlock client.blocks client.consensus raw client.chain hash = .ok block)
    (hheader : headers.headerAt height = .ok block.header) :
    BlockAt client headers height hash raw := by
  obtain ⟨hhash, hroot, hwitnesses⟩ :=
    validateBlockIntegrity_eq_ok.mp (Decode.integrity_of_esploraBlock hdecode)
  rw [hlawful.blockHash] at hhash
  exact ⟨block, hdecode, hheader, hhash,
    (hlawful.consensus.checkMerkleRoot block).mp hroot, hwitnesses⟩

/-! ## The invariant -/

/-- The worker is in order, with a given chain. -/
structure Worker.Sound (client : Client Addr) (inPlay : List Header) (headers : HeaderChain)
    (worker : Worker Addr) : Prop where
  headers_eq : worker.headers = headers
  offers : ∀ peer ∈ worker.connected, peer.Within inPlay
  /-- Each hash is in flight at most once. -/
  flight : (worker.asked.map Asked.hash).Nodup
  cached : ∀ entry ∈ worker.blocks.entries,
    BlockAt client headers entry.height entry.hash entry.raw
  counted : worker.blocks.Counted

variable {worker : Worker Addr}

theorem Worker.Sound.connected (h : worker.Sound client inPlay headers)
    {connected : List (Peer Addr)} (hoffers : ∀ peer ∈ connected, peer.Within inPlay) :
    { worker with connected }.Sound client inPlay headers :=
  ⟨h.headers_eq, hoffers, h.flight, h.cached, h.counted⟩

theorem Worker.Sound.asked (h : worker.Sound client inPlay headers) {asked : List (Asked Addr)}
    (hflight : (asked.map Asked.hash).Nodup) : { worker with asked }.Sound client inPlay headers :=
  ⟨h.headers_eq, h.offers, hflight, h.cached, h.counted⟩

/-- Forgetting some of what was asked for. -/
theorem Worker.Sound.forget (h : worker.Sound client inPlay headers) (keep : Asked Addr → Bool) :
    { worker with asked := worker.asked.filter keep }.Sound client inPlay headers :=
  h.asked ((List.filter_sublist.map Asked.hash).nodup h.flight)

theorem Worker.Sound.instants (h : worker.Sound client inPlay headers) (instants : List ℕ) :
    { worker with instants }.Sound client inPlay headers :=
  ⟨h.headers_eq, h.offers, h.flight, h.cached, h.counted⟩

/-- A method of a peer leaves the rest of the worker alone. -/
theorem onPeer_ends {α : Type} {action : PeerM Addr α} {good : Peer Addr → α → Peer Addr → Prop}
    (haction : ∀ peer : Peer Addr, Ends action peer (keeping peer.Since (good peer)))
    (h : worker.Sound client inPlay headers) (index : ℕ) :
    Ends (onPeer index action) worker
      (keeping (fun left => left.Sound client inPlay headers ∧ left.asked = worker.asked)
        fun a left => ∃ peer ∈ worker.connected, ∃ after, worker.connected[index]? = some peer ∧
          left.connected[index]? = some after ∧ good peer a after) := by
  rw [onPeer, ends_ofOutcome]
  split
  · exact ⟨h, rfl⟩
  · next peer hpeer =>
      have hmem := List.mem_of_getElem? hpeer
      have hended := haction peer
      have hoffers : ∀ other ∈ worker.connected.set index (outcome action peer).2,
          other.Within inPlay := by
        intro other hother
        rcases List.mem_or_eq_of_mem_set hother with hold | rfl
        · exact h.offers other hold
        · exact hended.invariant.within (h.offers peer hmem)
      cases hresult : (outcome action peer).1 with
      | ok a =>
          refine ⟨⟨h.connected hoffers, rfl⟩, peer, hmem, _, hpeer, ?_, hended.value hresult⟩
          exact List.getElem?_set_self (List.getElem?_eq_some_iff.mp hpeer).1
      | error error => exact ⟨h.connected hoffers, rfl⟩

/-- The same, of the invariant alone. -/
theorem onPeer_sound {α : Type} {action : PeerM Addr α} {good : Peer Addr → α → Peer Addr → Prop}
    (haction : ∀ peer : Peer Addr, Ends action peer (keeping peer.Since (good peer)))
    (h : worker.Sound client inPlay headers) (index : ℕ) :
    Ends (onPeer index action) worker
      (keeping (Worker.Sound client inPlay headers) fun a left =>
        ∃ peer ∈ worker.connected, ∃ after, worker.connected[index]? = some peer ∧
          left.connected[index]? = some after ∧ good peer a after) := by
  apply (onPeer_ends haction h index).mono
  intro result left hpost
  cases result with
  | ok a => exact ⟨hpost.1.1, hpost.2⟩
  | error error => exact hpost.1

theorem instant_ends (h : worker.Sound client inPlay headers) :
    Ends instant worker (keeping (Worker.Sound client inPlay headers) fun _ left =>
      left.asked = worker.asked) :=
  ⟨h.instants _, rfl⟩

theorem forget_ends (h : worker.Sound client inPlay headers) :
    Ends (forget hash) worker (kept (Worker.Sound client inPlay headers)) :=
  ⟨h.forget _, trivial⟩

theorem progressed_ends [LinearOrder Addr] (h : worker.Sound client inPlay headers)
    (address : Addr) :
    Ends (progressed address) worker (kept (Worker.Sound client inPlay headers)) := by
  apply (instant_ends h).seq
  intro now left hleft _
  refine ⟨hleft.asked ?_, trivial⟩
  rw [List.map_map]
  have hsame : (Asked.hash ∘ fun row : Asked Addr =>
      if row.address = address then { row with since := now } else row) = Asked.hash := by
    funext row
    rw [Function.comp_apply]
    split <;> rfl
  rw [hsame]
  exact hleft.flight

/-! ## Admitting a block -/

/-- **A block is cached once it is known to be the chain's.** -/
theorem admitBlock_ends (hlawful : client.Lawful) (h : worker.Sound client inPlay headers) :
    Ends (admitBlock client raw hash height) worker
      (keeping (Worker.Sound client inPlay headers) fun _ _ =>
        BlockAt client headers height hash raw) := by
  rw [admitBlock]
  split
  · exact h
  · next block hdecode =>
      rw [admitDecoded, ends_get_bind, h.headers_eq]
      cases hheader : headers.headerAt height with
      | error error => exact h
      | ok header =>
          show Ends (if block.header ≠ header then _ else _) worker _
          split
          · exact h
          · next hsame =>
              rw [not_not] at hsame
              rw [← hsame] at hheader
              have hblock := blockAt_of_decode hlawful hdecode hheader
              obtain ⟨hcounted, hentries⟩ := h.counted.insert hash height raw
              refine ⟨⟨h.headers_eq, h.offers, h.flight, ?_, hcounted⟩, hblock⟩
              intro entry hentry
              rcases hentries entry hentry with hold | rfl
              · exact h.cached entry hold
              · exact hblock

/-! ## Asking ahead -/

theorem wantedAt_spec {blocks : BlockCache} {asked : List (Asked Addr)} (heights : List ℕ) :
    ((wantedAt client headers blocks asked heights).map Prod.fst).Sublist heights ∧
      ∀ row ∈ wantedAt client headers blocks asked heights,
        headers.hashAt client.pow row.1 = .ok row.2 ∧ row.2 ∉ asked.map Asked.hash := by
  induction heights with
  | nil => exact ⟨.refl _, nofun⟩
  | cons height heights ih =>
      rw [wantedAt]
      split
      · exact ⟨List.nil_sublist _, nofun⟩
      · next hash hhash =>
          split
          · exact ⟨ih.1.cons _, ih.2⟩
          · next hnew =>
              refine ⟨ih.1.cons_cons _, ?_⟩
              intro row hrow
              rcases List.mem_cons.mp hrow with rfl | hrest
              · refine ⟨hhash, ?_⟩
                intro hmem
                obtain ⟨held, hheld, rfl⟩ := List.mem_map.mp hmem
                apply hnew
                rw [Bool.or_eq_true, inFlight, List.any_eq_true]
                exact Or.inr ⟨held, hheld, decide_eq_true rfl⟩
              · exact ih.2 row hrest

/-- What is wanted has hashes of its own, none of them in flight. -/
theorem wanted_nodup (hsound : headers.Sound client.pow) {blocks : BlockCache}
    {asked : List (Asked Addr)} (hflight : (asked.map Asked.hash).Nodup) (start tip : ℕ) :
    (asked.map Asked.hash ++
      (wanted client headers blocks asked start tip).map Prod.snd).Nodup := by
  obtain ⟨hheights, hrows⟩ := @wantedAt_spec Addr client headers blocks asked
    (List.range' start (min (start + prefetchBlocks - 1) tip + 1 - start))
  rw [wanted]
  generalize wantedAt client headers blocks asked _ = rows at hheights hrows ⊢
  apply List.Nodup.append hflight
  · have hnodup := hheights.nodup List.nodup_range'
    rw [List.nodup_iff_pairwise_ne, List.pairwise_map] at hnodup ⊢
    apply hnodup.imp_of_mem
    intro row other hrow hother hne heq
    apply hne
    apply hsound.hashAt_inj (hrows row hrow).1
    rw [heq]
    exact (hrows other hother).1
  · intro hash hasked hwanted
    obtain ⟨row, hrow, rfl⟩ := List.mem_map.mp hwanted
    exact (hrows row hrow).2 hasked

theorem enqueue_perm (batches : List Batch) (index : ℕ) (row : ℕ × Bytes32) :
    ((enqueue batches index row).flatMap Prod.snd).Perm (row :: batches.flatMap Prod.snd) := by
  induction batches with
  | nil => exact .refl _
  | cons batch batches ih =>
      obtain ⟨asked, rows⟩ := batch
      rw [enqueue]
      split
      · rw [List.flatMap_cons, List.flatMap_cons, List.append_assoc, List.singleton_append]
        exact List.perm_middle
      · rw [List.flatMap_cons, List.flatMap_cons]
        exact (ih.append_left rows).trans List.perm_middle

/-- A batch puts its rows in flight, or nothing. -/
theorem askBatch_ends (h : worker.Sound client inPlay headers) {index : ℕ}
    {rows : List (ℕ × Bytes32)} {rest : List Bytes32}
    (hrows : (worker.asked.map Asked.hash ++ (rows.map Prod.snd ++ rest)).Nodup) :
    Ends (askBatch client index rows) worker
      (keeping (Worker.Sound client inPlay headers) fun _ left =>
        (left.asked.map Asked.hash ++ rest).Nodup) := by
  have hrest : (worker.asked.map Asked.hash ++ rest).Nodup :=
    (List.Sublist.append_left (List.sublist_append_right _ _) _).nodup hrows
  rw [askBatch]
  have hasking : ∀ peer : Peer Addr,
      Ends (askBlocks client (rows.map Prod.snd)) peer (kept peer.Since) :=
    fun peer => askBlocks_ends _
  apply (onPeer_ends hasking h index).attempt.bind
  · intro asking left hleft
    obtain ⟨⟨hsound, hasked⟩, _⟩ := hleft
    cases asking with
    | error error =>
        refine ⟨hsound, ?_⟩
        show (left.asked.map Asked.hash ++ rest).Nodup
        rw [hasked]
        exact hrest
    | ok u =>
        apply (instant_ends hsound).seq
        intro now later hlater hsame
        rw [ends_modify]
        rw [hasked] at hsame
        split
        · refine ⟨hlater, ?_⟩
          show (later.asked.map Asked.hash ++ rest).Nodup
          rw [hsame]
          exact hrest
        · next peer hpeer =>
            have hhashes : (later.asked ++ rowsOf peer.address rows now).map Asked.hash =
                worker.asked.map Asked.hash ++ rows.map Prod.snd := by
              rw [List.map_append, hsame, rowsOf, List.map_map]
              rfl
            rw [← List.append_assoc] at hrows
            constructor
            · apply hlater.asked
              rw [hhashes]
              exact hrows.of_append_left
            · show ((later.asked ++ rowsOf peer.address rows now).map Asked.hash ++ rest).Nodup
              rw [hhashes]
              exact hrows
  · intro error left hleft
    exact hleft.1

theorem askBatches_ends (h : worker.Sound client inPlay headers) {batches : List Batch}
    (hrows : (worker.asked.map Asked.hash ++
      (batches.flatMap Prod.snd).map Prod.snd).Nodup) :
    Ends (askBatches client batches) worker (kept (Worker.Sound client inPlay headers)) := by
  induction batches generalizing worker with
  | nil => exact ⟨h, trivial⟩
  | cons batch batches ih =>
      obtain ⟨index, rows⟩ := batch
      rw [List.flatMap_cons, List.map_append] at hrows
      apply (askBatch_ends h hrows).seq
      intro _ left hleft hrest
      exact ih hleft hrest

variable [LinearOrder Addr]

/-- **Each row goes to one peer**: what is assigned are the rows, as far as there are peers. -/
theorem assignFrom_perm {connected : List (Peer Addr)} {avoid : List Addr} {tip turn : ℕ}
    {rows : List (ℕ × Bytes32)} {batches : List Batch} :
    ∃ given : List (ℕ × Bytes32), given.Sublist rows ∧
      ((assignFrom client connected avoid tip turn rows batches).flatMap Prod.snd).Perm
        (batches.flatMap Prod.snd ++ given) := by
  induction rows generalizing turn batches with
  | nil =>
      refine ⟨[], .refl _, ?_⟩
      rw [List.append_nil]
      exact .refl _
  | cons row rows ih =>
      rw [assignFrom]
      split
      · refine ⟨[], List.nil_sublist _, ?_⟩
        rw [List.append_nil]
      · obtain ⟨given, hgiven, hperm⟩ := ih
        refine ⟨row :: given, hgiven.cons_cons row, hperm.trans ?_⟩
        exact ((enqueue_perm batches _ row).append_right given).trans List.perm_middle.symm

/-- **Filling the pipeline** asks for nothing that is in flight. -/
theorem fill_ends (hsound : headers.Sound client.pow) (h : worker.Sound client inPlay headers)
    (start : ℕ) (avoid : List Addr) :
    Ends (fill client start avoid) worker (kept (Worker.Sound client inPlay headers)) := by
  rw [fill, ends_get_bind, h.headers_eq]
  apply askBatches_ends h
  have hwanted := @wanted_nodup Addr client headers hsound worker.blocks _ h.flight start
    headers.tipHeight
  obtain ⟨given, hgiven, hperm⟩ := @assignFrom_perm Addr client _ worker.connected avoid
    headers.tipHeight 0 (wanted client headers worker.blocks worker.asked start headers.tipHeight) []
  rw [List.flatMap_nil, List.nil_append] at hperm
  rw [assign]
  apply ((hperm.map Prod.snd).append_left _).nodup_iff.mpr
  exact (List.Sublist.append_left (hgiven.map _) _).nodup hwanted

/-! ## Receiving -/

theorem absorbExpected_ends (hlawful : client.Lawful) (h : worker.Sound client inPlay headers)
    (address : Addr) :
    Ends (absorbExpected client address raw hash height) worker
      (kept (Worker.Sound client inPlay headers)) := by
  rw [absorbExpected, ends_get_bind]
  split
  · exact ⟨h.forget _, trivial⟩
  · split
    · apply (admitBlock_ends hlawful h).attempt.seq
      intro admitted left hleft _
      cases admitted with
      | error error => exact ⟨hleft, trivial⟩
      | ok u =>
          apply (forget_ends hleft).seq
          intro _ left hleft _
          apply (progressed_ends hleft address).seq
          intro _ left hleft _
          exact ⟨hleft, trivial⟩
    · exact ⟨h.forget _, trivial⟩

theorem absorbBlock_ends (hlawful : client.Lawful) (h : worker.Sound client inPlay headers)
    (address : Addr) :
    Ends (absorbBlock client address raw) worker
      (kept (Worker.Sound client inPlay headers)) := by
  rw [absorbBlock]
  split
  · exact ⟨h, trivial⟩
  · rw [ends_get_bind]
    split
    · exact ⟨h, trivial⟩
    · exact absorbExpected_ends hlawful h address

theorem absorbBlocks_ends (hlawful : client.Lawful) (h : worker.Sound client inPlay headers)
    (address : Addr) (raws : List Bytes) :
    Ends (absorbBlocks client address raws) worker
      (kept (Worker.Sound client inPlay headers)) := by
  induction raws generalizing worker with
  | nil => exact ⟨h, trivial⟩
  | cons raw raws ih =>
      apply (absorbBlock_ends hlawful h address).seq
      intro fails left hleft _
      apply (ih hleft).seq
      intro failed left hleft _
      exact ⟨hleft, trivial⟩

theorem absorbPeers_ends (hlawful : client.Lawful) (h : worker.Sound client inPlay headers)
    (peers : List (Peer Addr)) :
    Ends (absorbPeers client peers) worker (kept (Worker.Sound client inPlay headers)) := by
  induction peers generalizing worker with
  | nil => exact ⟨h, trivial⟩
  | cons peer peers ih =>
      rw [absorbPeers, forgetFrom, ends_modify_bind]
      apply (absorbBlocks_ends hlawful (h.forget _) peer.address peer.arrived).seq
      intro failed left hleft _
      apply (ih hleft).seq
      intro more left hleft _
      exact ⟨hleft, trivial⟩

theorem absorbArrivals_ends (hlawful : client.Lawful) (h : worker.Sound client inPlay headers) :
    Ends (absorbArrivals client) worker (kept (Worker.Sound client inPlay headers)) := by
  rw [absorbArrivals, ends_get_bind, ends_modify_bind]
  apply absorbPeers_ends hlawful
  apply h.connected
  intro peer hpeer
  obtain ⟨held, hheld, rfl⟩ := List.mem_map.mp hpeer
  exact h.offers held hheld

theorem dropFailed_ends (h : worker.Sound client inPlay headers) (failed : List Addr) :
    Ends (dropFailed failed) worker (kept (Worker.Sound client inPlay headers)) := by
  induction failed generalizing worker with
  | nil => exact ⟨h, trivial⟩
  | cons address failed ih =>
      rw [dropFailed, forgetPeer, ends_modify_bind, ends_modify_bind]
      apply ih
      apply (h.forget _).connected
      intro peer hpeer
      exact h.offers peer (List.mem_filter.mp hpeer).1

theorem settle_ends (hlawful : client.Lawful) (h : worker.Sound client inPlay headers) :
    Ends (settle client) worker (kept (Worker.Sound client inPlay headers)) := by
  rw [settle, ends_modify_bind]
  apply (absorbArrivals_ends hlawful (h.connected (pollIdle_within h.offers))).seq
  intro failed left hleft _
  have hexpired : Ends expired left (kept (Worker.Sound client inPlay headers)) :=
    ⟨hleft.instants _, trivial⟩
  apply hexpired.seq
  intro late left hleft _
  exact dropFailed_ends hleft _

theorem received_ends (hlawful : client.Lawful) (h : worker.Sound client inPlay headers)
    (index : ℕ) :
    Ends (received client index hash) worker (kept (Worker.Sound client inPlay headers)) := by
  apply (forget_ends h).seq
  intro _ left hleft _
  rw [ends_get_bind]
  split
  · exact settle_ends hlawful hleft
  · next peer _ =>
      apply (progressed_ends hleft peer.address).seq
      intro _ left hleft _
      exact settle_ends hlawful hleft

/-- **What is received** is the block of the chain that was waited for. -/
theorem receive_ends (hlawful : client.Lawful) (h : worker.Sound client inPlay headers)
    (index : ℕ) :
    Ends (receive client index height hash) worker
      (keeping (Worker.Sound client inPlay headers) fun raw _ =>
        BlockAt client headers height hash raw) := by
  have hawait : ∀ peer : Peer Addr, Ends (awaitBlock client hash) peer (kept peer.Since) :=
    fun peer => awaitBlock_ends hash
  apply (onPeer_sound hawait h index).seq
  intro raw left hleft _
  apply (admitBlock_ends hlawful hleft).seq
  intro _ left hleft hblock
  apply (received_ends hlawful hleft index).seq
  intro _ left hleft _
  exact ⟨hleft, hblock⟩

/-! ## Fetching -/

theorem giveUp_ends (h : worker.Sound client inPlay headers) (index : ℕ) (address : Option Addr) :
    Ends (giveUp index address) worker (kept (Worker.Sound client inPlay headers)) := by
  have hremoved : ∀ {left : Worker Addr}, left.Sound client inPlay headers →
      Ends (removePeer index) left (kept (Worker.Sound client inPlay headers)) := by
    intro left hleft
    refine ⟨hleft.connected ?_, trivial⟩
    intro peer hpeer
    exact hleft.offers peer (List.mem_of_mem_eraseIdx hpeer)
  cases address with
  | none => exact hremoved h
  | some address =>
      rw [giveUp, forgetPeer, ends_modify_bind]
      exact hremoved (h.forget _)

theorem fillIfNobody_ends (hsound : headers.Sound client.pow)
    (h : worker.Sound client inPlay headers) (lacking : List Addr) :
    Ends (fillIfNobody client hash height lacking) worker
      (kept (Worker.Sound client inPlay headers)) := by
  rw [fillIfNobody, ends_get_bind]
  split
  · exact ⟨h, trivial⟩
  · exact fill_ends hsound h height lacking

theorem fetchLoop_ends (hlawful : client.Lawful) (hsound : headers.Sound client.pow)
    (h : worker.Sound client inPlay headers) (attempts : ℕ) (failures : List String)
    (lacking : List Addr) :
    Ends (fetchLoop client hash height attempts failures lacking) worker
      (keeping (Worker.Sound client inPlay headers) fun raw _ =>
        BlockAt client headers height hash raw) := by
  induction attempts generalizing worker failures lacking with
  | zero => exact h
  | succ attempts ih =>
      apply (fillIfNobody_ends hsound h lacking).seq
      intro _ left hleft _
      rw [ends_get_bind]
      split
      · exact hleft
      · next index _ =>
          apply (receive_ends hlawful hleft index).attempt.seq
          intro received left hleft hblock
          split
          · next raw =>
              apply (fill_ends hsound hleft (height + 1) lacking).seq
              intro _ left hleft _
              exact ⟨hleft, hblock raw rfl⟩
          · apply (forget_ends hleft).seq
            intro _ left hleft _
            exact ih hleft _ _
          · apply (giveUp_ends hleft index _).seq
            intro _ left hleft _
            exact ih hleft _ _

/-- **What a fetch returns** is a block of the chain with the hash asked for, be it cached or
fetched from a peer. -/
theorem fetchBlock_ends (hlawful : client.Lawful) (hsound : headers.Sound client.pow)
    (h : worker.Sound client inPlay headers) :
    Ends (fetchBlock client hash) worker
      (keeping (Worker.Sound client inPlay headers) fun raw _ =>
        ∃ height, BlockAt client headers height hash raw) := by
  rw [fetchBlock, ends_get_bind]
  split
  · exact h
  · next height _ =>
      split
      · next raw hcached =>
          apply (fill_ends hsound h (height + 1) []).seq
          intro _ left hleft _
          obtain ⟨entry, hentry, rfl, rfl⟩ := BlockCache.mem_of_get hcached
          exact ⟨hleft, entry.height, h.cached entry hentry⟩
      · apply (fetchLoop_ends hlawful hsound h fetchAttempts [] []).weaken
        intro raw _ _ hblock
        exact ⟨height, hblock⟩

end Urma.P2p
