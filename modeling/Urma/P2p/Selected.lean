import Urma.P2p.Invariant

/-!
# The pipeline yields blocks of the selected chain

The invariant of the worker over runs. Header rounds are the only steps that change the chain, to
one that was reached by the calls of `extend` so far; everything else keeps it.
-/

namespace Urma.P2p

open Chain Lib Urma.Runtime Stateful

variable {Addr : Type} {client : Client Addr} {inPlay : List Header}
  {opened : HeaderChain} {worker : Worker Addr}

/-! ## Header rounds -/

/-- The worker is in order, with the chain it has. -/
structure Worker.Good (client : Client Addr) (opened : HeaderChain) (inPlay : List Header)
    (worker : Worker Addr) : Prop where
  reached : opened.Reached client.pow worker.headers inPlay
  sound : worker.Sound client inPlay worker.headers

/-- A program that keeps the chain keeps the worker in order. -/
theorem Worker.Good.of_ends {α : Type} {p : WorkerM Addr α} {post : α → Worker Addr → Prop}
    (h : worker.Good client opened inPlay)
    (hends : Ends p worker (keeping (Worker.Sound client inPlay worker.headers) post)) :
    Ends p worker (keeping (Worker.Good client opened inPlay) post) := by
  have hgood : ∀ {left : Worker Addr}, left.Sound client inPlay worker.headers →
      left.Good client opened inPlay := by
    intro left hleft
    have hsame := hleft.headers_eq
    rw [← hsame] at hleft
    refine ⟨?_, hleft⟩
    rw [hsame]
    exact h.reached
  apply hends.mono
  intro result left hpost
  cases result with
  | ok a => exact ⟨hgood hpost.1, hpost.2⟩
  | error error => exact hgood hpost

/-- Between the extension and the prune: the blocks that were not abandoned are in order. -/
structure Worker.Extended (client : Client Addr) (opened : HeaderChain) (inPlay : List Header)
    (extension : Extension) (worker : Worker Addr) : Prop where
  reached : opened.Reached client.pow worker.headers inPlay
  offers : ∀ peer ∈ worker.connected, peer.Within inPlay
  flight : (worker.asked.map Asked.hash).Nodup
  cached : ∀ entry ∈ worker.blocks.entries,
    (∀ forkHeight appended, extension = .reorganized forkHeight appended →
      entry.height ≤ forkHeight) →
    BlockAt client worker.headers entry.height entry.hash entry.raw
  counted : worker.blocks.Counted

/-- What a call of `extend` does to a worker in order. -/
theorem extendHeaders_ends (hlawful : client.Lawful)
    (hfair : Plausible client.pow opened.chain inPlay) (h : worker.Good client opened inPlay)
    {batch : List Header} (hbatch : ∀ header ∈ batch, header ∈ inPlay) :
    Ends (extendHeaders client batch) worker fun result left =>
      match result with
      | .ok extension => left.Extended client opened inPlay extension
      | .error _ => left.Good client opened inPlay := by
  have hclock : Ends nowUnix worker (kept (Worker.Good client opened inPlay)) := by
    have hgood : { worker with clock := worker.clock.tail }.Good client opened inPlay :=
      ⟨h.reached, h.sound.headers_eq, h.sound.offers, h.sound.flight, h.sound.cached,
        h.sound.counted⟩
    show keeping _ _ (worker.clock.headD _) _
    cases worker.clock.headD (.error .integer) with
    | ok now => exact ⟨hgood, trivial⟩
    | error error => exact hgood
  apply hclock.bind
  · intro now left hleft
    obtain ⟨⟨hreached, hsound⟩, _⟩ := hleft
    rw [ends_ofOutcome]
    have hnext := @HeaderChain.Reached.extend client.pow left.headers hlawful.pow opened inPlay
      batch now hreached hfair hbatch
    have hcases := @extend_cases client.pow left.headers hlawful.pow inPlay batch now hreached.sound
      (by rw [hreached.sameAnchor.chain_eq]; exact hfair)
      fun header hheader => (List.mem_append.mp hheader).elim (hreached.stored header)
        (hbatch header)
    cases hextend : left.headers.extend client.pow batch now with
    | mk next result =>
        rw [hextend] at hnext hcases
        cases result with
        | error error =>
            rcases hcases with ⟨_, hsame, _⟩ | ⟨_, _, hsame, _⟩
            · cases hsame
              exact ⟨hreached, hsound⟩
            · cases hsame
        | ok extension =>
            refine ⟨hnext, hsound.offers, hsound.flight, ?_, hsound.counted⟩
            intro entry hentry hkept
            apply (hsound.cached entry hentry).of_headerAt
            intro header hheader
            exact headerAt_of_extend hextend hheader hkept
  · intro error left hleft
    exact hleft

theorem recordProof_socket {headers : HeaderChain} {batch : List Header} {peer : Peer Addr} :
    (recordProof client headers batch peer).socket = peer.socket := by
  rw [recordProof]
  split
  · rfl
  · split <;> rfl

/-- **A batch of headers** leaves the worker in order, with the chain it extends: what a
reorganization abandons is no longer cached. -/
theorem applyBatch_ends (hlawful : client.Lawful)
    (hfair : Plausible client.pow opened.chain inPlay) (h : worker.Good client opened inPlay)
    (index : ℕ) {batch : List Header} (hbatch : ∀ header ∈ batch, header ∈ inPlay) :
    Ends (applyBatch client index batch) worker (kept (Worker.Good client opened inPlay)) := by
  apply (extendHeaders_ends hlawful hfair h hbatch).bind
  · intro extension left hleft
    rw [recordAt, ends_modify_bind]
    have hoffers : ∀ peer ∈ left.connected.modify index (recordProof client left.headers batch),
        peer.Within inPlay := by
      intro peer hpeer
      obtain ⟨at', hat⟩ := List.mem_iff_getElem?.mp hpeer
      rw [List.getElem?_modify] at hat
      obtain ⟨held, hheld, hpeer⟩ := Option.map_eq_some_iff.mp hat
      have hwithin := hleft.offers held (List.mem_of_getElem? hheld)
      split at hpeer
      · rw [← hpeer, Peer.Within, recordProof_socket]
        exact hwithin
      · rw [← hpeer]
        exact hwithin
    cases extension with
    | reorganized forkHeight appended =>
        refine ⟨⟨hleft.reached, rfl, hoffers, hleft.flight, ?_, hleft.counted.pruneAbove _⟩, trivial⟩
        intro entry hentry
        obtain ⟨hmem, hbelow⟩ := List.mem_filter.mp hentry
        apply hleft.cached entry hmem
        rintro _ _ ⟨⟩
        exact of_decide_eq_true hbelow
    | appended | ignored =>
        refine ⟨⟨hleft.reached, rfl, hoffers, hleft.flight, ?_, hleft.counted⟩, trivial⟩
        intro entry hentry
        exact hleft.cached entry hentry nofun
  · intro error left hleft
    exact hleft

theorem syncLoop_ends (hlawful : client.Lawful)
    (hfair : Plausible client.pow opened.chain inPlay) (h : worker.Good client opened inPlay)
    (index rounds : ℕ) (advanced : Bool) :
    Ends (syncLoop client index rounds advanced) worker
      (kept (Worker.Good client opened inPlay)) := by
  induction rounds generalizing worker advanced with
  | zero => exact h
  | succ rounds ih =>
      apply (h.of_ends (onPeer_sound (fun _ => requestHeaders_ends) h.sound index)).seq
      rintro batch left hleft ⟨peer, hpeer, _, _, _, hanswered⟩
      have hbatch := hanswered.headers_within (h.sound.offers peer hpeer)
      apply (applyBatch_ends hlawful hfair hleft index hbatch).seq
      intro extension left hleft _
      cases extension with
      | ignored => exact ⟨hleft, trivial⟩
      | appended | reorganized =>
          show Ends (if batch.length < maxHeadersPerMessage then _ else _) left _
          split
          · exact ⟨hleft, trivial⟩
          · exact ih hleft true

theorem readsLeft_of_getElem? {connected : List (Peer Addr)} {index : ℕ} {peer : Peer Addr}
    (h : connected[index]? = some peer) :
    readsLeft connected index = peer.socket.reads.length := by
  rw [readsLeft, h]
  rfl

/-- A request for headers that is answered takes a read off the peer's socket. -/
theorem onPeer_requestHeaders_ends (index : ℕ) :
    Ends (onPeer index (requestHeaders client)) worker (keeping (fun _ => True) fun _ left =>
      readsLeft left.connected index < readsLeft worker.connected index) := by
  rw [onPeer, ends_ofOutcome]
  split
  · trivial
  · next peer hpeer =>
      have hended := @requestHeaders_ends Addr client peer
      cases hresult : (outcome (requestHeaders client) peer).1 with
      | error error => trivial
      | ok rows =>
          obtain ⟨_, hlt⟩ := hended.value hresult
          have hset := List.getElem?_set_self (a := (outcome (requestHeaders client) peer).2)
            (List.getElem?_eq_some_iff.mp hpeer).1
          refine ⟨trivial, ?_⟩
          show readsLeft (worker.connected.set index _) index < _
          rw [readsLeft_of_getElem? hpeer, readsLeft_of_getElem? hset]
          exact hlt

/-- Applying the headers takes none. -/
theorem applyBatch_readsLeft (index : ℕ) (batch : List Header) :
    Ends (applyBatch client index batch) worker (keeping (fun _ => True) fun _ left =>
      readsLeft left.connected index = readsLeft worker.connected index) := by
  have hextend : Ends (extendHeaders client batch) worker
      (keeping (fun _ => True) fun _ left => left.connected = worker.connected) := by
    have hclock : Ends nowUnix worker
        (keeping (fun _ => True) fun _ left => left.connected = worker.connected) := by
      show keeping _ _ (worker.clock.headD _) _
      cases worker.clock.headD (.error .integer) with
      | ok now => exact ⟨trivial, rfl⟩
      | error error => trivial
    apply hclock.seq
    intro now left _ hleft
    rw [ends_ofOutcome]
    split
    · exact ⟨trivial, hleft⟩
    · trivial
  apply hextend.seq
  intro extension left _ hleft
  rw [recordAt, ends_modify_bind]
  have hreads : readsLeft (left.connected.modify index
      (recordProof client left.headers batch)) index = readsLeft worker.connected index := by
    rw [readsLeft, readsLeft, List.getElem?_modify_eq, hleft]
    cases worker.connected[index]? with
    | none => rfl
    | some peer =>
        show (recordProof client left.headers batch peer).socket.reads.length = _
        rw [recordProof_socket]
        rfl
  cases extension with
  | reorganized | appended | ignored => exact ⟨trivial, hreads⟩

/-- **The loop of `sync_from` ends by itself**: more rounds than the peer has reads would not
change how it ends. -/
theorem syncLoop_enough {index rounds : ℕ} {advanced : Bool}
    (h : readsLeft worker.connected index < rounds) :
    outcome (syncLoop client index (rounds + 1) advanced) worker =
      outcome (syncLoop client index rounds advanced) worker := by
  induction rounds generalizing worker advanced with
  | zero => exact absurd h (Nat.not_lt_zero _)
  | succ rounds ih =>
      apply (onPeer_requestHeaders_ends index).congr
      intro batch left _ hlt
      apply (applyBatch_readsLeft index batch).congr
      intro extension later _ hsame
      cases extension with
      | ignored => rfl
      | appended | reorganized =>
          show outcome (if batch.length < maxHeadersPerMessage then _ else _) later =
            outcome (if batch.length < maxHeadersPerMessage then _ else _) later
          split
          · rfl
          · exact ih (by omega)

theorem removePeer_ends (h : worker.Good client opened inPlay) (index : ℕ) :
    Ends (removePeer index) worker (kept (Worker.Good client opened inPlay)) := by
  refine ⟨⟨h.reached, h.sound.connected ?_⟩, trivial⟩
  intro peer hpeer
  exact h.sound.offers peer (List.mem_of_mem_eraseIdx hpeer)

theorem start_good {genesis : Chain → Bytes32} (hopened : opened.Opened client.pow genesis)
    (hstored : ∀ header ∈ opened.headers, header ∈ inPlay) (instants : List ℕ)
    (clock : List (Except P2pError ℕ)) :
    (Worker.start opened instants clock : Worker Addr).Good client opened inPlay where
  reached := hopened.reached hstored
  sound := ⟨rfl, nofun, List.nodup_nil, nofun, BlockCache.counted_empty⟩

variable [LinearOrder Addr]

theorem syncPeers_ends (hlawful : client.Lawful)
    (hfair : Plausible client.pow opened.chain inPlay) (h : worker.Good client opened inPlay)
    (refreshing : Bool) (order : List Addr) (round : HeaderRound) :
    Ends (syncPeers client refreshing order round) worker
      (kept (Worker.Good client opened inPlay)) := by
  induction order generalizing worker round with
  | nil => exact ⟨h, trivial⟩
  | cons address order ih =>
      rw [syncPeers, ends_get_bind]
      split
      · exact ih h round
      · next index _ =>
          apply (syncLoop_ends hlawful hfair h index _ false).attempt.seq
          intro outcome left hleft _
          rw [ends_get_bind]
          generalize round.observe outcome = observed
          obtain ⟨round, action⟩ := observed
          cases action with
          | advance =>
              have hrest : ∀ stop : Bool,
                  Ends (if stop then pure round else syncPeers client refreshing order round) left
                    (kept (Worker.Good client opened inPlay)) := by
                intro stop
                cases stop with
                | true => exact ⟨hleft, trivial⟩
                | false => exact ih hleft round
              exact hrest _
          | keepForContext => exact ih hleft round
          | ban | drop =>
              apply (removePeer_ends hleft index).seq
              intro _ left hleft _
              exact ih hleft round

theorem syncRound_ends (hlawful : client.Lawful)
    (hfair : Plausible client.pow opened.chain inPlay) (h : worker.Good client opened inPlay) :
    Ends (syncRound client) worker (kept (Worker.Good client opened inPlay)) := by
  rw [syncRound, ends_get_bind]
  apply (syncPeers_ends hlawful hfair h _ _ _).seq
  intro round left hleft _
  rw [finishRound, ends_modify_bind]
  have hgood : { left with synced := left.synced || 0 < round.answered }.Good client opened
      inPlay :=
    ⟨hleft.reached, hleft.sound.headers_eq, hleft.sound.offers, hleft.sound.flight,
      hleft.sound.cached, hleft.sound.counted⟩
  rw [ends_lift]
  cases round.finish with
  | ok u => exact ⟨hgood, trivial⟩
  | error error => exact hgood

/-! ## Turns -/

theorem finish_within {connected : List (Peer Addr)} {peer : Peer Addr}
    (h : ∀ held ∈ connected, held.Within inPlay) (hpeer : peer.Within inPlay) :
    ∀ held ∈ finish client connected peer, held.Within inPlay := by
  intro held hheld
  rw [finish] at hheld
  split at hheld
  · exact h held hheld
  · rcases List.mem_append.mp (List.mem_mergeSort.mp hheld) with hold | hnew
    · exact h held hold
    · rw [List.mem_singleton.mp hnew]
      exact hpeer

theorem topUp_within {connected dialed : List (Peer Addr)}
    (h : ∀ held ∈ connected, held.Within inPlay) (hdialed : ∀ peer ∈ dialed, peer.Within inPlay) :
    ∀ held ∈ topUp client connected dialed, held.Within inPlay := by
  induction dialed generalizing connected with
  | nil => exact h
  | cons peer dialed ih =>
      apply ih
      · exact finish_within h (hdialed peer List.mem_cons_self)
      · exact fun other hother => hdialed other (List.mem_cons_of_mem _ hother)

theorem maintainPeers_ends (h : worker.Good client opened inPlay) {dialed : List (Peer Addr)}
    (hdialed : ∀ peer ∈ dialed, peer.Within inPlay) :
    Ends (maintainPeers client dialed) worker (kept (Worker.Good client opened inPlay)) := by
  rw [maintainPeers, ends_modify_bind, ends_modify]
  have hpolled := @pollIdle_within Addr client inPlay _ h.sound.offers
  split
  · exact ⟨⟨h.reached, h.sound.connected (topUp_within hpolled hdialed)⟩, trivial⟩
  · exact ⟨⟨h.reached, h.sound.connected hpolled⟩, trivial⟩

theorem serve_ends (hlawful : client.Lawful)
    (hfair : Plausible client.pow opened.chain inPlay) (h : worker.Good client opened inPlay)
    (command : Command) :
    Ends (serve client command) worker (keeping (Worker.Good client opened inPlay) fun reply left =>
      ∀ hash raw, reply = .block hash (.ok raw) →
        ∃ height, BlockAt client left.headers height hash raw) := by
  cases command with
  | refresh =>
      apply (syncRound_ends hlawful hfair h).attempt.seq
      intro answer left hleft _
      exact ⟨hleft, nofun⟩
  | block hash =>
      have hfetch : Ends (fetchBlock client hash) worker
          (keeping (Worker.Sound client inPlay worker.headers) fun raw left =>
            ∃ height, BlockAt client left.headers height hash raw) := by
        apply (fetchBlock_ends hlawful h.reached.sound h.sound).weaken
        intro raw left hleft hblock
        rw [hleft.headers_eq]
        exact hblock
      apply (h.of_ends hfetch).attempt.seq
      intro answer left hleft hblock
      refine ⟨hleft, ?_⟩
      rintro _ raw ⟨⟩
      exact hblock raw rfl

theorem turn_ends (hlawful : client.Lawful)
    (hfair : Plausible client.pow opened.chain inPlay) (h : worker.Good client opened inPlay)
    {dialed : List (Peer Addr)} (hdialed : ∀ peer ∈ dialed, peer.Within inPlay)
    (command : Option Command) :
    Ends (turn client dialed command) worker (keeping (Worker.Good client opened inPlay)
      fun replies left => ∀ hash raw, Reply.block hash (.ok raw) ∈ replies →
        ∃ height, BlockAt client left.headers height hash raw) := by
  apply (maintainPeers_ends h hdialed).seq
  intro _ left hleft _
  apply (hleft.of_ends (settle_ends hlawful hleft.sound)).seq
  intro _ left hleft _
  rw [ends_get_bind]
  split
  · cases command with
    | none => exact ⟨hleft, nofun⟩
    | some command =>
        apply (serve_ends hlawful hfair hleft command).seq
        intro reply left hleft hreply
        refine ⟨hleft, ?_⟩
        intro hash raw hmem
        exact hreply hash raw (List.mem_singleton.mp hmem).symm
  · apply (syncRound_ends hlawful hfair hleft).attempt.seq
    intro _ left hleft _
    exact ⟨hleft, nofun⟩

/-! ## Runs -/

/-- A step of the worker: a turn of its loop, or any of the functions turns are made of. -/
inductive Operation (Addr : Type) where
  | turn (dialed : List (Peer Addr)) (command : Option Command)
  | maintain (dialed : List (Peer Addr))
  | settle
  | syncFrom (index : ℕ)
  | removePeer (index : ℕ)
  | fill (start : ℕ) (avoid : List Addr)
  | receive (index height : ℕ) (hash : Bytes32)
  | forget (hash : Bytes32)
  | giveUp (index : ℕ) (address : Option Addr)
  | syncRound
  | fetchBlock (hash : Bytes32)

/-- What a step does to the worker; an error it returns is logged. -/
def perform (client : Client Addr) (worker : Worker Addr) : Operation Addr → Worker Addr
  | .turn dialed command => (outcome (turn client dialed command) worker).2
  | .maintain dialed => (outcome (maintainPeers client dialed) worker).2
  | .settle => (outcome (settle client) worker).2
  | .syncFrom index => (outcome (syncFrom client index) worker).2
  | .removePeer index => (outcome (removePeer index) worker).2
  | .fill start avoid => (outcome (fill client start avoid) worker).2
  | .receive index height hash => (outcome (receive client index height hash) worker).2
  | .forget hash => (outcome (forget hash) worker).2
  | .giveUp index address => (outcome (giveUp index address) worker).2
  | .syncRound => (outcome (syncRound client) worker).2
  | .fetchBlock hash => (outcome (fetchBlock client hash) worker).2

/-- The worker after some steps. -/
def Worker.run (client : Client Addr) (worker : Worker Addr) (operations : List (Operation Addr)) :
    Worker Addr :=
  operations.foldl (perform client) worker

/-- The headers the peers that connect in a step have to offer. -/
def Operation.offered : Operation Addr → List Header
  | .turn dialed _ | .maintain dialed => dialed.flatMap fun peer => peer.socket.offered
  | _ => []

/-- **A step keeps the worker in order.** -/
theorem Worker.Good.perform (hlawful : client.Lawful)
    (hfair : Plausible client.pow opened.chain inPlay) (h : worker.Good client opened inPlay)
    {operation : Operation Addr} (hoffered : ∀ header ∈ operation.offered, header ∈ inPlay) :
    (perform client worker operation).Good client opened inPlay := by
  have hdialed : ∀ {dialed : List (Peer Addr)},
      (∀ header ∈ dialed.flatMap fun peer => peer.socket.offered, header ∈ inPlay) →
      ∀ peer ∈ dialed, peer.Within inPlay := by
    intro dialed hall peer hpeer header hheader
    exact hall header (List.mem_flatMap.mpr ⟨peer, hpeer, hheader⟩)
  cases operation with
  | turn dialed command =>
      exact (turn_ends hlawful hfair h (hdialed hoffered) command).invariant
  | maintain dialed => exact (maintainPeers_ends h (hdialed hoffered)).invariant
  | settle => exact (h.of_ends (settle_ends hlawful h.sound)).invariant
  | syncFrom index => exact (syncLoop_ends hlawful hfair h index _ false).invariant
  | removePeer index => exact (removePeer_ends h index).invariant
  | fill start avoid => exact (h.of_ends (fill_ends h.reached.sound h.sound start avoid)).invariant
  | receive index height hash => exact (h.of_ends (receive_ends hlawful h.sound index)).invariant
  | forget hash => exact (h.of_ends (forget_ends h.sound)).invariant
  | giveUp index address => exact (h.of_ends (giveUp_ends h.sound index address)).invariant
  | syncRound => exact (syncRound_ends hlawful hfair h).invariant
  | fetchBlock hash =>
      exact (h.of_ends (fetchBlock_ends hlawful h.reached.sound h.sound)).invariant

/-- **A run keeps the worker in order.** -/
theorem Worker.Good.run (hlawful : client.Lawful)
    (hfair : Plausible client.pow opened.chain inPlay) (h : worker.Good client opened inPlay)
    {operations : List (Operation Addr)}
    (hoffered : ∀ header ∈ operations.flatMap Operation.offered, header ∈ inPlay) :
    (worker.run client operations).Good client opened inPlay := by
  induction operations generalizing worker with
  | nil => exact h
  | cons operation operations ih =>
      rw [List.flatMap_cons] at hoffered
      apply ih
      · apply h.perform hlawful hfair
        exact fun header hheader => hoffered header (List.mem_append_left _ hheader)
      · exact fun header hheader => hoffered header (List.mem_append_right _ hheader)

/-- **The pipeline only yields blocks of the selected chain.** Whatever the peers that connect have
to say, and in whatever order the worker does its steps: no hash is in flight twice; what is cached
for a height is an intact block with the header the chain has there, and nothing is cached of a
branch that is not the chain; the byte counter is the sum of what is cached, within the budget; and
a fetch that returns bytes returns an intact block of the chain, with the hash asked for. -/
theorem pipeline_selected (hlawful : client.Lawful) {genesis : Chain → Bytes32}
    (hopened : opened.Opened client.pow genesis) (instants : List ℕ)
    (clock : List (Except P2pError ℕ)) (operations : List (Operation Addr))
    (hfair : Plausible client.pow opened.chain
      (opened.headers ++ operations.flatMap Operation.offered)) :
    let worker := (Worker.start opened instants clock).run client operations
    (worker.asked.map Asked.hash).Nodup ∧
    (∀ entry ∈ worker.blocks.entries,
      worker.headers.hashAt client.pow entry.height = .ok entry.hash ∧
      BlockAt client worker.headers entry.height entry.hash entry.raw) ∧
    (∀ hash, worker.headers.heightOf hash = none → worker.blocks.get hash = none) ∧
    worker.blocks.bytes = BlockCache.size worker.blocks.entries ∧
    worker.blocks.bytes ≤ blockCacheBytes ∧
    ∀ hash raw, (outcome (fetchBlock client hash) worker).1 = .ok raw →
      ∃ height, worker.headers.heightOf hash = some height ∧
        BlockAt client worker.headers height hash raw := by
  intro worker
  have hgood : worker.Good client opened (opened.headers ++ operations.flatMap Operation.offered) :=
    (start_good hopened (fun header hheader => List.mem_append_left _ hheader) instants clock).run
      hlawful hfair fun header hheader => List.mem_append_right _ hheader
  have hsound := hgood.reached.sound
  have hheight : ∀ {hash : Bytes32} {height : ℕ} {raw : Bytes},
      BlockAt client worker.headers height hash raw →
      worker.headers.heightOf hash = some height :=
    fun hblock => hsound.heightOf_of_hashAt hblock.hashAt
  refine ⟨hgood.sound.flight, ?_, ?_, hgood.sound.counted.bytes, hgood.sound.counted.budget, ?_⟩
  · intro entry hentry
    have hblock := hgood.sound.cached entry hentry
    exact ⟨hblock.hashAt, hblock⟩
  · intro hash hnone
    cases hget : worker.blocks.get hash with
    | none => rfl
    | some raw =>
        obtain ⟨entry, hentry, rfl, _⟩ := BlockCache.mem_of_get hget
        rw [hheight (hgood.sound.cached entry hentry)] at hnone
        cases hnone
  · intro hash raw hfetched
    obtain ⟨height, hblock⟩ := (fetchBlock_ends hlawful hsound hgood.sound).value hfetched
    exact ⟨height, hheight hblock, hblock⟩

namespace Sample

/-- Decoders that are never called. -/
def blocks : BlockCrates where
  deserialize _ := none
  LitecoinTransaction := Unit
  litecoinDecode _ := none
  litecoinSerialize _ := []
  hasMwTx _ := false
  isInputEmpty _ := false
  clearHogEx tx := tx
  deserializeBlock _ := none
  deserializeHeader _ := none
  varIntBytes _ := none
  transactionBytes _ := none
  LitecoinHeader := Unit
  litecoinHeader := ⟨fun _ => none, fun _ => []⟩
  litecoinTransactions := ⟨fun _ => none, fun _ => []⟩
  litecoinVarInt := ⟨fun _ => none, fun _ => []⟩
  litecoinByte := ⟨fun _ => none, fun _ => []⟩
  MwebBlock := Unit
  mwebBlock := ⟨fun _ => none, fun _ => []⟩
  isHogEx _ := false

/-- A client of the regression test chain. -/
def lightClient : Client ℕ where
  chain := .bitcoinRegtest
  pinned := []
  pow := .standard
  consensus := .standard
  blocks := blocks
  addressText _ := ""
  hashText _ := ""
  errorText _ := ""

theorem lightClient_lawful : lightClient.Lawful where
  pow := PowCrate.standard_lawful
  consensus := ConsensusCrate.standard_lawful
  blockHash := rfl

/-- A peer that answers with the successor of the anchor and then stays silent. -/
def peer : Peer ℕ :=
  .connect 7 1 1 ⟨[.message (.headers [Urma.Runtime.Sample.child]), .silence], []⟩

/-- The peer connects, and one turn later its block is asked for. -/
def operations : List (Operation ℕ) :=
  [.turn [peer] none, .turn [] (some .refresh),
    .fetchBlock (PowCrate.standard.blockHash Urma.Runtime.Sample.child)]

end Sample

/-- A peer connects, offers a header, and is asked for its block, which never comes. -/
theorem pipeline_selected_silent :
    let worker := (Worker.start Urma.Runtime.Sample.opened [0] [.ok 1000]).run Sample.lightClient
      Sample.operations
    (worker.asked.map Asked.hash).Nodup ∧
      worker.blocks.bytes = BlockCache.size worker.blocks.entries := by
  have hfair : Plausible PowCrate.standard .bitcoinRegtest
      (Urma.Runtime.Sample.opened.headers ++ Sample.operations.flatMap Operation.offered) :=
    Urma.Runtime.Sample.fair.mono (by simp [Urma.Runtime.Sample.opened, HeaderChain.ofAnchor,
      Sample.operations, Operation.offered, Sample.peer, Peer.connect, Socket.offered,
      Read.headers])
  obtain ⟨hflight, _, _, hbytes, _⟩ := pipeline_selected Sample.lightClient_lawful
    Urma.Runtime.Sample.opened_anchored [0] [.ok 1000] Sample.operations hfair
  exact ⟨hflight, hbytes⟩

end Urma.P2p
