import Mathlib.Algebra.Order.BigOperators.Group.List
import Mathlib.Algebra.Order.Group.Nat
import Urma.P2p.Pipeline

/-!
# What the cache counts and what peers offer

Two facts the worker rests on: the byte counter of the cache is the sum of its entries and stays
within the budget, and whatever a peer does, it only takes reads off its socket, and what it answers
with is among them. So a wait ends with the reads there are.
-/

namespace Urma.P2p

open Chain Lib Urma.Runtime Stateful

/-! ## The cache -/

namespace BlockCache

/-- The counter is right and within the budget. -/
structure Counted (blocks : BlockCache) : Prop where
  bytes : blocks.bytes = size blocks.entries
  budget : blocks.bytes ≤ blockCacheBytes

theorem counted_empty : empty.Counted where
  bytes := rfl
  budget := Nat.zero_le _

theorem size_cons {entry : Cached} {entries : List Cached} :
    size (entry :: entries) = entry.raw.length + size entries := by
  rw [size, List.map_cons, List.sum_cons, size]

theorem size_append {entries more : List Cached} :
    size (entries ++ more) = size entries + size more := by
  rw [size, List.map_append, List.sum_append, size, size]

theorem size_le_of_sublist {entries fewer : List Cached} (h : fewer.Sublist entries) :
    size fewer ≤ size entries :=
  (h.map _).sum_le_sum fun _ _ => Nat.zero_le _

/-- Entries go from the front, with their bytes, until there is room. -/
theorem evict_spec {room : ℕ} (hroom : room ≤ blockCacheBytes) (entries : List Cached) :
    (evict room entries (size entries)).entries.Sublist entries ∧
      (evict room entries (size entries)).bytes = size (evict room entries (size entries)).entries ∧
      (evict room entries (size entries)).bytes + room ≤ blockCacheBytes := by
  induction entries with
  | nil =>
      refine ⟨.refl _, rfl, ?_⟩
      show 0 + room ≤ _
      omega
  | cons entry entries ih =>
      rw [evict]
      split
      · rw [size_cons, Nat.add_sub_cancel_left]
        exact ⟨ih.1.cons _, ih.2⟩
      · next hfits => exact ⟨.refl _, rfl, Nat.le_of_not_lt hfits⟩

variable {blocks : BlockCache}

/-- **An insertion** keeps the count, and adds nothing but the entry. -/
theorem Counted.insert (h : blocks.Counted) (hash : Bytes32) (height : ℕ) (raw : Bytes) :
    (blocks.insert hash height raw).Counted ∧
      ∀ entry ∈ (blocks.insert hash height raw).entries,
        entry ∈ blocks.entries ∨ entry = ⟨hash, height, raw⟩ := by
  rw [BlockCache.insert]
  split
  · exact ⟨h, fun entry hentry => Or.inl hentry⟩
  · next hfits =>
      obtain ⟨hsub, hbytes, hroom⟩ := evict_spec (Nat.le_of_not_lt hfits)
        (blocks.entries.filter fun entry => entry.hash ≠ hash)
      refine ⟨⟨?_, hroom⟩, ?_⟩
      · rw [size_append, ← hbytes]
        rfl
      · intro entry hentry
        rcases List.mem_append.mp hentry with hold | hnew
        · exact Or.inl (List.mem_filter.mp (hsub.subset hold)).1
        · exact Or.inr (List.mem_singleton.mp hnew)

/-- A prune keeps the count. -/
theorem Counted.pruneAbove (h : blocks.Counted) (height : ℕ) :
    (blocks.pruneAbove height).Counted where
  bytes := rfl
  budget := by
    have hless : size (blocks.pruneAbove height).entries ≤ size blocks.entries :=
      size_le_of_sublist List.filter_sublist
    rw [← h.bytes] at hless
    exact hless.trans h.budget

/-- What is found is an entry. -/
theorem mem_of_get {hash : Bytes32} {raw : Bytes} (h : blocks.get hash = some raw) :
    ∃ entry ∈ blocks.entries, entry.hash = hash ∧ entry.raw = raw := by
  obtain ⟨entry, hentry, hraw⟩ := Option.map_eq_some_iff.mp h
  exact ⟨entry, List.mem_of_find?_eq_some hentry, by simpa using List.find?_some hentry, hraw⟩

end BlockCache
/-! ## What peers offer -/

/-- The headers a read yields. -/
def Read.headers : Read → List Header
  | .message (.headers rows) => rows
  | _ => []

/-- The headers that are still to come from a socket. -/
def Socket.offered (socket : Socket) : List Header :=
  socket.reads.flatMap Read.headers

variable {Addr : Type} {client : Client Addr} {inPlay : List Header}
  {start peer left : Peer Addr}

/-- The headers to come from a peer are among those in play. -/
def Peer.Within (inPlay : List Header) (peer : Peer Addr) : Prop :=
  ∀ header ∈ peer.socket.offered, header ∈ inPlay

/-- Since the start, some reads were taken off the socket. -/
def Peer.Since (start peer : Peer Addr) : Prop :=
  peer.socket.reads <:+ start.socket.reads

theorem Peer.Since.refl (peer : Peer Addr) : peer.Since peer :=
  List.suffix_rfl

theorem Peer.Since.trans (h : start.Since peer) (h' : peer.Since left) : start.Since left :=
  List.IsSuffix.trans h' h

theorem Peer.Since.of_socket (h : start.Since peer) (hsocket : left.socket = peer.socket) :
    start.Since left := by
  rw [Peer.Since, hsocket]
  exact h

theorem Peer.Since.within (h : start.Since peer) (hstart : start.Within inPlay) :
    peer.Within inPlay := by
  intro header hheader
  obtain ⟨read, hread, hmem⟩ := List.mem_flatMap.mp hheader
  exact hstart header (List.mem_flatMap.mpr ⟨read, h.subset hread, hmem⟩)

/-- What is kept since a later peer is kept since the start. -/
theorem Peer.Since.ends {α : Type} {p : PeerM Addr α} {post : α → Peer Addr → Prop}
    (h : start.Since peer) (hends : Ends p peer (keeping peer.Since post)) :
    Ends p peer (keeping start.Since post) := by
  apply hends.mono
  intro result left hpost
  cases result with
  | ok a => exact ⟨h.trans hpost.1, hpost.2⟩
  | error error => exact h.trans hpost

theorem socketCall_ends (h : start.Since peer) : Ends socketCall peer (kept start.Since) := by
  rw [socketCall, ends_ofOutcome]
  split
  · exact ⟨h, trivial⟩
  · exact ⟨h, trivial⟩
  · exact h

/-- A read takes what it yields from the future of the socket. -/
theorem socketRead_ends (h : start.Since peer) :
    Ends socketRead peer (keeping start.Since fun read left => ∀ message, read = .message message →
      read ∈ peer.socket.reads ∧ left.socket.reads.length < peer.socket.reads.length) := by
  rw [socketRead, ends_ofOutcome]
  split
  · exact ⟨h, nofun⟩
  · next read reads hreads =>
      have hsince : peer.Since { peer with socket.reads := reads } := by
        rw [Peer.Since, hreads]
        exact List.suffix_cons read reads
      refine ⟨h.trans hsince, ?_⟩
      intro _ _
      rw [hreads]
      exact ⟨List.mem_cons_self, Nat.lt_succ_self _⟩

theorem lacks_socket (item : Inventory) : (peer.lacks item).socket = peer.socket := by
  cases item with
  | other => rfl
  | block hash | witnessBlock hash =>
      rw [Peer.lacks]
      split <;> rfl

theorem foldl_lacks_socket (items : List Inventory) :
    (items.foldl Peer.lacks peer).socket = peer.socket := by
  induction items generalizing peer with
  | nil => rfl
  | cons item items ih => rw [List.foldl_cons, ih, lacks_socket]

theorem accept_socket (hash : Bytes32) (raw : Bytes) :
    (peer.accept hash raw).socket = peer.socket := by
  rw [Peer.accept]
  split <;> rfl

theorem lift_ends {α : Type} {result : Except P2pError α} (h : start.Since peer) :
    Ends (lift result) peer (kept start.Since) := by
  cases result with
  | ok a => exact ⟨h, trivial⟩
  | error error => exact h

theorem absorb_ends (h : start.Since peer) (message : Message) :
    Ends (absorb client message) peer (kept start.Since) := by
  cases message with
  | ping => exact socketCall_ends h
  | version => exact h
  | block raw =>
      apply (lift_ends h).seq
      intro hash peer hpeer _
      exact ⟨hpeer.of_socket (accept_socket hash raw), trivial⟩
  | notFound items => exact ⟨h.of_socket (foldl_lacks_socket items), trivial⟩
  | addr | addrV2 | headers | pong | inv | verack | other => exact ⟨h, trivial⟩

theorem pollRounds_ends (h : start.Since peer) (rounds : ℕ) :
    Ends (pollRounds client rounds) peer (kept start.Since) := by
  induction rounds generalizing peer with
  | zero => exact ⟨h, trivial⟩
  | succ rounds ih =>
      apply (socketCall_ends h).seq
      intro _ peer hpeer _
      apply (socketRead_ends hpeer).seq
      intro read peer hpeer _
      apply (socketCall_ends hpeer).seq
      intro _ peer hpeer _
      cases read with
      | silence => exact ⟨hpeer, trivial⟩
      | failed cause => exact hpeer
      | message message =>
          apply (socketCall_ends hpeer).seq
          intro _ peer hpeer _
          apply (socketCall_ends hpeer).seq
          intro _ peer hpeer _
          apply (absorb_ends hpeer message).seq
          intro _ peer hpeer _
          exact ih hpeer

/-! ## Waiting -/

/-- What an answer is made of: a message the peer had to read, and fewer to read after it. -/
def Peer.Answered (peer : Peer Addr) {α : Type} (good : Message → α → Prop) (value : α)
    (left : Peer Addr) : Prop :=
  (∃ message, Read.message message ∈ peer.socket.reads ∧ good message value) ∧
    left.socket.reads.length < peer.socket.reads.length

/-- The later a wait starts, the fewer messages it can end with. -/
theorem Peer.Since.answered {α : Type} {good : Message → α → Prop} {value : α}
    (h : start.Since peer) (hanswered : peer.Answered good value left) :
    start.Answered good value left := by
  obtain ⟨⟨message, hmem, hgood⟩, hlt⟩ := hanswered
  exact ⟨⟨message, h.subset hmem, hgood⟩, Nat.lt_of_lt_of_le hlt h.length_le⟩

section
variable {α : Type} {matcher : Message → PeerM Addr (Option α)} {good : Message → α → Prop}
  (hmatcher : ∀ message peer, Ends (matcher message) peer (keeping peer.Since fun waited _ =>
    ∀ value, waited = some value → good message value))
include hmatcher

/-- What waiting yields is what the matcher took from a message. -/
theorem waitFor_ends (messages : ℕ) :
    Ends (waitFor client matcher messages) peer (keeping peer.Since (peer.Answered good)) := by
  induction messages generalizing peer with
  | zero => exact .refl peer
  | succ messages ih =>
      apply (socketRead_ends (.refl peer)).seq
      intro read left hleft hread
      cases read with
      | silence => exact hleft
      | failed cause => exact hleft
      | message message =>
          obtain ⟨hmem, hlt⟩ := hread message rfl
          apply (hmatcher message left).bind
          · intro waited later hwaited
            obtain ⟨hlater, hgood⟩ := hwaited
            cases waited with
            | none =>
                have hsince := hleft.trans hlater
                apply (hsince.ends ih).weaken
                intro value last _ hanswered
                exact hsince.answered hanswered
            | some value =>
                exact ⟨hleft.trans hlater, ⟨message, hmem, hgood value rfl⟩,
                  Nat.lt_of_le_of_lt hlater.length_le hlt⟩
          · intro error later hlater
            exact hleft.trans hlater

theorem wait_ends : Ends (wait client matcher) peer (keeping peer.Since (peer.Answered good)) := by
  rw [wait, ends_get_bind]
  exact waitFor_ends hmatcher _

/-- **A wait ends with the reads there are**: more messages would not change how it ends. -/
theorem waitFor_enough {messages : ℕ} (h : peer.socket.reads.length < messages) :
    outcome (waitFor client matcher (messages + 1)) peer =
      outcome (waitFor client matcher messages) peer := by
  induction messages generalizing peer with
  | zero => exact absurd h (Nat.not_lt_zero _)
  | succ messages ih =>
      apply (socketRead_ends (.refl peer)).congr
      intro read left hleft hread
      cases read with
      | silence => rfl
      | failed cause => rfl
      | message message =>
          obtain ⟨_, hlt⟩ := hread message rfl
          apply (hmatcher message left).congr
          intro waited later hlater _
          cases waited with
          | none =>
              have hless := hlater.length_le
              exact ih (by omega)
          | some value => rfl

end

/-- Waiting between two calls on the socket. -/
theorem answered_ends {α : Type} {p : PeerM Addr α} {good : Message → α → Prop}
    (hp : ∀ peer : Peer Addr, Ends p peer (keeping peer.Since (peer.Answered good))) :
    Ends (do socketCall; let answered ← attempt p; socketCall; lift answered) peer
      (keeping peer.Since (peer.Answered good)) := by
  apply (socketCall_ends (.refl peer)).seq
  intro _ calm hcalm _
  apply (hcalm.ends (hp calm)).attempt.seq
  intro answered later hlater hanswered
  apply (socketCall_ends (.refl later)).bind
  · intro _ last hlast
    cases answered with
    | ok value =>
        obtain ⟨hfrom, hlt⟩ := hcalm.answered (hanswered value rfl)
        exact ⟨hlater.trans hlast.1, hfrom, Nat.lt_of_le_of_lt hlast.1.length_le hlt⟩
    | error error => exact hlater.trans hlast.1
  · intro error last hlast
    exact hlater.trans hlast

/-- **An answer to a request for headers** is a message the peer had to offer. -/
theorem requestHeaders_ends :
    Ends (requestHeaders client) peer
      (keeping peer.Since (peer.Answered fun message rows => message = .headers rows)) := by
  apply (socketCall_ends (.refl peer)).seq
  intro _ calm hcalm _
  have hmatcher : ∀ message peer, Ends (headersMatcher client message) peer
      (keeping peer.Since fun waited _ => ∀ rows, waited = some rows → message = .headers rows) := by
    intro message peer
    cases message with
    | headers rows =>
        refine ⟨.refl peer, ?_⟩
        rintro _ ⟨⟩
        rfl
    | _ =>
        apply (absorb_ends (.refl peer) _).seq
        intro _ left hleft _
        exact ⟨hleft, nofun⟩
  apply (hcalm.ends (answered_ends fun peer => wait_ends hmatcher)).weaken
  intro rows left _ hanswered
  exact hcalm.answered hanswered

/-- The headers of an answer are in play. -/
theorem Peer.Answered.headers_within {rows : List Header}
    (h : peer.Answered (fun message rows => message = .headers rows) rows left)
    (hpeer : peer.Within inPlay) : ∀ header ∈ rows, header ∈ inPlay := by
  obtain ⟨⟨message, hmem, rfl⟩, _⟩ := h
  intro header hheader
  exact hpeer header (List.mem_flatMap.mpr ⟨_, hmem, hheader⟩)

theorem askBlocks_ends (hashes : List Bytes32) :
    Ends (askBlocks client hashes) peer (kept peer.Since) := by
  rw [askBlocks, ends_get_bind]
  split
  · exact .refl peer
  · apply (socketCall_ends (.refl peer)).seq
    intro _ left hleft _
    exact ⟨hleft, trivial⟩

theorem absorbOther_ends (h : start.Since peer) (message : Message) :
    Ends (absorbOther client message) peer (kept start.Since) := by
  apply (absorb_ends h message).seq
  intro _ left hleft _
  exact ⟨hleft, trivial⟩

theorem blockMatcher_ends (hash : Bytes32) (message : Message) :
    Ends (blockMatcher client hash message) peer (kept peer.Since) := by
  cases message with
  | block raw =>
      apply (lift_ends (.refl peer)).seq
      intro found left hleft _
      split
      · exact ⟨hleft, trivial⟩
      · exact absorbOther_ends hleft _
  | notFound rows =>
      rw [blockMatcher]
      split
      · exact .refl peer
      · exact absorbOther_ends (.refl peer) _
  | _ => exact absorbOther_ends (.refl peer) _

theorem awaitBlock_ends (hash : Bytes32) :
    Ends (awaitBlock client hash) peer (kept peer.Since) := by
  rw [awaitBlock, ends_get_bind]
  split
  · exact .refl peer
  · apply (lift_ends (.refl peer)).seq
    intro position left hleft _
    cases position with
    | some position => exact ⟨hleft, trivial⟩
    | none =>
        have hmatcher : ∀ message peer, Ends (blockMatcher client hash message) peer
            (keeping peer.Since fun waited _ => ∀ raw : Bytes, waited = some raw → True) := by
          intro message peer
          apply (blockMatcher_ends hash message).weaken
          intro _ _ _ _ _ _
          trivial
        have hwait : ∀ peer : Peer Addr, Ends (wait client (blockMatcher client hash)) peer
            (keeping peer.Since (peer.Answered fun _ _ => True)) :=
          fun peer => wait_ends hmatcher
        apply (hleft.ends (answered_ends hwait)).weaken
        intro _ _ _ _
        trivial

theorem pollIdle_within {connected : List (Peer Addr)}
    (h : ∀ peer ∈ connected, peer.Within inPlay) :
    ∀ peer ∈ pollIdle client connected, peer.Within inPlay := by
  intro peer hpeer
  obtain ⟨held, hheld, hpolled⟩ := List.mem_filterMap.mp hpeer
  have hended := (@pollRounds_ends Addr client held held (.refl held) pollMessages).invariant.within (h held hheld)
  split at hpolled
  · next polled hresult =>
      cases hpolled
      rw [poll] at hresult
      rw [hresult] at hended
      exact hended
  · cases hpolled

end Urma.P2p
