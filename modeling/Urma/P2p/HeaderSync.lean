import Urma.Lib.Fork
import Urma.P2p.Worker
import Urma.Runtime.HeaderCache

/-!
# Syncing headers from a peer

The locator of `urma_runtime::p2p::headers` and `sync_from` of `worker`, with what a peer answers to
each request, the clock and the file of the header cache. An honest peer sends the headers after the
first hash of the locator that is on its chain, so many at a time.
-/

namespace Urma.P2p

open Chain Lib Urma.Runtime

/-! ## The locator -/

/-- `P2P_LOCATOR_LINEAR`. -/
def locatorLinear : ℕ := 10

/-- The loop of `locator`, over offsets: from an offset back, with the step and the number of hashes
pushed so far. Every round steps back, so as many rounds as the offset are enough. -/
def locatorOffsets : ℕ → ℕ → ℕ → ℕ → List ℕ
  | 0, back, _, _ => [back]
  | rounds + 1, back, step, pushed =>
      if back = 0 then [back]
      else
        let step := if locatorLinear < pushed + 1 then step * 2 else step
        back :: locatorOffsets rounds (max back step - step) step (pushed + 1)

section
variable (crate : PowCrate)

/-- `HeaderChain::locator`. -/
def locator (chain : HeaderChain) : List Bytes32 :=
  let tip := chain.headers.length - 1
  (locatorOffsets tip tip 1 0).filterMap fun offset =>
    chain.headers[offset]?.map crate.blockHash

/-- The locator of a request, which leaves the tip out. -/
def requestLocator (chain : HeaderChain) : List Bytes32 :=
  let hashes := locator crate chain
  if 1 < hashes.length then hashes.drop 1 else hashes

end

/-! ## One call -/

/-- `urma_runtime::error::Error`, by what it comes from. -/
inductive SyncFault where
  | peer (cause : P2pError)
  | chain (cause : HeaderError)
  | cache (cause : CacheError)
  deriving DecidableEq, Repr

/-- What is asked of others in each round: the peer, the clock and the file system. -/
structure HeaderSource where
  /-- `Peer::request_headers`. -/
  requestHeaders : ℕ → List Bytes32 → Except P2pError (List Header)
  /-- `now_unix`. -/
  now : ℕ → Except P2pError ℕ
  machine : ℕ → Machine

/-- What `sync_from` changes. -/
structure SyncState (Addr : Type) where
  headers : HeaderChain
  /-- The file of the header cache. -/
  file : Option Bytes
  peer : Peer Addr
  blocks : BlockCache

section
variable {Addr : Type} (client : Client Addr) (codec : HeaderCodec) (source : HeaderSource)

/-- `record_proof`, and the cached blocks above a fork let go. -/
def SyncState.record (state : SyncState Addr) (batch : List Header) (extension : Extension) :
    SyncState Addr :=
  { state with
    peer := recordProof client state.headers batch state.peer
    blocks := match extension with
      | .reorganized forkHeight _ => state.blocks.pruneAbove forkHeight
      | .appended _ | .ignored => state.blocks }

/-- The loop of `sync_from`; `none` when the rounds do not suffice. -/
def syncRounds : ℕ → ℕ → Bool → SyncState Addr → Option (Except SyncFault Bool × SyncState Addr)
  | 0, _, _, _ => none
  | rounds + 1, round, advanced, state =>
      match source.requestHeaders round (requestLocator client.pow state.headers) with
      | .error cause => some (.error (.peer cause), state)
      | .ok batch =>
          match source.now round with
          | .error cause => some (.error (.peer cause), state)
          | .ok now =>
              match state.headers.extend client.pow batch now with
              | (headers, .error cause) => some (.error (.chain cause), { state with headers })
              | (headers, .ok .ignored) =>
                  some (.ok advanced, { state with headers }.record client batch .ignored)
              | (headers, .ok extension) =>
                  match headers.persist codec (source.machine round) state.file with
                  | (.error cause, file) =>
                      some (.error (.cache cause), { state with headers, file })
                  | (.ok (), file) =>
                      let state := { state with headers, file }.record client batch extension
                      if batch.length < maxHeadersPerMessage then some (.ok true, state)
                      else syncRounds rounds (round + 1) true state

end

/-! ## An honest peer -/

section
variable (crate : PowCrate)

/-- What an honest peer sends: the headers after the first hash of the locator on its chain, or else
after the genesis, as many as a message holds. -/
def answer (chain : List Header) (hashes : List Bytes32) : List Header :=
  let known hash := chain.findIdx? fun header => crate.blockHash header == hash
  match hashes.findSome? known with
  | some offset => (chain.drop (offset + 1)).take maxHeadersPerMessage
  | none => (chain.drop 1).take maxHeadersPerMessage

/-- A chain of an honest peer: linked, with the trusted anchor, and from the anchor on by the rules
of the client, with its work done. -/
structure HonestChain (opened : HeaderChain) (below branch : List Header) : Prop where
  anchored : branch.head? = opened.headers.head?
  linked : (below ++ branch).IsChain fun previous next =>
    next.prevBlockhash = crate.blockHash previous
  valid : opened.AllValid crate branch
  pow : ∀ header ∈ branch, checkHeaderPow crate header opened.chain = .ok ()

/-- An honest peer in a machine that works: every answer is that of its chain, no header of which is
too far in the future, and the file of the cache is written. -/
structure HonestSource (source : HeaderSource) (below branch : List Header) : Prop where
  answers : ∀ round hashes,
    source.requestHeaders round hashes = .ok (answer crate (below ++ branch) hashes)
  horizon : ∀ round, ∃ now, source.now round = .ok now ∧ now + maxFutureSecs ≤ u32Max ∧
    ∀ header ∈ branch, header.time.toNat ≤ now + maxFutureSecs
  reserves : ∀ round, (source.machine round).reserves = true
  writes : ∀ round, (source.machine round).writeReplace = .ok ()

end

/-! ## What a request names -/

theorem locatorOffsets_head (rounds back step pushed : ℕ) :
    (locatorOffsets rounds back step pushed).head? = some back := by
  cases rounds with
  | zero => rfl
  | succ rounds =>
      rw [locatorOffsets]
      split <;> rfl

theorem le_of_mem_locatorOffsets {rounds back step pushed offset : ℕ}
    (h : offset ∈ locatorOffsets rounds back step pushed) : offset ≤ back := by
  induction rounds generalizing back step pushed with
  | zero => exact Nat.le_of_eq (List.mem_singleton.mp h)
  | succ rounds ih =>
      rw [locatorOffsets] at h
      split at h
      · exact Nat.le_of_eq (List.mem_singleton.mp h)
      · rcases List.mem_cons.mp h with rfl | hrest
        · exact Nat.le_refl _
        · have hbound := ih hrest
          omega

/-- **A locator ends at the anchor**. -/
theorem zero_mem_locatorOffsets {rounds back step pushed : ℕ} (hrounds : back ≤ rounds)
    (hstep : 0 < step) : 0 ∈ locatorOffsets rounds back step pushed := by
  induction rounds generalizing back step pushed with
  | zero =>
      rw [Nat.le_zero.mp hrounds]
      exact List.mem_singleton_self 0
  | succ rounds ih =>
      rw [locatorOffsets]
      split
      · next hback =>
          rw [hback]
          exact List.mem_singleton_self 0
      · next hback =>
          refine List.mem_cons_of_mem _ (ih ?_ ?_)
          · split <;> omega
          · split <;> omega

/-- The offsets a request names. -/
def requestOffsets (tip : ℕ) : List ℕ :=
  match tip with
  | 0 => [0]
  | tip + 1 => locatorOffsets tip tip 1 1

theorem locatorOffsets_succ (tip : ℕ) :
    locatorOffsets (tip + 1) (tip + 1) 1 0 = (tip + 1) :: requestOffsets (tip + 1) := by
  have hback : max (tip + 1) 1 - 1 = tip := by omega
  rw [locatorOffsets, if_neg (Nat.succ_ne_zero tip), if_neg (by decide)]
  dsimp only
  rw [hback]
  rfl

theorem requestOffsets_le {tip offset : ℕ} (h : offset ∈ requestOffsets tip) : offset ≤ tip := by
  cases tip with
  | zero => exact Nat.le_of_eq (List.mem_singleton.mp h)
  | succ tip =>
      have hbound := le_of_mem_locatorOffsets h
      omega

theorem zero_mem_requestOffsets (tip : ℕ) : 0 ∈ requestOffsets tip := by
  cases tip with
  | zero => exact List.mem_singleton_self 0
  | succ tip => exact zero_mem_locatorOffsets (Nat.le_refl tip) Nat.zero_lt_one

/-- The first offset of a request among those that are shared. -/
def requestBase (tip shared : ℕ) : ℕ :=
  ((requestOffsets tip).find? fun offset => offset < shared).getD 0

theorem requestBase_spec {tip shared : ℕ} (h : 0 < shared) :
    (requestOffsets tip).find? (fun offset => offset < shared) = some (requestBase tip shared) ∧
      requestBase tip shared < shared := by
  rw [requestBase]
  cases hfind : (requestOffsets tip).find? fun offset => offset < shared with
  | none =>
      have hzero := List.find?_eq_none.mp hfind 0 (zero_mem_requestOffsets tip)
      simp only [decide_eq_true_eq] at hzero
      exact absurd h hzero
  | some base =>
      refine ⟨rfl, ?_⟩
      have hbase := List.find?_some hfind
      simpa using hbase

/-- On a chain that is shared to its tip, a request starts one header below the tip. -/
theorem requestBase_tip {tip : ℕ} : requestBase tip (tip + 1) = tip - 1 := by
  cases tip with
  | zero => rfl
  | succ tip =>
      have hhead := locatorOffsets_head tip tip 1 1
      obtain ⟨rest, hrest⟩ := List.head?_eq_some_iff.mp hhead
      have htip : decide (tip < tip + 1 + 1) = true := decide_eq_true (by omega)
      rw [requestBase, requestOffsets, hrest, List.find?_cons, htip]
      rfl

section
variable {crate : PowCrate} {opened chain : HeaderChain} {below branch inPlay : List Header}

theorem requestLocator_eq (chain : HeaderChain) (h : chain.headers ≠ []) :
    requestLocator crate chain =
      (requestOffsets (chain.headers.length - 1)).filterMap fun offset =>
        chain.headers[offset]?.map crate.blockHash := by
  have hpos := List.length_pos_iff.mpr h
  rw [requestLocator, locator]
  cases htip : chain.headers.length - 1 with
  | zero =>
      have hfew : ((locatorOffsets 0 0 1 0).filterMap fun offset =>
          chain.headers[offset]?.map crate.blockHash).length ≤ 1 :=
        (List.length_filterMap_le _ _).trans (Nat.le_refl 1)
      rw [if_neg (Nat.not_lt.mpr hfew)]
      rfl
  | succ tip =>
      have hmem : ∀ offset, offset ≤ tip + 1 → ∃ header, chain.headers[offset]? = some header :=
        fun offset hoffset => ⟨_, List.getElem?_eq_getElem (by omega)⟩
      obtain ⟨last, hlast⟩ := hmem (tip + 1) (Nat.le_refl _)
      have hzero : crate.blockHash (chain.headers.get ⟨0, hpos⟩) ∈
          (requestOffsets (tip + 1)).filterMap fun offset =>
            chain.headers[offset]?.map crate.blockHash := by
        apply List.mem_filterMap.mpr
        refine ⟨0, zero_mem_requestOffsets _, ?_⟩
        rw [List.getElem?_eq_getElem hpos]
        rfl
      have hmany := List.length_pos_of_mem hzero
      have hsplit : ((locatorOffsets (tip + 1) (tip + 1) 1 0).filterMap fun offset =>
          chain.headers[offset]?.map crate.blockHash) = crate.blockHash last ::
            (requestOffsets (tip + 1)).filterMap fun offset =>
              chain.headers[offset]?.map crate.blockHash := by
        rw [locatorOffsets_succ, List.filterMap_cons, hlast]
        rfl
      rw [hsplit, List.length_cons, if_pos (by omega), List.drop_one, List.tail_cons]

/-! ## What an honest peer answers -/

theorem parental_of_fair {network : Chain} (h : Plausible crate network inPlay) :
    Fork.Parental (fun previous next : Header => next.prevBlockhash = crate.blockHash previous)
      (· ∈ inPlay) where
  parent ha hb _ hac hbc := h.injective _ ha _ hb (hac.symm.trans hbc)
  ranked := by
    obtain ⟨rank, hrank⟩ := h.ranked
    exact ⟨rank, fun ha hb hlink => hrank _ ha _ hb hlink⟩

theorem findSome?_filterMap_find? {α β γ : Type} {f : α → Option β} {g : β → Option γ} {k : α → γ}
    {p : α → Prop} [DecidablePred p] {xs : List α}
    (h : ∀ x ∈ xs, ∃ y, f x = some y ∧ g y = if p x then some (k x) else none) :
    (xs.filterMap f).findSome? g = (xs.find? fun x => p x).map k := by
  induction xs with
  | nil => rfl
  | cons x xs ih =>
      obtain ⟨y, hy, hg⟩ := h x List.mem_cons_self
      rw [List.filterMap_cons, hy, List.findSome?_cons, hg]
      by_cases hx : p x
      · rw [if_pos hx, List.find?_cons_of_pos (by simpa using hx)]
        rfl
      · rw [if_neg hx, List.find?_cons_of_neg (by simpa using hx)]
        exact ih fun z hz => h z (List.mem_cons_of_mem _ hz)

theorem shared_pos (hreached : opened.Reached crate chain inPlay)
    (hhonest : HonestChain crate opened below branch) : 0 < Fork.shared chain.headers branch := by
  obtain ⟨first, rest, hheaders⟩ := List.exists_cons_of_ne_nil hreached.sound.nonempty
  have hhead : chain.headers.head? = some first := by rw [hheaders, List.head?_cons]
  have hbranch : branch.head? = some first := by
    rw [hhonest.anchored, ← hreached.anchor, hhead]
  rw [List.head?_eq_getElem?] at hhead hbranch
  exact Fork.lt_shared (Nat.zero_le _) hhead hbranch

variable (hreached : opened.Reached crate chain inPlay)
  (hfair : Plausible crate opened.chain inPlay) (hhonest : HonestChain crate opened below branch)
  (hplay : ∀ header ∈ below ++ branch, header ∈ inPlay)
include hreached hfair hhonest hplay

/-- **A header of ours is on the peer's chain** exactly where both chains are one. -/
theorem findIdx?_header {offset : ℕ} {header : Header}
    (hheader : chain.headers[offset]? = some header) :
    ((below ++ branch).findIdx? fun other => crate.blockHash other == crate.blockHash header) =
      if offset < Fork.shared chain.headers branch then some (below.length + offset) else none := by
  have hpositive := shared_pos hreached hhonest
  have hours : (below ++ chain.headers).IsChain fun previous next =>
      next.prevBlockhash = crate.blockHash previous := by
    obtain ⟨hbelow, _, hjoin⟩ := List.isChain_append.mp hhonest.linked
    refine List.isChain_append.mpr ⟨hbelow, hreached.sound.valid.isChain, ?_⟩
    rw [hreached.anchor, ← hhonest.anchored]
    exact hjoin
  have hplayOurs : ∀ other ∈ below ++ chain.headers, other ∈ inPlay := by
    intro other hother
    rcases List.mem_append.mp hother with hbelow | hmine
    · exact hplay other (List.mem_append_left _ hbelow)
    · exact hreached.stored other hmine
  have hhead : (below ++ chain.headers).head? = (below ++ branch).head? := by
    rw [List.head?_append, List.head?_append, hreached.anchor, hhonest.anchored]
  have hplace : (below ++ chain.headers)[below.length + offset]? = some header := by
    rw [List.getElem?_append_right (Nat.le_add_right _ _), Nat.add_sub_cancel_left, hheader]
  -- a header with the hash stands where ours does, before the fork
  have hsame : ∀ place other, (below ++ branch)[place]? = some other →
      crate.blockHash other = crate.blockHash header →
      place = below.length + offset ∧ offset < Fork.shared chain.headers branch := by
    intro place other hother hhash
    have heq := hfair.injective other (hplay other (List.mem_of_getElem? hother)) header
      (hreached.stored header (List.mem_of_getElem? hheader)) hhash
    rw [heq] at hother
    have hfork := (parental_of_fair hfair).same_place hours hhonest.linked hplayOurs hplay
      hhead hplace hother
    rw [Fork.shared_append] at hfork
    exact ⟨hfork.1.symm, by omega⟩
  split
  · next hlt =>
      have hbranch : branch[offset]? = some header := by
        rw [← Fork.getElem?_of_lt_shared hlt, hheader]
      have hthere : (below ++ branch)[below.length + offset]? = some header := by
        rw [List.getElem?_append_right (Nat.le_add_right _ _), Nat.add_sub_cancel_left, hbranch]
      obtain ⟨hlength, hget⟩ := List.getElem?_eq_some_iff.mp hthere
      refine List.findIdx?_eq_some_iff_getElem.mpr ⟨hlength, ?_, ?_⟩
      · rw [hget]
        exact beq_self_eq_true _
      · intro place hbefore hhash
        have hother := List.getElem?_eq_getElem (hbefore.trans hlength)
        have hfound := (hsame place _ hother (beq_iff_eq.mp hhash)).1
        omega
  · next hge =>
      refine List.findIdx?_eq_none_iff.mpr fun other hother => ?_
      obtain ⟨place, hplaced⟩ := List.mem_iff_getElem?.mp hother
      rw [beq_eq_false_iff_ne]
      exact fun hhash => hge (hsame place other hplaced hhash).2

/-- **What an honest peer sends** is its branch from the first shared offset of the request on. -/
theorem answer_eq :
    answer crate (below ++ branch) (requestLocator crate chain) =
      (branch.drop (requestBase (chain.headers.length - 1)
        (Fork.shared chain.headers branch) + 1)).take maxHeadersPerMessage := by
  have hpositive := shared_pos hreached hhonest
  have hlength := List.length_pos_iff.mpr hreached.sound.nonempty
  obtain ⟨hfind, _⟩ := @requestBase_spec (chain.headers.length - 1) _ hpositive
  have hfound : ((requestLocator crate chain).findSome? fun hash =>
      (below ++ branch).findIdx? fun header => crate.blockHash header == hash) =
      some (below.length + requestBase (chain.headers.length - 1)
        (Fork.shared chain.headers branch)) := by
    have hnamed : ∀ offset ∈ requestOffsets (chain.headers.length - 1), ∃ hash,
        chain.headers[offset]?.map crate.blockHash = some hash ∧
        ((below ++ branch).findIdx? fun header => crate.blockHash header == hash) =
          if offset < Fork.shared chain.headers branch then some (below.length + offset)
          else none := by
      intro offset hoffset
      have hle := requestOffsets_le hoffset
      have hheader : chain.headers[offset]? = some chain.headers[offset] :=
        List.getElem?_eq_getElem (by omega)
      rw [hheader]
      exact ⟨_, rfl, findIdx?_header hreached hfair hhonest hplay hheader⟩
    rw [requestLocator_eq chain hreached.sound.nonempty, findSome?_filterMap_find? hnamed, hfind]
    rfl
  rw [answer, hfound]
  dsimp only
  rw [Nat.add_assoc, List.drop_append, List.drop_of_length_le (Nat.le_add_right _ _),
    List.nil_append, Nat.add_sub_cancel_left]

end

end Urma.P2p
