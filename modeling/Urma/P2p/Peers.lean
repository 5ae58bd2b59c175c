import Mathlib.Data.Nat.Basic
import Mathlib.Order.Defs.LinearOrder
import Urma.P2p.Peer

/-!
# The connected peers

`urma_runtime::p2p::peers`: which peers are asked first, and what becomes of a peer that finished
dialing. Discovery, which picks the addresses to dial, is left out: any peer may finish dialing at
any time.
-/

namespace Urma.P2p

open Chain Lib Urma.Runtime Stateful

/-- `P2P_MAX_PEERS`. -/
def maxPeers : ℕ := 8

/-- `P2P_LIMITED_PEER_DEPTH`. -/
def limitedPeerDepth : ℕ := 288

variable {Addr : Type} [LinearOrder Addr] (client : Client Addr)

/-- `Peers::target`. -/
def target : ℕ :=
  if client.pinned.isEmpty then maxPeers else client.pinned.length

/-! ## Order -/

/-- The order of `Option`: `None` first. -/
def optionRank : Option ℕ → ℕ
  | none => 0
  | some value => value + 1

/-- The order of `(height_hint, proven_height)`. -/
def Peer.atMost (tip : ℕ) (peer other : Peer Addr) : Bool :=
  peer.heightHint tip < other.heightHint tip ||
    peer.heightHint tip == other.heightHint tip &&
      optionRank peer.provenHeight ≤ optionRank other.provenHeight

/-- The peers `ranked` leaves in, before the sort. -/
def rankable (connected : List (Peer Addr)) (height : ℕ) (deep : Bool) (tip : ℕ) :
    List (Peer Addr × ℕ) :=
  let holders := connected.any fun peer => height ≤ peer.heightHint tip
  let kept := connected.zipIdx.filter fun entry =>
    !(holders && entry.1.heightHint tip < height)
  let full := kept.filter fun entry => !entry.1.limited
  if deep then full else full ++ kept.filter fun entry => entry.1.limited

/-- `Peers::ranked`. -/
def ranked (connected : List (Peer Addr)) (height : ℕ) (deep : Bool) (tip : ℕ) : List ℕ :=
  let full := rankable connected height deep tip
  let sorted := if client.pinned.isEmpty then
      full.mergeSort fun entry other => other.1.atMost tip entry.1
    else full
  sorted.map Prod.snd

/-- `Peers::order_for_block`. -/
def orderForBlock (connected : List (Peer Addr)) (height tip : ℕ) : List ℕ :=
  ranked client connected height (limitedPeerDepth < max tip height - height) tip

/-- `Peers::order_for_headers`. -/
def orderForHeaders (connected : List (Peer Addr)) (tip : ℕ) : List ℕ :=
  ranked client connected tip false tip

/-- `Peers::best_height`. -/
def bestHeight (connected : List (Peer Addr)) (tip : ℕ) : ℕ :=
  (connected.map fun peer => peer.heightHint tip).foldl max 0

/-! ## Connecting -/

/-- `Peers::finish`, of a dial that succeeded. -/
def finish (connected : List (Peer Addr)) (peer : Peer Addr) : List (Peer Addr) :=
  if target client ≤ connected.length ∨ connected.any (fun held => held.address = peer.address) then
    connected
  else
    (connected ++ [peer]).mergeSort fun peer other =>
      optionRank (client.pinned.idxOf? peer.address) ≤
        optionRank (client.pinned.idxOf? other.address)

/-- `Peers::top_up`, with the peers whose dials end meanwhile. -/
def topUp (connected dialed : List (Peer Addr)) : List (Peer Addr) :=
  dialed.foldl (finish client) connected

/-- `Peers::poll_idle`: a peer whose poll fails is dropped. -/
def pollIdle (connected : List (Peer Addr)) : List (Peer Addr) :=
  connected.filterMap fun peer =>
    match outcome (poll client) peer with
    | (.ok (), peer) => some peer
    | (.error _, _) => none

end Urma.P2p
