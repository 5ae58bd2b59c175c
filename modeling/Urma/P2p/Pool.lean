import Urma.P2p.Discovery
import Urma.P2p.Peers

/-!
# The pool of peers

`urma_runtime::p2p::peers` with its discovery, and `urma_runtime::p2p::book`. What the operations
meet is passed to them: the instants and the clock, what resolvers and dials answer, whether a
thread starts. A loop goes on as long as there is an answer for its next round.
-/

namespace Urma.P2p

open Chain Lib Urma.Runtime Stateful

/-! ## The peer book -/

/-- `P2P_GOOD_PEERS`. -/
def goodPeers : ℕ := 64

/-- `book::Entry`. -/
structure Entry where
  address : SocketAddr
  lastSeen : ℕ
  deriving DecidableEq

/-- `PeerBook`. -/
structure PeerBook where
  entries : List Entry
  deriving DecidableEq

namespace PeerBook

/-- `PeerBook::trim`: the most recent entries first. -/
def trim (book : PeerBook) : PeerBook where
  entries :=
    (book.entries.mergeSort fun entry other => other.lastSeen ≤ entry.lastSeen).take goodPeers

/-- `PeerBook::load`, from the file if there is one. -/
def load (stored : Option (Except P2pError (List Entry))) (now : Except P2pError ℕ) :
    Except P2pError (List Entry) :=
  match stored with
  | none => .ok []
  | some stored => do
      let now ← now
      let entries ← stored
      .ok ((entries.filter fun entry => routable entry.address).map fun entry =>
        { entry with lastSeen := min entry.lastSeen now })

/-- `PeerBook::open`. -/
def opened (stored : Option (Except P2pError (List Entry))) (now : Except P2pError ℕ) : PeerBook :=
  match load stored now with
  | .ok entries => trim ⟨entries⟩
  | .error _ => trim ⟨[]⟩

/-- `PeerBook::addresses`. -/
def addresses (book : PeerBook) : List SocketAddr :=
  book.entries.map Entry.address

/-- `PeerBook::record`; writing the file changes nothing here. -/
def record (book : PeerBook) (address : SocketAddr) (now : ℕ) : PeerBook :=
  trim ⟨(book.entries.filter fun entry => entry.address ≠ address) ++ [⟨address, now⟩]⟩

end PeerBook

/-! ## The pool -/

/-- `P2P_DIAL_CONCURRENCY`. -/
def dialConcurrency : ℕ := 24

/-- `Peers`; a dial in flight is the address that is dialed. -/
structure Pool where
  discovery : Discovery
  book : PeerBook
  dialing : List SocketAddr
  warmed : Bool
  connected : List (Peer SocketAddr)

/-- How a dial ends. -/
inductive Dialed where
  | connected (services : UInt64) (startHeight : ℕ) (socket : Socket)
  /-- `Error::Io` of the kind `NetworkUnreachable`. -/
  | unreachable
  | failed (cause : P2pError)

/-- A round of `launch`: the instant, and whether the thread starts. -/
structure Launch where
  now : ℕ
  spawned : Bool
  deriving DecidableEq

/-- A round of `settle`: the dial that ends, how it ends, the clock, and the rounds of `launch`. -/
structure Arrival where
  which : ℕ
  outcome : Dialed
  clock : Except P2pError ℕ
  launches : List Launch

/-- `peer::Gossiped`. -/
structure Gossiped where
  address : SocketAddr
  time : ℕ
  deriving DecidableEq

/-- `P2P_GOSSIP_FUTURE_SECS`. -/
def gossipFuture : ℕ := 600

/-- `P2P_GOSSIP_PENALTY_SECS`. -/
def gossipPenalty : ℕ := 5 * 24 * 60 * 60

/-- `credible_time`. -/
def credibleTime (time now : ℕ) : ℕ :=
  if now + gossipFuture < time then now - gossipPenalty else time

namespace Pool

variable (client : Client SocketAddr)

/-- `Peers::new`. -/
def new (book : PeerBook) (ipv6Routable : Bool) : Pool where
  discovery :=
    if client.pinned.isEmpty && !ipv6Routable then Discovery.new.unreachableV6 else Discovery.new
  book := book
  dialing := []
  warmed := false
  connected := []

variable (pool : Pool)

/-! ### Addresses -/

/-- Addresses are offered one after the other. -/
def offerAll (addresses : List SocketAddr) : Pool :=
  { pool with discovery := addresses.foldl Discovery.offerGossip pool.discovery }

/-- `Peers::collect`: the addresses of an answer are in the order of their shuffle. -/
def collect (resolutions : List (Except P2pError (List SocketAddr))) : Pool :=
  resolutions.foldl (fun pool resolution =>
    match resolution with
    | .ok addresses => pool.offerAll (addresses.filter routable)
    | .error _ => pool) pool

/-- What `discover` meets: the instants, the answers of the resolvers, and the fixed seeds in the
order of their shuffle. -/
structure Seeds where
  now : ℕ
  resolutions : List (Except P2pError (List SocketAddr))
  fixed : List SocketAddr
  later : ℕ

/-- Addresses are readmitted. -/
def readmit (addresses : List SocketAddr) : Pool :=
  { pool with discovery := pool.discovery.readmit addresses }

/-- `Peers::discover`. The threads it starts answer in a later call. -/
def discover (seeds : Seeds) : Pool :=
  let pool := pool.collect seeds.resolutions
  if !pool.discovery.seedingDue seeds.now then pool
  else
    let pool := { pool with discovery := pool.discovery.markSeeded seeds.now }
    if !client.pinned.isEmpty then pool.readmit client.pinned
    else
      let pool := pool.readmit seeds.fixed
      let pool := pool.readmit pool.book.addresses
      { pool with discovery := (pool.discovery.droughtWarns seeds.later).2 }

/-- `Peers::absorb_gossip`, with what the peers have learned: the most recent addresses first. -/
def absorbGossip (learned : List Gossiped) (now : Except P2pError ℕ) : Pool :=
  if !client.pinned.isEmpty then pool
  else
    match now with
    | .error _ => pool
    | .ok now =>
        let admitted := (learned.filter fun gossiped => routable gossiped.address).mergeSort
          fun gossiped other => credibleTime other.time now ≤ credibleTime gossiped.time now
        pool.offerAll (admitted.map Gossiped.address)

/-! ### Dials -/

/-- `Peers::held`. -/
def held (address : SocketAddr) : Bool :=
  pool.dialing.contains address || pool.connected.any fun peer => peer.address = address

/-- There is room for a dial. -/
def hasRoom : Bool :=
  pool.connected.length < target client && pool.dialing.length < dialConcurrency

/-- What a round of `launch` makes of the address that discovery hands out. -/
def dial (address : SocketAddr) (spawned : Bool) : Pool :=
  if pool.held address || !spawned then pool
  else { pool with dialing := pool.dialing ++ [address] }

/-- `Peers::launch`. -/
def launch (pool : Pool) : List Launch → Pool
  | [] => pool
  | round :: rounds =>
      if pool.hasRoom client then
        match pool.discovery.next round.now with
        | (.exhausted, discovery) => { pool with discovery }
        | (.address address, discovery) =>
            let pool := { pool with discovery }
            let dialed := pool.dial address round.spawned
            if pool.held address || round.spawned then dialed.launch rounds else dialed
      else pool

/-- `Peers::finish`: a peer that connected is recorded and, if it is wanted, held. -/
def finish (address : SocketAddr) (outcome : Dialed) (clock : Except P2pError ℕ) : Pool :=
  match outcome with
  | .connected services startHeight socket =>
      let book :=
        match client.pinned.isEmpty, clock with
        | true, .ok now => pool.book.record address now
        | _, _ => pool.book
      { pool with
        book
        connected := P2p.finish client pool.connected
          (Peer.connect address services startHeight socket) }
  | .unreachable =>
      if address.isIpv6 && client.pinned.isEmpty then
        { pool with discovery := pool.discovery.unreachableV6 }
      else pool
  | .failed _ => pool

/-- The `Ok` branch of `settle`, up to the launch. -/
def arrive (address : SocketAddr) (outcome : Dialed) (clock : Except P2pError ℕ) : Pool :=
  ({ pool with dialing := pool.dialing.erase address } : Pool).finish client address outcome clock

/-- `Peers::settle`, with the dials whose results come before it gives up. Whether it waits for them
or only looks decides when they come. -/
def settle (pool : Pool) : List Arrival → Pool
  | [] => pool
  | arrival :: arrivals =>
      match pool.dialing[arrival.which]? with
      | none => pool
      | some address =>
          let arrived := pool.arrive client address arrival.outcome arrival.clock
          (arrived.launch client arrival.launches).settle arrivals

/-- What `top_up` meets. -/
structure Dials where
  before : List Arrival
  launches : List Launch
  patience : List Arrival
  grace : List Arrival

/-- `Peers::top_up`. -/
def topUp (dials : Dials) : Pool :=
  let pool := pool.settle client dials.before
  let pool := pool.launch client dials.launches
  let pool := pool.settle client dials.patience
  if !pool.warmed && !pool.connected.isEmpty then
    ({ pool with warmed := true } : Pool).settle client dials.grace
  else pool

/-! ### Peers -/

/-- `Peers::drop_peer`. -/
def dropPeer (index now : ℕ) : Pool :=
  match pool.connected[index]? with
  | none => pool
  | some peer =>
      { pool with
        connected := pool.connected.eraseIdx index
        discovery := pool.discovery.dropped peer.address now }

/-- `Peers::ban_peer`. -/
def banPeer (index : ℕ) : Pool :=
  match pool.connected[index]? with
  | none => pool
  | some peer =>
      { pool with
        connected := pool.connected.eraseIdx index
        discovery := pool.discovery.ban peer.address.ip }

/-- A peer is talked to: whatever becomes of it, its address stays. -/
def talk (index : ℕ) (left : Peer SocketAddr → Peer SocketAddr) : Pool :=
  { pool with
    connected := pool.connected.modify index fun peer =>
      { left peer with address := peer.address } }

/-- The loop of `Peers::poll_idle` below an index. -/
def pollBelow (pool : Pool) (instants : ℕ → ℕ) : ℕ → Pool
  | 0 => pool
  | index + 1 =>
      match pool.connected[index]? with
      | none => pool.pollBelow instants index
      | some peer =>
          let polled := pool.talk index fun peer => (outcome (poll client) peer).2
          match (outcome (poll client) peer).1 with
          | .ok _ => polled.pollBelow instants index
          | .error _ => (polled.dropPeer index (instants index)).pollBelow instants index

/-- `Peers::poll_idle`. -/
def pollIdle (instants : ℕ → ℕ) : Pool :=
  pool.pollBelow client instants pool.connected.length

/-! ## Operations -/

end Pool

/-- What the worker does to its peers. -/
inductive PoolOperation where
  | discover (seeds : Pool.Seeds)
  | absorbGossip (learned : List Gossiped) (now : Except P2pError ℕ)
  | topUp (dials : Pool.Dials)
  | pollIdle (instants : ℕ → ℕ)
  | talk (index : ℕ) (left : Peer SocketAddr → Peer SocketAddr)
  | dropPeer (index now : ℕ)
  | banPeer (index : ℕ)

/-- An operation is done. -/
def PoolOperation.perform (client : Client SocketAddr) (pool : Pool) : PoolOperation → Pool
  | .discover seeds => pool.discover client seeds
  | .absorbGossip learned now => pool.absorbGossip client learned now
  | .topUp dials => pool.topUp client dials
  | .pollIdle instants => pool.pollIdle client instants
  | .talk index left => pool.talk index left
  | .dropPeer index now => pool.dropPeer index now
  | .banPeer index => pool.banPeer index

end Urma.P2p
