import Urma.Chain.DecodeBlock
import Urma.Lib.Stateful
import Urma.Runtime.Headers

/-!
# A peer of the light client

`urma_runtime::p2p::peer`: what a connected peer was asked for, what has arrived from it and what it
says it lacks. Messages come in while the worker polls the peer and while it waits for an answer.

A peer carries the future of its socket: what each read yields and whether each other call on the
socket succeeds. Gossip, the handshake and what the messages sent say are left out, as nothing here
reads them.
-/

namespace Urma.P2p

open Chain Lib Urma.Runtime Stateful

/-! ## Errors -/

/-- `urma_runtime::error::Error`, as far as the light client produces it. -/
inductive P2pError where
  | invalid (message : String)
  | unsupported (message : String)
  | missing (message : String)
  | headerContext (cause : PowError)
  | chainDecode (cause : BlockDecodeError)
  | transaction
  | integer
  | io (message : String)
  deriving DecidableEq, Repr

/-- The errors of the header chain are those of the runtime. -/
def P2pError.ofHeader : HeaderError → P2pError
  | .invalid message => .invalid message
  | .missing message => .missing message
  | .headerContext cause => .headerContext cause

/-- A result of the header chain. -/
def ofHeaders {α : Type} : Except HeaderError α → Except P2pError α
  | .ok a => .ok a
  | .error error => .error (.ofHeader error)

/-! ## The client -/

/-- What the worker runs with: the chain and the pinned peers, and what it takes from crates. -/
structure Client (Addr : Type) where
  chain : Chain
  pinned : List Addr
  pow : PowCrate
  consensus : ConsensusCrate
  blocks : BlockCrates
  /-- `Display` of a `SocketAddr`. -/
  addressText : Addr → String
  /-- `Display` of a `BlockHash`. -/
  hashText : Bytes32 → String
  /-- `Display` of an `Error`, which may be one of a crate. -/
  errorText : P2pError → String

/-- What the code relies on. Both crates stand for `bitcoin`, with one `block_hash`. -/
structure Client.Lawful {Addr : Type} (client : Client Addr) : Prop where
  pow : client.pow.Lawful
  consensus : client.consensus.Lawful
  blockHash : client.consensus.blockHash = client.pow.blockHash

/-! ## Messages and sockets -/

/-- `Inventory`, as far as it is told apart. -/
inductive Inventory where
  | block (hash : Bytes32)
  | witnessBlock (hash : Bytes32)
  | other
  deriving DecidableEq

/-- `wire::Message`, with what is read of it. -/
inductive Message where
  | version
  | verack
  | ping
  | pong
  | addr
  | addrV2
  | headers (rows : List Header)
  | inv
  | notFound (items : List Inventory)
  | block (raw : Bytes)
  | other

/-- What a read yields. -/
inductive Read where
  | message (message : Message)
  /-- Nothing is waiting, and nothing comes before the deadline. -/
  | silence
  | failed (cause : P2pError)

/-- The future of a `TcpStream`. -/
structure Socket where
  /-- What the reads yield; after them the connection is closed. -/
  reads : List Read
  /-- Whether each write and each change of a setting fails; after them, none does. -/
  calls : List (Option P2pError)

/-- `Peer`. -/
structure Peer (Addr : Type) where
  address : Addr
  services : UInt64
  startHeight : ℕ
  provenHeight : Option ℕ
  arrived : List Bytes
  lacking : List Bytes32
  requested : List Bytes32
  socket : Socket

/-- A peer as it comes out of the handshake. -/
def Peer.connect {Addr : Type} (address : Addr) (services : UInt64) (startHeight : ℕ)
    (socket : Socket) : Peer Addr where
  address := address
  services := services
  startHeight := startHeight
  provenHeight := none
  arrived := []
  lacking := []
  requested := []
  socket := socket

/-- `P2P_HEIGHT_SLACK`. -/
def heightSlack : ℕ := 12

/-- `P2P_PIPELINE_PER_PEER`. -/
def pipelinePerPeer : ℕ := 8

/-- `P2P_POLL_MESSAGES`. -/
def pollMessages : ℕ := 64

variable {Addr : Type}

/-- `Peer::height_hint`. -/
def Peer.heightHint (peer : Peer Addr) (tip : ℕ) : ℕ :=
  match peer.provenHeight with
  | none => min peer.startHeight (tip + heightSlack)
  | some proven => max proven (min peer.startHeight tip)

/-- `Peer::limited`: without `ServiceFlags::NETWORK`. -/
def Peer.limited (peer : Peer Addr) : Bool :=
  peer.services ||| 1 != peer.services

/-- `Peer::outstanding`. -/
def Peer.outstanding (peer : Peer Addr) : ℕ :=
  peer.requested.length

/-- A hash that is no longer asked for. -/
def Peer.answered (peer : Peer Addr) (hash : Bytes32) : Peer Addr :=
  { peer with requested := peer.requested.filter (· ≠ hash) }

/-- What the methods of a peer do. -/
abbrev PeerM (Addr : Type) := Stateful (Peer Addr) P2pError

/-! ## Reading and writing -/

/-- A write, or a change of a setting. -/
def socketCall : PeerM Addr Unit :=
  ofOutcome fun peer =>
    match peer.socket.calls with
    | [] => (.ok (), peer)
    | none :: calls => (.ok (), { peer with socket.calls := calls })
    | some cause :: calls => (.error cause, { peer with socket.calls := calls })

/-- A read. -/
def socketRead : PeerM Addr Read :=
  ofOutcome fun peer =>
    match peer.socket.reads with
    | [] => (.ok (.failed (.io "connection closed")), peer)
    | read :: reads => (.ok read, { peer with socket.reads := reads })

variable (client : Client Addr)

/-- `block_hash`. -/
def blockHash (raw : Bytes) : Except P2pError Bytes32 :=
  if raw.length < 80 then .error (.missing "block shorter than a header")
  else
    match client.blocks.deserializeHeader (raw.take 80) with
    | none => .error .transaction
    | some header => .ok (client.pow.blockHash header)

/-- One item of a `NotFound`. -/
def Peer.lacks (peer : Peer Addr) (item : Inventory) : Peer Addr :=
  match item with
  | .witnessBlock hash | .block hash =>
      if peer.requested.contains hash then
        { peer.answered hash with lacking := peer.lacking ++ [hash] }
      else peer
  | .other => peer

/-- A block that comes by itself, when it was asked for. -/
def Peer.accept (peer : Peer Addr) (hash : Bytes32) (raw : Bytes) : Peer Addr :=
  if peer.requested.contains hash then
    { peer.answered hash with arrived := peer.arrived ++ [raw] }
  else peer

/-- `Peer::absorb`. -/
def absorb : Message → PeerM Addr Unit
  | .ping => socketCall
  | .version => throw (.invalid "peer repeated its version")
  | .block raw => do
      let hash ← lift (blockHash client raw)
      modify fun peer => peer.accept hash raw
  | .notFound items => modify fun peer => items.foldl Peer.lacks peer
  | .addr | .addrV2 | .headers _ | .pong | .inv | .verack | .other => pure ()

/-- The rounds of `poll`. -/
def pollRounds : ℕ → PeerM Addr Unit
  | 0 => pure ()
  | rounds + 1 => do
      socketCall
      let peeked ← socketRead
      socketCall
      match peeked with
      | .silence => pure ()
      | .failed cause => throw cause
      | .message message => do
          socketCall
          socketCall
          absorb client message
          pollRounds rounds

/-- `Peer::poll`. -/
def poll : PeerM Addr Unit :=
  pollRounds client pollMessages

/-! ## Waiting -/

/-- The loop of `wait`, for so many messages. The deadline is where a read yields nothing. -/
def waitFor {α : Type} (matcher : Message → PeerM Addr (Option α)) : ℕ → PeerM Addr α
  | 0 => throw (.io "connection closed")
  | messages + 1 => do
      let read ← socketRead
      match read with
      | .silence => do
          let peer ← get
          let address := client.addressText peer.address
          throw (.io s!"peer {address} did not answer in time")
      | .failed cause => throw cause
      | .message message => do
          let waited ← matcher message
          match waited with
          | some value => pure value
          | none => waitFor matcher messages

/-- `Peer::wait`: the messages there are, and the end of the connection after them. -/
def wait {α : Type} (matcher : Message → PeerM Addr (Option α)) : PeerM Addr α := do
  let peer ← get
  waitFor client matcher (peer.socket.reads.length + 1)

/-- The matcher of `request_headers`. -/
def headersMatcher : Message → PeerM Addr (Option (List Header))
  | .headers rows => pure (some rows)
  | message => do
      absorb client message
      pure none

/-- `Peer::request_headers`. -/
def requestHeaders : PeerM Addr (List Header) := do
  socketCall
  socketCall
  let answered ← attempt (wait client (headersMatcher client))
  socketCall
  lift answered

/-- `Peer::ask_blocks`. -/
def askBlocks (hashes : List Bytes32) : PeerM Addr Unit := do
  let peer ← get
  if pipelinePerPeer + 1 < peer.requested.length + hashes.length then
    let address := client.addressText peer.address
    throw (.invalid s!"peer {address} already holds its block request window")
  else do
    socketCall
    modify fun peer => { peer with requested := peer.requested ++ hashes }

/-- `Peer::missing`. -/
def Peer.missing (peer : Peer Addr) (hash : Bytes32) : P2pError :=
  let address := client.addressText peer.address
  let block := client.hashText hash
  .missing s!"peer {address} does not have block {block}"

/-- A `NotFound` that names the block. -/
def namesBlock (hash : Bytes32) (rows : List Inventory) : Bool :=
  rows.any fun item => item == .witnessBlock hash || item == .block hash

/-- The last arm of the matcher of `await_block`. -/
def absorbOther (message : Message) : PeerM Addr (Option Bytes) := do
  absorb client message
  pure none

/-- The matcher of `await_block`. -/
def blockMatcher (hash : Bytes32) : Message → PeerM Addr (Option Bytes)
  | .block raw => do
      let found ← lift (blockHash client raw)
      if found = hash then do
        modify fun peer => peer.answered hash
        pure (some raw)
      else absorbOther client (.block raw)
  | .notFound rows =>
      if namesBlock hash rows then do
        modify fun peer => peer.answered hash
        let peer ← get
        throw (peer.missing client hash)
      else absorbOther client (.notFound rows)
  | message => absorbOther client message

/-- Where a block is among those that have arrived. -/
def arrivedAt (hash : Bytes32) : List Bytes → Except P2pError (Option ℕ)
  | [] => .ok none
  | raw :: rest => do
      let found ← blockHash client raw
      if found = hash then .ok (some 0)
      else do
        let position ← arrivedAt hash rest
        .ok (position.map (· + 1))

/-- `Peer::await_block` of a block that has not arrived. -/
def awaitMessage (hash : Bytes32) : PeerM Addr Bytes := do
  socketCall
  let answered ← attempt (wait client (blockMatcher client hash))
  socketCall
  lift answered

/-- `Peer::await_block`. -/
def awaitBlock (hash : Bytes32) : PeerM Addr Bytes := do
  let peer ← get
  if peer.lacking.contains hash then do
    modify fun peer => { peer with lacking := peer.lacking.filter (· ≠ hash) }
    throw (peer.missing client hash)
  else do
    let position ← lift (arrivedAt client hash peer.arrived)
    match position with
    | some position => do
        modify fun peer => { peer with arrived := peer.arrived.eraseIdx position }
        pure (peer.arrived.getD position [])
    | none => awaitMessage client hash

end Urma.P2p
