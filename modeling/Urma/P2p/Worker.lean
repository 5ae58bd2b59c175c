import Urma.P2p.Pipeline

/-!
# The worker of the light client

`urma_runtime::p2p::worker`: the one thread that talks to the peers. It syncs headers from them in
rounds and serves requests for blocks. The header cache file is left out: writing it is taken to
succeed.
-/

namespace Urma.P2p

open Chain Lib Urma.Runtime Stateful

/-- `P2P_MAX_HEADERS_PER_MESSAGE`. -/
def maxHeadersPerMessage : ℕ := 2000

/-- `P2P_FETCH_ATTEMPTS`. -/
def fetchAttempts : ℕ := 4

variable {Addr : Type} [LinearOrder Addr] (client : Client Addr)

/-! ## Header rounds -/

/-- `now_unix`. -/
def nowUnix : WorkerM Addr ℕ :=
  ofOutcome fun worker =>
    (worker.clock.headD (.error .integer), { worker with clock := worker.clock.tail })

/-- `record_proof`. -/
def recordProof (headers : HeaderChain) (batch : List Header) (peer : Peer Addr) : Peer Addr :=
  match batch.getLast? with
  | none => { peer with startHeight := min peer.startHeight (headers.tipHeight - 1) }
  | some last =>
      match headers.heightOf (client.pow.blockHash last) with
      | none => peer
      | some height =>
          { peer with provenHeight := some (match peer.provenHeight with
              | some proven => max proven height
              | none => height) }

/-- The call of `extend` in `sync_from`. -/
def extendHeaders (batch : List Header) : WorkerM Addr Extension := do
  let now ← nowUnix
  ofOutcome fun worker =>
    match worker.headers.extend client.pow batch now with
    | (headers, .ok extension) => (.ok extension, { worker with headers })
    | (headers, .error error) => (.error (.ofHeader error), { worker with headers })

/-- What `sync_from` does with an extension: a reorganization takes the abandoned blocks out of the
cache. -/
def pruneFor (extension : Extension) : WorkerM Addr Unit :=
  match extension with
  | .reorganized forkHeight _ =>
      modify fun worker => { worker with blocks := worker.blocks.pruneAbove forkHeight }
  | .appended _ | .ignored => pure ()

/-- `record_proof` of the peer at an index. -/
def recordAt (index : ℕ) (batch : List Header) : WorkerM Addr Unit :=
  modify fun worker =>
    let prove := recordProof client worker.headers batch
    { worker with connected := worker.connected.modify index prove }

/-- One batch of `sync_from`, from the peer's answer on. -/
def applyBatch (index : ℕ) (batch : List Header) : WorkerM Addr Extension := do
  let extension ← extendHeaders client batch
  recordAt client index batch
  pruneFor extension
  pure extension

/-- The loop of `sync_from`. Every answer takes a read of the peer's socket. -/
def syncLoop (index : ℕ) : ℕ → Bool → WorkerM Addr Bool
  | 0, _ => throw (.io "connection closed")
  | rounds + 1, advanced => do
      let batch ← onPeer index (requestHeaders client)
      let extension ← applyBatch client index batch
      match extension with
      | .ignored => pure advanced
      | .appended _ | .reorganized _ _ =>
          if batch.length < maxHeadersPerMessage then pure true
          else syncLoop index rounds true

/-- The reads a peer has left. -/
def readsLeft (connected : List (Peer Addr)) (index : ℕ) : ℕ :=
  (connected[index]?.map fun peer => peer.socket.reads.length).getD 0

/-- `sync_from`. -/
def syncFrom (index : ℕ) : WorkerM Addr Bool := do
  let worker ← get
  syncLoop client index (readsLeft worker.connected index + 1) false

/-- `HeaderPeerAction`. -/
inductive HeaderPeerAction where
  | advance
  | keepForContext
  | ban
  | drop
  deriving DecidableEq, Repr

/-- `HeaderRound`. -/
structure HeaderRound where
  answered : ℕ
  context : Option P2pError

/-- `HeaderRound::observe`. -/
def HeaderRound.observe {α : Type} (round : HeaderRound) :
    Except P2pError α → HeaderRound × HeaderPeerAction
  | .ok _ => ({ round with answered := round.answered + 1 }, .advance)
  | .error (.headerContext cause) =>
      ({ round with context := some (.headerContext cause) }, .keepForContext)
  | .error (.invalid _) => (round, .ban)
  | .error _ => (round, .drop)

/-- `HeaderRound::finish`. -/
def HeaderRound.finish (round : HeaderRound) : Except P2pError Unit :=
  if 0 < round.answered then .ok ()
  else .error (round.context.getD (.unsupported "no peer answered the header refresh"))

/-- `drop_peer` and `ban_peer`, which differ in what discovery remembers. -/
def removePeer (index : ℕ) : WorkerM Addr Unit :=
  modify fun worker => { worker with connected := worker.connected.eraseIdx index }

/-- Whether no peer claims more than is held. -/
def caughtUp (worker : Worker Addr) : Bool :=
  bestHeight worker.connected worker.headers.tipHeight ≤ worker.headers.tipHeight

/-- The loop of `sync_round`. -/
def syncPeers (refreshing : Bool) : List Addr → HeaderRound → WorkerM Addr HeaderRound
  | [], round => pure round
  | address :: order, round => do
      let worker ← get
      match worker.connected.findIdx? fun peer => peer.address = address with
      | none => syncPeers refreshing order round
      | some index => do
          let outcome ← attempt (syncFrom client index)
          let worker ← get
          let (round, action) := round.observe outcome
          match action with
          | .advance =>
              let advanced := match outcome with
                | .ok advanced => advanced
                | .error _ => false
              if refreshing && advanced && caughtUp worker then pure round
              else syncPeers refreshing order round
          | .keepForContext => syncPeers refreshing order round
          | .ban | .drop => do
              removePeer index
              syncPeers refreshing order round

/-- The end of `sync_round`. -/
def finishRound (round : HeaderRound) : WorkerM Addr Unit := do
  modify fun worker => { worker with synced := worker.synced || 0 < round.answered }
  lift round.finish

/-- `sync_round`. -/
def syncRound : WorkerM Addr Unit := do
  let worker ← get
  let order := (orderForHeaders client worker.connected worker.headers.tipHeight).filterMap
    fun index => worker.connected[index]?.map Peer.address
  let round ← syncPeers client worker.synced order ⟨0, none⟩
  finishRound round

/-! ## Blocks -/

/-- The peer that was asked for a block, if it is connected. -/
def holderIndex (worker : Worker Addr) (hash : Bytes32) : Option ℕ := do
  let address ← holder worker.asked hash
  worker.connected.findIdx? fun peer => peer.address = address

/-- The address of a connected peer. -/
def addressAt (worker : Worker Addr) (index : ℕ) : Option Addr :=
  worker.connected[index]?.map Peer.address

/-- The start of an attempt: nobody was asked yet. -/
def fillIfNobody (hash : Bytes32) (height : ℕ) (lacking : List Addr) : WorkerM Addr Unit := do
  let worker ← get
  match holder worker.asked hash with
  | some _ => pure ()
  | none => fill client height lacking

/-- `forget_peer` and then `ban_peer` or `drop_peer`. -/
def giveUp (index : ℕ) (address : Option Addr) : WorkerM Addr Unit :=
  match address with
  | none => removePeer index
  | some address => do
      forgetPeer address
      removePeer index

/-- The loop of `fetch_block`. -/
def fetchLoop (hash : Bytes32) (height : ℕ) :
    ℕ → List String → List Addr → WorkerM Addr Bytes
  | 0, failures, _ =>
      let block := client.hashText hash
      let causes := String.intercalate "; " failures
      throw (.unsupported
        s!"block {block} unavailable after {fetchAttempts} peer attempts: {causes}")
  | left + 1, failures, lacking => do
      fillIfNobody client hash height lacking
      let worker ← get
      match holderIndex worker hash with
      | none =>
          let block := client.hashText hash
          let attempt := fetchAttempts - (left + 1)
          let causes := String.intercalate "; " failures
          throw (.unsupported s!"block {block}: no connected peer after {attempt} attempts: {causes}")
      | some index => do
          let received ← attempt (receive client index height hash)
          match received with
          | .ok raw => do
              fill client (height + 1) lacking
              pure raw
          | .error (.missing message) => do
              forget hash
              fetchLoop hash height left (failures ++ [message])
                (lacking ++ (addressAt worker index).toList)
          | .error error => do
              giveUp index (addressAt worker index)
              fetchLoop hash height left (failures ++ [client.errorText error]) lacking

/-- `fetch_block`. -/
def fetchBlock (hash : Bytes32) : WorkerM Addr Bytes := do
  let worker ← get
  match worker.headers.heightOf hash with
  | none =>
      let block := client.hashText hash
      throw (.missing s!"block {block} is not in the verified header chain")
  | some height =>
      match worker.blocks.get hash with
      | some raw => do
          fill client (height + 1) []
          pure raw
      | none => fetchLoop client hash height fetchAttempts [] []

/-! ## Turns -/

/-- `Command`. -/
inductive Command where
  | block (hash : Bytes32)
  | refresh
  deriving DecidableEq

/-- What is sent back. -/
inductive Reply where
  | block (hash : Bytes32) (answer : Except P2pError Bytes)
  | refreshed (answer : Except P2pError Unit)

/-- `serve`. -/
def serve : Command → WorkerM Addr Reply
  | .refresh => do
      let answer ← attempt (syncRound client)
      pure (.refreshed answer)
  | .block hash => do
      let answer ← attempt (fetchBlock client hash)
      pure (.block hash answer)

/-- `maintain_peers`, with the peers whose dials end meanwhile. -/
def maintainPeers (dialed : List (Peer Addr)) : WorkerM Addr Unit := do
  modify fun worker => { worker with connected := pollIdle client worker.connected }
  modify fun worker =>
    if worker.connected.length < target client then
      { worker with connected := topUp client worker.connected dialed }
    else worker

/-- One turn of the loop of `run`, with the command that comes in time. -/
def turn (dialed : List (Peer Addr)) (command : Option Command) : WorkerM Addr (List Reply) := do
  maintainPeers client dialed
  settle client
  let worker ← get
  if worker.synced then
    match command with
    | none => pure []
    | some command => do
        let reply ← serve client command
        pure [reply]
  else do
    let _ ← attempt (syncRound client)
    pure []

/-- The worker as `run` starts it. -/
def Worker.start (headers : HeaderChain) (instants : List ℕ) (clock : List (Except P2pError ℕ)) :
    Worker Addr where
  headers := headers
  blocks := .empty
  asked := []
  connected := []
  synced := false
  instants := instants
  clock := clock

end Urma.P2p
