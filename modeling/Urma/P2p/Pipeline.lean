import Urma.P2p.Peers

/-!
# The block pipeline

`urma_runtime::p2p::blocks` and `pipeline`: blocks are asked for ahead of their use, each from one
peer, and cached as they arrive, whether the worker waits for them or finds them among what has
come in by itself.
-/

namespace Urma.P2p

open Chain Lib Urma.Runtime Stateful

/-! ## The cache -/

/-- `P2P_BLOCK_CACHE_BYTES`. -/
def blockCacheBytes : ℕ := 64 * 1024 * 1024

/-- `Cached`. -/
structure Cached where
  hash : Bytes32
  height : ℕ
  raw : Bytes

/-- `BlockCache`. -/
structure BlockCache where
  entries : List Cached
  bytes : ℕ

namespace BlockCache

/-- `BlockCache::new`. -/
def empty : BlockCache :=
  ⟨[], 0⟩

/-- The sum of the lengths. -/
def size (entries : List Cached) : ℕ :=
  (entries.map fun entry => entry.raw.length).sum

/-- `BlockCache::get`. -/
def get (blocks : BlockCache) (hash : Bytes32) : Option Bytes :=
  (blocks.entries.find? fun entry => entry.hash = hash).map Cached.raw

/-- The loop of `insert`: the oldest entries go until the new one has room. -/
def evict (room : ℕ) : List Cached → ℕ → BlockCache
  | [], bytes => ⟨[], bytes⟩
  | entry :: entries, bytes =>
      if blockCacheBytes < bytes + room then evict room entries (bytes - entry.raw.length)
      else ⟨entry :: entries, bytes⟩

/-- `BlockCache::insert`. -/
def insert (blocks : BlockCache) (hash : Bytes32) (height : ℕ) (raw : Bytes) : BlockCache :=
  if blockCacheBytes < raw.length then blocks
  else
    let others := blocks.entries.filter fun entry => entry.hash ≠ hash
    let left := evict raw.length others (size others)
    ⟨left.entries ++ [⟨hash, height, raw⟩], left.bytes + raw.length⟩

/-- `BlockCache::prune_above`. -/
def pruneAbove (blocks : BlockCache) (height : ℕ) : BlockCache :=
  let entries := blocks.entries.filter fun entry => entry.height ≤ height
  ⟨entries, size entries⟩

end BlockCache

/-! ## The state of the worker -/

/-- `P2P_PREFETCH_BLOCKS`. -/
def prefetchBlocks : ℕ := 16

/-- `P2P_BLOCK_PEER_TIMEOUT_SECS`, in milliseconds. -/
def blockPeerTimeout : ℕ := 8000

/-- `Asked`. -/
structure Asked (Addr : Type) where
  address : Addr
  height : ℕ
  hash : Bytes32
  since : ℕ

/-- What the worker owns or shares: the header chain, the block cache, the `InFlight` list, the
connected peers and whether headers were synced, with the future of the two clocks. -/
structure Worker (Addr : Type) where
  headers : HeaderChain
  blocks : BlockCache
  asked : List (Asked Addr)
  connected : List (Peer Addr)
  synced : Bool
  /-- What `Instant::now` will say, in milliseconds. -/
  instants : List ℕ
  /-- What the system clock will say, or that it is before the epoch or past 32 bits. -/
  clock : List (Except P2pError ℕ)

/-- What the functions of the worker do. -/
abbrev WorkerM (Addr : Type) := Stateful (Worker Addr) P2pError

variable {Addr : Type}

/-- A method of the peer at an index, which the caller has looked up. -/
def onPeer {α : Type} (index : ℕ) (action : PeerM Addr α) : WorkerM Addr α :=
  ofOutcome fun worker =>
    match worker.connected[index]? with
    | none => (.error (.invalid "no such peer"), worker)
    | some peer =>
        ((outcome action peer).1,
          { worker with connected := worker.connected.set index (outcome action peer).2 })

/-- `Instant::now`. -/
def instant : WorkerM Addr ℕ :=
  ofOutcome fun worker =>
    (.ok (worker.instants.headD 0), { worker with instants := worker.instants.tail })

/-! ## What is in flight -/

variable [LinearOrder Addr]

/-- `InFlight::contains`. -/
def inFlight (asked : List (Asked Addr)) (hash : Bytes32) : Bool :=
  asked.any fun row => row.hash = hash

/-- `InFlight::holder`. -/
def holder (asked : List (Asked Addr)) (hash : Bytes32) : Option Addr :=
  (asked.find? fun row => row.hash = hash).map Asked.address

/-- `InFlight::expected`. -/
def expected (asked : List (Asked Addr)) (address : Addr) (hash : Bytes32) : Option ℕ :=
  (asked.find? fun row => row.address = address ∧ row.hash = hash).map Asked.height

/-- `InFlight::forget`. -/
def forget (hash : Bytes32) : WorkerM Addr Unit :=
  modify fun worker => { worker with asked := worker.asked.filter fun row => row.hash ≠ hash }

/-- `InFlight::forget_peer`. -/
def forgetPeer (address : Addr) : WorkerM Addr Unit :=
  modify fun worker =>
    { worker with asked := worker.asked.filter fun row => row.address ≠ address }

/-- `InFlight::forget_from`, for each of some hashes. -/
def forgetFrom (address : Addr) (hashes : List Bytes32) : WorkerM Addr Unit :=
  modify fun worker =>
    { worker with asked := worker.asked.filter fun row =>
        row.address ≠ address ∨ row.hash ∉ hashes }

/-- `InFlight::progressed`. -/
def progressed (address : Addr) : WorkerM Addr Unit := do
  let now ← instant
  modify fun worker =>
    { worker with asked := worker.asked.map fun row =>
        if row.address = address then { row with since := now } else row }

/-- `InFlight::expired`, which looks at the clock for every row. -/
def expiredRows : List (Asked Addr) → List ℕ → List Addr × List ℕ
  | [], instants => ([], instants)
  | row :: rows, instants =>
      let (late, left) := expiredRows rows instants.tail
      if blockPeerTimeout < instants.headD 0 - row.since then (row.address :: late, left)
      else (late, left)

/-- `InFlight::expired`. -/
def expired : WorkerM Addr (List Addr) :=
  ofOutcome fun worker =>
    let (late, left) := expiredRows worker.asked worker.instants
    (.ok late, { worker with instants := left })

/-! ## Asking ahead -/

variable (client : Client Addr)

/-- The loop of `wanted`, over the heights. -/
def wantedAt (headers : HeaderChain) (blocks : BlockCache) (asked : List (Asked Addr)) :
    List ℕ → List (ℕ × Bytes32)
  | [] => []
  | height :: heights =>
      match headers.hashAt client.pow height with
      | .error _ => []
      | .ok hash =>
          if (blocks.get hash).isSome || inFlight asked hash then
            wantedAt headers blocks asked heights
          else (height, hash) :: wantedAt headers blocks asked heights

/-- `wanted`. -/
def wanted (headers : HeaderChain) (blocks : BlockCache) (asked : List (Asked Addr))
    (start tip : ℕ) : List (ℕ × Bytes32) :=
  let last := min (start + prefetchBlocks - 1) tip
  wantedAt client headers blocks asked (List.range' start (last + 1 - start))

/-- `Batch`. -/
abbrev Batch := ℕ × List (ℕ × Bytes32)

/-- `queued`. -/
def queued (batches : List Batch) (index : ℕ) : ℕ :=
  ((batches.filter fun batch => batch.1 = index).map fun batch => batch.2.length).sum

/-- `enqueue`. -/
def enqueue : List Batch → ℕ → ℕ × Bytes32 → List Batch
  | [], index, row => [(index, [row])]
  | (asked, rows) :: batches, index, row =>
      if asked = index then (asked, rows ++ [row]) :: batches
      else (asked, rows) :: enqueue batches index row

/-- The peers `assign` may give a row to. The first row goes out also where all windows are full. -/
def holdersFor (connected : List (Peer Addr)) (avoid : List Addr) (tip : ℕ)
    (batches : List Batch) (turn height : ℕ) : List ℕ :=
  (orderForBlock client connected height tip).filter fun index =>
    match connected[index]? with
    | none => false
    | some peer => peer.address ∉ avoid &&
        (turn == 0 || peer.outstanding + queued batches index < pipelinePerPeer)

/-- The loop of `assign`. -/
def assignFrom (connected : List (Peer Addr)) (avoid : List Addr) (tip : ℕ) :
    ℕ → List (ℕ × Bytes32) → List Batch → List Batch
  | _, [], batches => batches
  | turn, row :: rows, batches =>
      let holders := holdersFor client connected avoid tip batches turn row.1
      if holders.isEmpty then batches
      else
        assignFrom connected avoid tip (turn + 1) rows
          (enqueue batches (holders.getD (turn % holders.length) 0) row)

/-- `assign`. -/
def assign (connected : List (Peer Addr)) (targets : List (ℕ × Bytes32)) (avoid : List Addr)
    (tip : ℕ) : List Batch :=
  assignFrom client connected avoid tip 0 targets []

/-- The rows of a batch, as they are in flight. -/
def rowsOf (address : Addr) (rows : List (ℕ × Bytes32)) (now : ℕ) : List (Asked Addr) :=
  rows.map fun row => ⟨address, row.1, row.2, now⟩

/-- One round of the loop of `fill`. A request that fails puts nothing in flight. -/
def askBatch (index : ℕ) (rows : List (ℕ × Bytes32)) : WorkerM Addr Unit := do
  let asking ← attempt (onPeer index (askBlocks client (rows.map Prod.snd)))
  match asking with
  | .error _ => pure ()
  | .ok () => do
      let now ← instant
      modify fun worker =>
        match worker.connected[index]? with
        | none => worker
        | some peer => { worker with asked := worker.asked ++ rowsOf peer.address rows now }

/-- The loop of `fill`. -/
def askBatches : List Batch → WorkerM Addr Unit
  | [] => pure ()
  | (index, rows) :: batches => do
      askBatch client index rows
      askBatches batches

/-- `fill`. -/
def fill (start : ℕ) (avoid : List Addr) : WorkerM Addr Unit := do
  let worker ← get
  let tip := worker.headers.tipHeight
  let targets := wanted client worker.headers worker.blocks worker.asked start tip
  askBatches client (assign client worker.connected targets avoid tip)

/-! ## Receiving -/

/-- `admit_block`, of a block that was decoded. -/
def admitDecoded (raw : Bytes) (hash : Bytes32) (height : ℕ) (block : Block) :
    WorkerM Addr Unit := do
  let worker ← get
  let header ← lift (ofHeaders (worker.headers.headerAt height))
  if block.header ≠ header then
    throw (.invalid "peer block header differs from the verified header")
  else modify fun worker => { worker with blocks := worker.blocks.insert hash height raw }

/-- `admit_block`. -/
def admitBlock (raw : Bytes) (hash : Bytes32) (height : ℕ) : WorkerM Addr Unit :=
  match Decode.esploraBlock client.blocks client.consensus raw client.chain hash with
  | .error cause => throw (.chainDecode cause)
  | .ok block => admitDecoded raw hash height block

/-- `absorb_arrivals`, of a block that was expected: whether its peer fails. A block that left the
selected chain is no fault of the peer. -/
def absorbExpected (address : Addr) (raw : Bytes) (hash : Bytes32) (height : ℕ) :
    WorkerM Addr Bool := do
  let worker ← get
  match worker.headers.hashAt client.pow height with
  | .error _ => do
      forget hash
      pure false
  | .ok selected =>
      if selected = hash then do
        let admitted ← attempt (admitBlock client raw hash height)
        match admitted with
        | .ok () => do
            forget hash
            progressed address
            pure false
        | .error _ => pure true
      else do
        forget hash
        pure false

/-- `absorb_arrivals`, of one block. -/
def absorbBlock (address : Addr) (raw : Bytes) : WorkerM Addr Bool :=
  match blockHash client raw with
  | .error _ => pure true
  | .ok hash => do
      let worker ← get
      match expected worker.asked address hash with
      | none => pure false
      | some height => absorbExpected client address raw hash height

/-- `absorb_arrivals`, of the blocks of one peer. -/
def absorbBlocks (address : Addr) : List Bytes → WorkerM Addr (List Addr)
  | [] => pure []
  | raw :: raws => do
      let fails ← absorbBlock client address raw
      let failed ← absorbBlocks address raws
      pure (if fails then address :: failed else failed)

/-- `absorb_arrivals`, of the peers. -/
def absorbPeers : List (Peer Addr) → WorkerM Addr (List Addr)
  | [] => pure []
  | peer :: peers => do
      forgetFrom peer.address peer.lacking
      let failed ← absorbBlocks client peer.address peer.arrived
      let more ← absorbPeers peers
      pure (failed ++ more)

/-- What `absorb_arrivals` takes from a peer is gone. -/
def Peer.emptied (peer : Peer Addr) : Peer Addr :=
  { peer with lacking := [], arrived := [] }

/-- `absorb_arrivals`. -/
def absorbArrivals : WorkerM Addr (List Addr) := do
  let worker ← get
  modify fun worker => { worker with connected := worker.connected.map Peer.emptied }
  absorbPeers client worker.connected

/-- The loop of `settle`: a peer that failed is dropped. -/
def dropFailed : List Addr → WorkerM Addr Unit
  | [] => pure ()
  | address :: failed => do
      forgetPeer address
      modify fun worker => { worker with connected := worker.connected.filter fun peer =>
        peer.address ≠ address }
      dropFailed failed

/-- `sort_unstable` and `dedup`. -/
def sortedAddresses (failed : List Addr) : List Addr :=
  (failed.mergeSort fun address other => address ≤ other).destutter (· ≠ ·)

/-- `settle`. -/
def settle : WorkerM Addr Unit := do
  modify fun worker => { worker with connected := pollIdle client worker.connected }
  let failed ← absorbArrivals client
  let late ← expired
  dropFailed (sortedAddresses (failed ++ late))

/-- `receive`, after the block was admitted. -/
def received (index : ℕ) (hash : Bytes32) : WorkerM Addr Unit := do
  forget hash
  let worker ← get
  match worker.connected[index]? with
  | none => settle client
  | some peer => do
      progressed peer.address
      settle client

/-- `receive`. -/
def receive (index height : ℕ) (hash : Bytes32) : WorkerM Addr Bytes := do
  let raw ← onPeer index (awaitBlock client hash)
  admitBlock client raw hash height
  received client index hash
  pure raw

end Urma.P2p
