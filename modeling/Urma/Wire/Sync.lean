import Urma.Wire.Batch

/-!
# Syncing the Wire index

`urma_wire::index::sync`: the stored index is rolled back to what it shares with the source, stored
again, extended by one batch, and stored once more when the source still has its last checkpoint.
The file holds what `serde_json` writes and reads back; of the text only the length matters.
-/

namespace Urma.Wire

open Chain

/-! ## The file -/

/-- What `load` and `persist` take from other crates. -/
structure FileCrates where
  /-- `serde_json::to_vec`. -/
  toVec : Index → Bytes
  /-- `hex::decode`. -/
  hexDecode : String → Except WireError Bytes
  /-- `str::parse` of a block hash. -/
  parseHash : String → Except WireError Bytes32
  /-- `str::parse` of a txid. -/
  parseTxid : String → Except WireError Txid
  /-- `str::parse` of an x-only public key. -/
  parseKey : String → Except WireError XOnlyPublicKey

/-- How replacing the file ends: the directory is synced after the rename. -/
inductive Write where
  | replaced
  | refused (cause : WireError)
  | unsynced (cause : WireError)

/-- The file operations of one sync. -/
structure Disk where
  /-- Opening and reading the file. -/
  read : Except WireError Unit
  afterRollback : Write
  afterBatch : Write

/-- `Index::MAX_BYTES`. -/
def maxIndexBytes : ℕ := 64 * 1024 * 1024

def maxCheckpoints : ℕ := 500000
def maxEntries : ℕ := 50000

/-- `cached::CachedRecord`. -/
inductive CachedRecord where
  | current (record : PublicRecord)
  | legacyAvatar
  | legacyProfile

/-- `cached::decode_cached`. -/
def decodeCached (bytes : Bytes) : Except WireError CachedRecord :=
  if bytes.length == Format.prefixBytes + 512 &&
      bytes.take Format.prefixBytes == RecordKind.avatar.prefixOf then .ok .legacyAvatar
  else if Format.prefixBytes + Format.maxProfileBytes < bytes.length &&
      bytes.length ≤ Format.maxPublicBytes &&
      bytes.take Format.prefixBytes == RecordKind.profile.prefixOf then do
    let _ ← protocol (Text.fromUtf8 (bytes.drop Format.prefixBytes))
    .ok .legacyProfile
  else do
    let record ← protocol (PublicRecord.decode bytes)
    .ok (.current record)

variable (crates : WireCrates) (files : FileCrates)

/-- The first loop of `Index::load`, from an offset on. -/
def checkBlocks (start : ℕ) : ℕ → List Checkpoint → Except WireError Unit
  | _, [] => .ok ()
  | offset, block :: blocks => do
      let height ← match checkedAdd start offset with
        | some height => .ok height
        | none => .error (.capacity "checkpoint overflow")
      ensureWire (block.height == height) (.invalid "noncontiguous index checkpoints")
      let _ ← files.parseHash block.hash
      checkBlocks start (offset + 1) blocks

/-- The second loop of `Index::load`. -/
def checkEntries : List Entry → Except WireError Unit
  | [] => .ok ()
  | entry :: entries => do
      let record ← files.hexDecode entry.record
      let _ ← decodeCached record
      let _ ← files.parseTxid entry.txid
      let _ ← files.parseKey entry.author
      match entry.returnScript with
      | some script => do
          let _ ← files.hexDecode script
          checkEntries entries
      | none => checkEntries entries

/-- `Index::load`, of a file that is there. -/
def Index.load (read : Except WireError Unit) (stored : Index) : Except WireError Index := do
  read
  ensureWire ((files.toVec stored).length ≤ maxIndexBytes) (.io "input exceeds its limit")
  ensureWire (stored.format == indexFormat)
    (.invalid "unsupported Wire index format; delete it and resync")
  ensureWire (stored.blocks.length ≤ maxCheckpoints) (.invalid "Wire checkpoint capacity")
  ensureWire (stored.entries.length ≤ maxEntries) (.invalid "Wire record capacity")
  checkBlocks files stored.start 0 stored.blocks
  checkEntries files stored.entries
  .ok stored

/-- `Index::persist`, with the file it leaves. -/
def Index.persist (write : Write) (file : Option Index) (index : Index) :
    Option Index × Except WireError Unit :=
  if index.blocks.length ≤ maxCheckpoints ∧ index.entries.length ≤ maxEntries then
    if (files.toVec index).length ≤ maxIndexBytes then
      match write with
      | .replaced => (some index, .ok ())
      | .refused cause => (file, .error cause)
      | .unsynced cause => (some index, .error cause)
    else (file, .error (.invalid "Wire index byte capacity"))
  else (file, .error (.invalid "Wire index capacity"))

/-! ## Before the batch -/

variable {E : Type} (reader : Reader E)

/-- `opened`. -/
def opened (read : Except WireError Unit) (file : Option Index) (start : ℕ) :
    Except (SyncError E) Index := do
  let genesis ← SyncError.ofSource reader.genesis
  let genesis := crates.displayHash genesis
  let index ← match file with
    | some stored => SyncError.ofWire (stored.load files read)
    | none => .ok { format := indexFormat, genesis, start, blocks := [], entries := [] }
  SyncError.ofWire (ensureWire (index.genesis == genesis && index.start == start)
    (.invalid "index chain/start mismatch"))
  .ok index

/-- The condition on which the loop of `rollback` ends: the source has the last checkpoint. -/
def stands (tip : ℕ) (last : Checkpoint) : Except (SyncError E) Bool :=
  if last.height ≤ tip then do
    let hash ← SyncError.ofSource (reader.blockHash last.height)
    .ok (crates.displayHash hash == last.hash)
  else .ok false

/-- The index without its last checkpoint. -/
def Index.pop (index : Index) (last : Checkpoint) : Index :=
  { index with
    blocks := index.blocks.dropLast
    entries := index.entries.filter fun entry => entry.height < last.height }

/-- The loop of `rollback`, for so many checkpoints, with the count of those it removed. -/
def rollbackBlocks (tip : ℕ) : ℕ → ℕ → Index → Except (SyncError E) (ℕ × Index)
  | 0, removed, index => .ok (removed, index)
  | count + 1, removed, index =>
      match index.blocks.getLast? with
      | none => .ok (removed, index)
      | some last => do
          let standing ← stands crates reader tip last
          if standing then .ok (removed, index)
          else rollbackBlocks tip count (removed + 1) (index.pop last)

/-- `rollback`. -/
def rollback (tip : ℕ) (index : Index) : Except (SyncError E) (ℕ × Index) :=
  rollbackBlocks crates reader tip index.blocks.length 0 index

/-- What `sync` does before it writes: the source's tip, the removed checkpoints, the index. -/
def prepare (read : Except WireError Unit) (file : Option Index) (start maxBlocks : ℕ) :
    Except (SyncError E) (ℕ × ℕ × Index) := do
  SyncError.ofWire (ensureWire (1 ≤ maxBlocks && maxBlocks ≤ 10000)
    (.invalid "max blocks must be 1..10000"))
  let index ← opened crates files reader read file start
  let tip ← SyncError.ofSource reader.tipHeight
  let (removed, index) ← rollback crates reader tip index
  .ok (tip, removed, index)

/-! ## The batch and after -/

/-- `config::FETCH_WORKERS`. -/
def fetchWorkers : ℕ := 8

/-- `stream_batch` as `sync` sees it: for an index and a range, the index it leaves and its
result. -/
abbrev StreamBatch (E : Type) := Index → List ℕ → Index × Except (SyncError E) Unit

/-- The outcome is that of a batch that ran to its end. -/
def StreamBatch.Runs (stream : StreamBatch E) : Prop :=
  ∀ index heights, ∃ state, Stream.Reachable crates reader heights fetchWorkers index state ∧
    state.Returned (stream index heights).2 ∧ state.index = (stream index heights).1

/-- `confirm_tail`. -/
def confirmTail (index : Index) : Except (SyncError E) Unit :=
  match index.blocks.getLast? with
  | none => .ok ()
  | some checkpoint => do
      let hash ← SyncError.ofSource (reader.confirmHash checkpoint.height)
      SyncError.ofWire (ensureWire (crates.displayHash hash == checkpoint.hash)
        (.invalid "source reorg during index; retry"))

/-- `SyncReport`. -/
structure SyncReport where
  scanned : ℕ
  rolledBack : ℕ
  records : ℕ
  tip : ℕ
  completeToTip : Bool

/-- A checked sum of heights. -/
def addHeight (a b : ℕ) : Except (SyncError E) ℕ :=
  match checkedAdd a b with
  | some sum => .ok sum
  | none => .error (.wire (.capacity "height overflow"))

/-- `complete_to_tip`. -/
def completeToTip (index : Index) (next scanned tip : ℕ) : Except (SyncError E) Bool :=
  if index.blocks.isEmpty then .ok false
  else do
    let reached ← addHeight next scanned
    let after ← addHeight tip 1
    .ok (reached == after)

/-- What `sync` does once the batch has returned. -/
def conclude (write : Write) (file : Option Index) (tip removed next : ℕ) (base index : Index)
    (streamed : Except (SyncError E) Unit) :
    Option Index × Except (SyncError E) (SyncReport × Index) :=
  let scanned := index.blocks.length - (next - base.start)
  let (file, stored) : Option Index × Except (SyncError E) Unit :=
    if 0 < scanned then
      match confirmTail crates reader index with
      | .error cause => (file, .error cause)
      | .ok () =>
          let (file, written) := index.persist files write file
          (file, SyncError.ofWire written)
    else (file, .ok ())
  (file, do
    stored
    streamed
    let completeToTip ← completeToTip index next scanned tip
    .ok (⟨scanned, removed, index.entries.length, tip, completeToTip⟩, index))

/-- `sync`, with the file it leaves. -/
def sync (disk : Disk) (stream : StreamBatch E) (file : Option Index) (start maxBlocks : ℕ) :
    Option Index × Except (SyncError E) (SyncReport × Index) :=
  match prepare crates files reader disk.read file start maxBlocks with
  | .error cause => (file, .error cause)
  | .ok (tip, removed, index) =>
      let (file, stored) :=
        if 0 < removed ∨ file = none then index.persist files disk.afterRollback file
        else (file, .ok ())
      match (SyncError.ofWire stored : Except (SyncError E) Unit),
        (addHeight index.start index.blocks.length : Except (SyncError E) ℕ) with
      | .error cause, _ => (file, .error cause)
      | .ok (), .error cause => (file, .error cause)
      | .ok (), .ok next =>
          let (batch, streamed) :=
            stream index (List.range' next (min maxBlocks (tip + 1 - next)))
          conclude crates files reader disk.afterBatch file tip removed next index batch streamed

end Urma.Wire
