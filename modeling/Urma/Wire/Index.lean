import Urma.Core.Proof
import Urma.Core.PublicRecord
import Urma.Web.Store

/-!
# The Wire index

`urma_wire::index`: the public records of a chain from a start height on, with a checkpoint for
each block they were read from. A block is applied to the index after its hash and its link to the
last checkpoint were compared. What the source answers is a parameter.
-/

namespace Urma.Wire

open Chain

/-! ## Errors -/

/-- `urma_wire::Error`, the variants the index produces. -/
inductive WireError where
  | invalid (message : String)
  | capacity (message : String)
  | protocol (cause : Error)
  | io (cause : String)
  | json (cause : String)
  | hex (cause : String)
  | hash (cause : String)
  deriving DecidableEq

/-- `SyncError`. -/
inductive SyncError (E : Type) where
  | wire (cause : WireError)
  | source (cause : E)
  deriving DecidableEq

/-- `ensure!` of the crate. -/
def ensureWire (condition : Bool) (cause : WireError) : Except WireError Unit :=
  if condition then .ok () else .error cause

@[simp] theorem ensureWire_eq_ok {condition : Bool} {cause : WireError} {u : Unit} :
    ensureWire condition cause = .ok u ↔ condition = true := by
  cases condition <;> simp [ensureWire]

/-- `From<urma_core::error::Error>`. -/
def protocol {α : Type} (result : Except Error α) : Except WireError α :=
  result.mapError .protocol

@[simp] theorem protocol_eq_ok {α : Type} {result : Except Error α} {value : α} :
    protocol result = .ok value ↔ result = .ok value := by
  cases result <;> simp [protocol, Except.mapError]

/-- `From<Error>` for `SyncError`. -/
def SyncError.ofWire {E α : Type} (result : Except WireError α) : Except (SyncError E) α :=
  result.mapError .wire

@[simp] theorem SyncError.ofWire_eq_ok {E α : Type} {result : Except WireError α} {value : α} :
    (SyncError.ofWire result : Except (SyncError E) α) = .ok value ↔ result = .ok value := by
  cases result <;> simp [SyncError.ofWire, Except.mapError]

/-- `map_err(SyncError::Source)`. -/
def SyncError.ofSource {E α : Type} (result : Except E α) : Except (SyncError E) α :=
  result.mapError .source

@[simp] theorem SyncError.ofSource_eq_ok {E α : Type} {result : Except E α} {value : α} :
    SyncError.ofSource result = .ok value ↔ result = .ok value := by
  cases result <;> simp [SyncError.ofSource, Except.mapError]

/-! ## The source -/

/-- `reader::Reader`: what the source answers to the calls of one sync. A transaction is asked for
once for a candidate, by its height and its place in the block, and a checkpoint's hash once while
the index is rolled back and once after the batch. -/
structure Reader (E : Type) where
  genesis : Except E Bytes32
  tipHeight : Except E ℕ
  blockHash : ℕ → Except E Bytes32
  block : ℕ → Except E (Block × Bytes32)
  transaction : ℕ → ℕ → Txid → Except E Transaction
  confirmHash : ℕ → Except E Bytes32

/-- What the index takes from other crates. -/
structure WireCrates where
  sha256 : Bytes → Bytes32
  reveal : RevealCrate
  /-- `Display` of a block hash. -/
  displayHash : Bytes32 → String
  /-- `Display` of a txid. -/
  displayTxid : Txid → String
  /-- `Display` of an x-only public key. -/
  displayKey : XOnlyPublicKey → String

/-! ## Entries -/

/-- `Entry`. -/
structure Entry where
  height : ℕ
  position : ℕ
  txid : String
  author : String
  record : String
  returnScript : Option String
  deriving DecidableEq

/-- `is_wire_kind`. -/
def isWireKind : RecordKind → Bool
  | .post | .reply | .profile | .avatar | .wirePost | .wireReply => true
  | _ => false

variable (crates : WireCrates)

/-- `entry_from_record`. -/
def entryFromRecord (record : Bytes) (txid : Txid) (author : XOnlyPublicKey)
    (returnScript : Option Bytes) (height position : ℕ) : Except WireError (Option Entry) := do
  let kind ← protocol (RecordKind.parse record)
  if !isWireKind kind then .ok none
  else do
    let _ ← protocol (PublicRecord.decode record)
    .ok (some {
      height, position
      txid := crates.displayTxid txid
      author := crates.displayKey author
      record := Web.hexEncode record
      returnScript := returnScript.map Web.hexEncode })

/-- `verified_entry`. -/
def verifiedEntry (tx commit : Transaction) (height position : ℕ) :
    Except WireError (Option Entry) := do
  let record ← protocol (VerifiedRecord.verify crates.sha256 crates.reveal
    (crates.reveal.consensus.computeTxid tx) tx commit)
  entryFromRecord crates record.record record.txid record.author
    (tx.output.head?.map TxOut.scriptPubkey) height position

/-- `item.windows(4).any(|bytes| bytes == b"URMA")`. -/
def mentionsUrma (item : Bytes) : Bool :=
  item.tails.any fun rest => rest.take 4 == Format.magic

/-- The condition on which `read_entries` looks at a transaction. -/
def isRead (tx : Transaction) : Bool :=
  match tx.input with
  | [input] => input.witness.any mentionsUrma
  | _ => false

variable {E : Type} (reader : Reader E)

/-- What `read_entries` does with one transaction. -/
def readTransaction (height position : ℕ) (tx : Transaction) :
    Except (SyncError E) (List Entry) :=
  if isRead tx then
    match Envelope.extractReveal crates.reveal tx, tx.input with
    | .ok candidate, input :: _ => do
        let kind ← SyncError.ofWire (protocol (RecordKind.parse candidate.record))
        if !isWireKind kind then .ok []
        else do
          let commit ← SyncError.ofSource (reader.transaction height position
            input.previousOutput.txid)
          let position ← SyncError.ofWire (protocol (tryU32 position))
          match verifiedEntry crates tx commit height position with
          | .ok (some entry) => .ok [entry]
          | .ok none => .ok []
          | .error _ => .ok []
    | _, _ => .ok []
  else .ok []

/-- The loop of `read_entries`, from a position on. -/
def readEntries (height : ℕ) : ℕ → List Transaction → Except (SyncError E) (List Entry)
  | _, [] => .ok []
  | position, tx :: txs => do
      let entries ← readTransaction crates reader height position tx
      let more ← readEntries height (position + 1) txs
      .ok (entries ++ more)

/-! ## The index -/

/-- `Checkpoint`. -/
structure Checkpoint where
  height : ℕ
  hash : String
  deriving DecidableEq

/-- `Index`. -/
structure Index where
  format : String
  genesis : String
  start : ℕ
  blocks : List Checkpoint
  entries : List Entry
  deriving DecidableEq

/-- `Index::FORMAT`. -/
def indexFormat : String := "URMA-WIRE-INDEX-3"

/-- The checkpoint and the entries of an applied block. -/
def Index.extend (index : Index) (height : ℕ) (hash : String) (entries : List Entry) : Index :=
  { index with
    blocks := index.blocks ++ [⟨height, hash⟩]
    entries := index.entries ++ entries }

/-- `apply_block`. -/
def applyBlock (index : Index) (height : ℕ) (pair : Block × Bytes32) :
    Except (SyncError E) Index := do
  SyncError.ofWire (ensureWire (crates.reveal.consensus.blockHash pair.1.header == pair.2)
    (.invalid "reader returned a block whose hash differs from its verified hash"))
  SyncError.ofWire (ensureWire
    (index.blocks.getLast?.all fun previous =>
      crates.displayHash pair.1.header.prevBlockhash == previous.hash)
    (.invalid "source reorg during index; retry"))
  let entries ← readEntries crates reader height 0 pair.1.txdata
  .ok (index.extend height (crates.displayHash pair.2) entries)

variable {crates reader}

/-- **What applying a block does**: it has the hash it was returned with, it links to the last
checkpoint, and its entries are added to those of the index. -/
theorem applyBlock_eq_ok {index index' : Index} {height : ℕ} {pair : Block × Bytes32} :
    applyBlock crates reader index height pair = .ok index' ↔
      crates.reveal.consensus.blockHash pair.1.header = pair.2 ∧
        (∀ previous, index.blocks.getLast? = some previous →
          crates.displayHash pair.1.header.prevBlockhash = previous.hash) ∧
          ∃ entries, readEntries crates reader height 0 pair.1.txdata = .ok entries ∧
            index' = index.extend height (crates.displayHash pair.2) entries := by
  simp only [applyBlock, Except.bind_eq_ok, SyncError.ofWire_eq_ok, ensureWire_eq_ok, beq_iff_eq,
    Except.ok.injEq, Option.all_eq_true, eq_comm (b := index')]
  constructor
  · rintro ⟨_, hhash, _, hlink, entries, hentries, hindex⟩
    exact ⟨hhash, hlink, entries, hentries, hindex⟩
  · rintro ⟨hhash, hlink, entries, hentries, hindex⟩
    exact ⟨(), hhash, (), hlink, entries, hentries, hindex⟩

end Urma.Wire
