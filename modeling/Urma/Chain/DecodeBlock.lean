import Urma.Chain.Inclusion

/-!
# Decoding a block

`urma_chain::decode::esplora_block`: a block of the chain's encoding, read to its last byte and
checked for integrity under the hash it was asked for. A Litecoin block is read piece by piece, each
in its canonical encoding; what follows the transactions is allowed only after a HogEx at the end.
-/

namespace Urma.Chain

/-- `DecodeError`, as far as a block decoder produces it. -/
inductive BlockDecodeError where
  /-- The errors that decoding a transaction has too. -/
  | data (cause : DecodeError)
  | integrity (cause : BlockValidationError)
  | invalidHogEx
  deriving DecidableEq, Repr

/-- `Decodable` and `Encodable` of a type: a value and the bytes after it, and its bytes. -/
structure Codec (α : Type) where
  decode : Bytes → Option (α × Bytes)
  serialize : α → Bytes

/-- What the block decoders take from the `bitcoin` and `litecoin` crates. -/
structure BlockCrates extends DecodeCrates where
  /-- `bitcoin::consensus::deserialize` of a block. -/
  deserializeBlock : Bytes → Option Block
  /-- `bitcoin::consensus::deserialize` of a header. -/
  deserializeHeader : Bytes → Option Header
  /-- How many bytes `deserialize_partial` of a `VarInt` consumes. -/
  varIntBytes : Bytes → Option ℕ
  /-- How many bytes `deserialize_partial` of a transaction consumes. -/
  transactionBytes : Bytes → Option ℕ
  /-- `litecoin::block::Header`. -/
  LitecoinHeader : Type
  litecoinHeader : Codec LitecoinHeader
  litecoinTransactions : Codec (List LitecoinTransaction)
  litecoinVarInt : Codec ℕ
  litecoinByte : Codec UInt8
  /-- `litecoin::block::MwebBlock`. -/
  MwebBlock : Type
  mwebBlock : Codec MwebBlock
  isHogEx : LitecoinTransaction → Bool

/-- `DecodedBlock`. -/
structure DecodedBlock where
  block : Block
  rawTransactions : List Bytes

/-- `Encoding`. -/
inductive Encoding where
  | core
  | esplora
  deriving DecidableEq

namespace Decode

/-- The errors a block decoder shares. -/
def shared {α : Type} : Except DecodeError α → Except BlockDecodeError α
  | .ok a => .ok a
  | .error cause => .error (.data cause)

/-- What the `bitcoin` crate decodes: `map_err(DecodeError::Bitcoin)`. -/
def bitcoinData {α : Type} : Option α → Except BlockDecodeError α
  | some a => .ok a
  | none => .error (.data .bitcoin)

/-- `canonical`, of any type. -/
def canonicalOf {α : Type} (codec : Codec α) (remaining : Bytes) :
    Except BlockDecodeError (α × Bytes) :=
  match codec.decode remaining with
  | none => .error (.data .litecoin)
  | some (value, rest) =>
      if codec.serialize value ≠ remaining.take (remaining.length - rest.length) then
        .error (.data .nonCanonical)
      else .ok (value, rest)

variable (crates : BlockCrates)

/-- The second pass of `bitcoin_decoded_block`: the bytes of each transaction. -/
def splitTransactions : List Transaction → Bytes → Except BlockDecodeError (List Bytes)
  | [], _ => .ok []
  | _ :: txs, remaining => do
      let consumed ← bitcoinData (crates.transactionBytes remaining)
      let rest ← splitTransactions txs (remaining.drop consumed)
      .ok (remaining.take consumed :: rest)

/-- `bitcoin_decoded_block`. -/
def bitcoinDecodedBlock (raw : Bytes) : Except BlockDecodeError DecodedBlock := do
  let block ← bitcoinData (crates.deserializeBlock raw)
  let remaining := raw.drop 80
  let prefixBytes ← bitcoinData (crates.varIntBytes remaining)
  let rawTransactions ← splitTransactions crates block.txdata (remaining.drop prefixBytes)
  .ok { block, rawTransactions }

/-- What `litecoin_block` does at a HogEx, with what is left after the extension block. -/
def afterHogEx (encoding : Encoding) (count index : ℕ) (remaining : Bytes) :
    Except BlockDecodeError Bytes :=
  if index = 0 ∨ index + 1 ≠ count then .error .invalidHogEx
  else if !remaining.isEmpty ∨ encoding = .core then do
    let (flag, remaining) ← canonicalOf crates.litecoinByte remaining
    if flag = 0 then .ok remaining
    else if flag = 1 then do
      let (_, remaining) ← canonicalOf crates.mwebBlock remaining
      .ok remaining
    else .error (.data .nonCanonical)
  else .ok remaining

/-- The loop of `litecoin_block`: the transactions, their bytes, and what is left. -/
def litecoinLoop (encoding : Encoding) (count : ℕ) : ℕ → List crates.LitecoinTransaction →
    Bytes → Bytes → Except BlockDecodeError (List Transaction × List Bytes × Bytes)
  | _, [], _, remaining => .ok ([], [], remaining)
  | index, tx :: rest, transactionBytes, remaining => do
      let length := (crates.litecoinSerialize tx).length
      let remaining ← if crates.isHogEx tx then afterHogEx crates encoding count index remaining
        else .ok remaining
      let decoded ← shared (transparent crates.toDecodeCrates tx)
      let (txdata, raws, remaining) ←
        litecoinLoop encoding count (index + 1) rest (transactionBytes.drop length) remaining
      .ok (decoded :: txdata, transactionBytes.take length :: raws, remaining)

/-- `litecoin_block`, with what serializes the header of the `litecoin` crate. -/
def litecoinBlock (raw : Bytes) (encoding : Encoding) : Except BlockDecodeError DecodedBlock := do
  let (header, transactionsStart) ← canonicalOf crates.litecoinHeader raw
  let (transactions, remaining) ← canonicalOf crates.litecoinTransactions transactionsStart
  let (_, transactionBytes) ← canonicalOf crates.litecoinVarInt
    (transactionsStart.take (transactionsStart.length - remaining.length))
  let (txdata, rawTransactions, remaining) ←
    litecoinLoop crates encoding transactions.length 0 transactions transactionBytes remaining
  shared (finished remaining)
  let header ← bitcoinData (crates.deserializeHeader (crates.litecoinHeader.serialize header))
  .ok { block := { header, txdata }, rawTransactions }

/-- The decoder `decode_block` picks for the chain. -/
def projection (raw : Bytes) (chain : Chain) (encoding : Encoding) :
    Except BlockDecodeError DecodedBlock :=
  match chain with
  | .bitcoinMainnet | .bitcoinRegtest | .bitcoinTestnet4 => bitcoinDecodedBlock crates raw
  | .litecoinMainnet | .litecoinTestnet => litecoinBlock crates raw encoding

/-- `decode_block`. -/
def decodeBlock (crate : ConsensusCrate) (raw : Bytes) (chain : Chain) (expectedHash : Bytes32)
    (encoding : Encoding) : Except BlockDecodeError DecodedBlock := do
  shared (bounded raw)
  let decoded ← projection crates raw chain encoding
  match validateBlockIntegrity crate decoded.block expectedHash with
  | .error cause => .error (.integrity cause)
  | .ok () => .ok decoded

/-- `esplora_block`. -/
def esploraBlock (crate : ConsensusCrate) (raw : Bytes) (chain : Chain) (expectedHash : Bytes32) :
    Except BlockDecodeError Block := do
  let decoded ← decodeBlock crates crate raw chain expectedHash .esplora
  .ok decoded.block

variable {crates} {crate : ConsensusCrate} {raw : Bytes} {chain : Chain} {expectedHash : Bytes32}
  {block : Block}

/-- **What is decoded is intact**: the integrity check comes last, for every chain. -/
theorem integrity_of_esploraBlock
    (h : esploraBlock crates crate raw chain expectedHash = .ok block) :
    validateBlockIntegrity crate block expectedHash = .ok () := by
  rw [esploraBlock, decodeBlock] at h
  simp only [Except.bind_eq_ok, Except.ok.injEq] at h
  obtain ⟨decoded, ⟨_, _, checked, _, hchecked⟩, rfl⟩ := h
  split at hchecked
  · cases hchecked
  · next u hvalid =>
      cases hchecked
      exact hvalid

end Decode

end Urma.Chain
