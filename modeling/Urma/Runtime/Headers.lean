import Mathlib.Data.List.Sort
import Urma.Chain.Pow
import Urma.Lib.OffsetIndex

/-!
# The header chain of the light client

`urma_runtime::p2p::headers` and `bootstrap`: headers from a trusted anchor on, with an index from
hash to offset. A batch of a peer extends the chain or, with more work, replaces its end; a failed
append takes back what it has added. The cache file is left out.
-/

namespace Urma.Runtime

open Chain Lib

/-! ## Constants and errors -/

/-- `P2P_HEADER_CACHE_MAX`. -/
def headerCacheMax : ℕ := 1000000

/-- `P2P_MAX_FUTURE_SECS`. -/
def maxFutureSecs : ℕ := 7200

/-- `P2P_MEDIAN_TIME_SPAN`. -/
def medianTimeSpan : ℕ := 11

/-- `urma_runtime::error::Error`, as far as the header chain produces it. -/
inductive HeaderError where
  | invalid (message : String)
  | missing (message : String)
  | headerContext (cause : PowError)
  deriving DecidableEq, Repr

/-- `ensure!` of the runtime. -/
def ensureHeader (condition : Bool) (message : String) : Except HeaderError Unit :=
  if condition then .ok () else .error (.invalid message)

@[simp] theorem ensureHeader_eq_ok {condition : Bool} {message : String} {u : Unit} :
    ensureHeader condition message = .ok u ↔ condition = true := by
  cases condition <;> simp [ensureHeader]

/-- `Context::context` of the runtime. -/
def contextHeader {α : Type} (value : Option α) (message : String) : Except HeaderError α :=
  match value with
  | some value => .ok value
  | none => .error (.missing message)

@[simp] theorem contextHeader_eq_ok {α : Type} {value : Option α} {message : String} {a : α} :
    contextHeader value message = .ok a ↔ value = some a := by
  cases value <;> simp [contextHeader]

/-- `{:08x}`. -/
def hex8 (value : UInt32) : String :=
  let digits := Nat.toDigits 16 value.toNat
  String.ofList (List.replicate (8 - digits.length) '0' ++ digits)

/-! ## State -/

/-- `HeaderChain`; the index is a map from hash to offset. -/
structure HeaderChain where
  chain : Chain
  startHeight : ℕ
  trustedNext : Option Bytes32
  ancestors : Option (List Header)
  headers : List Header
  index : OffsetIndex.Index Bytes32

/-- `Extension`. -/
inductive Extension where
  | appended (count : ℕ)
  | reorganized (forkHeight appended : ℕ)
  | ignored
  deriving DecidableEq, Repr

/-! ## Context -/

/-- `context_headers`. -/
def contextHeaders (chain : Chain) : ℕ :=
  max (max chain.params.retargetLookback (chain.params.retargetInterval - 1)) (medianTimeSpan - 1)

/-- `median_time`, of a window that is not empty. -/
def medianTime (window : List Header) : ℕ :=
  let start := max window.length medianTimeSpan - medianTimeSpan
  let times := ((window.drop start).map fun header => header.time.toNat).insertionSort (· ≤ ·)
  times.getD (times.length / 2) 0

/-- The headers before the next one, as far as they are kept, with the height of the first. -/
def HeaderChain.precedingContext (chain : HeaderChain) (window : List Header) :
    Except HeaderError (ℕ × List Header) :=
  match chain.ancestors with
  | none => .ok (chain.startHeight, window)
  | some ancestors => do
      let bound := contextHeaders chain.chain + 1
      let nextHeight ← contextHeader (checkedAdd chain.startHeight window.length)
        "header context height overflow"
      let tail :=
        if bound ≤ window.length then window.drop (window.length - bound)
        else
          let count := min (bound - window.length) ancestors.length
          ancestors.drop (ancestors.length - count) ++ window
      let firstHeight ← contextHeader (checkedSub nextHeight tail.length)
        "header context precedes genesis"
      .ok (firstHeight, tail)

variable (crate : PowCrate)

/-! ## Validation -/

/-- The errors of `expected_bits` that say the context is too short are errors of their own. -/
def difficultyError : PowError → HeaderError
  | .shortWindow needed got => .headerContext (.shortWindow needed got)
  | .missingDifficultyContext height => .headerContext (.missingDifficultyContext height)
  | cause => .invalid cause.text

/-- The difficulty check of `validate_context`. -/
def HeaderChain.checkBits (chain : HeaderChain) (window : List Header) (firstHeight : ℕ)
    (context : List Header) (header : Header) : Except HeaderError Unit :=
  if window.length = 1 ∧ chain.trustedNext.isSome then
    ensureHeader (some (crate.blockHash header) == chain.trustedNext)
      "peer header after the checkpoint is not the checkpointed block"
  else
    match expectedBits crate chain.chain context firstHeight header.time with
    | .error cause => .error (difficultyError cause)
    | .ok required =>
        let bits := hex8 header.bits
        let wanted := hex8 required
        ensureHeader (header.bits == required)
          s!"peer header bits {bits} differ from the required {wanted}"

/-- What `validate_context` does once it has the preceding context. -/
def HeaderChain.validateAgainst (chain : HeaderChain) (window : List Header) (header : Header)
    (preceding : Except HeaderError (ℕ × List Header)) : Except HeaderError Unit := do
  let last ← contextHeader window.getLast? "header window is empty"
  ensureHeader (header.prevBlockhash == crate.blockHash last)
    "peer header does not extend its predecessor"
  let (firstHeight, context) ← preceding
  chain.checkBits crate window firstHeight context header
  ensureHeader (medianTime context < header.time.toNat)
    "peer header time is not after the median of the previous blocks"

/-- `validate_context`. -/
def HeaderChain.validateContext (chain : HeaderChain) (window : List Header) (header : Header) :
    Except HeaderError Unit :=
  chain.validateAgainst crate window header (chain.precedingContext window)

/-- `validate_next`. -/
def HeaderChain.validateNext (chain : HeaderChain) (window : List Header) (header : Header)
    (now : ℕ) : Except HeaderError Unit := do
  chain.validateContext crate window header
  let horizon ← contextHeader (if now + maxFutureSecs ≤ u32Max then some (now + maxFutureSecs)
    else none) "clock horizon overflow"
  ensureHeader (header.time.toNat ≤ horizon) "peer header time is too far in the future"

/-- `prove_batch`, from the offset of its first header: the first header that fails is reported,
whichever worker it falls to. -/
def proveFrom (chain : Chain) : ℕ → List Header → Except HeaderError Unit
  | _, [] => .ok ()
  | offset, header :: rest =>
      match checkHeaderPow crate header chain with
      | .error cause =>
          let text := cause.text
          .error (.invalid s!"header at batch offset {offset} fails proof of work: {text}")
      | .ok () => proveFrom chain (offset + 1) rest

/-- `prove_batch`. -/
def proveBatch (chain : Chain) (headers : List Header) : Except HeaderError Unit :=
  proveFrom crate chain 0 headers

/-! ## Extending -/

/-- One header pushed by `append`. -/
def HeaderChain.push (chain : HeaderChain) (header : Header) : HeaderChain :=
  { chain with
    index := OffsetIndex.insert chain.index (crate.blockHash header) chain.headers.length
    headers := chain.headers ++ [header] }

/-- `append`, with the length the chain had before. -/
def HeaderChain.appendFrom (original now : ℕ) : HeaderChain → List Header →
    HeaderChain × Except HeaderError Unit
  | chain, [] => (chain, .ok ())
  | chain, header :: fresh =>
      match chain.validateNext crate chain.headers header now with
      | .ok () => appendFrom original now (chain.push crate header) fresh
      | .error error =>
          ({ chain with
             index := OffsetIndex.removeAll crate.blockHash chain.index
               (chain.headers.drop original)
             headers := chain.headers.take original }, .error error)

/-- The loop of `extend` that validates a branch on top of a part of the chain. -/
def HeaderChain.branch (chain : HeaderChain) (now : ℕ) : List Header → List Header →
    Except HeaderError (List Header)
  | candidate, [] => .ok candidate
  | candidate, header :: fresh => do
      chain.validateNext crate candidate header now
      branch chain now (candidate ++ [header]) fresh

/-- `chain_work(..).map_err(|cause| Error::Invalid(cause.to_string()))`. -/
def workOf (headers : List Header) : Except HeaderError ℕ :=
  match chainWork crate headers with
  | .ok work => .ok work
  | .error cause => .error (.invalid cause.text)

/-- The rest of `extend` for a branch below the tip. -/
def HeaderChain.reorganize (chain : HeaderChain) (base : ℕ) (fresh : List Header) (now : ℕ) :
    Except HeaderError (Option HeaderChain) := do
  let candidate ← chain.branch crate now (chain.headers.take (base + 1)) fresh
  let challenger ← workOf crate (candidate.drop (base + 1))
  let incumbent ← workOf crate (chain.headers.drop (base + 1))
  if challenger ≤ incumbent then .ok none
  else
    .ok (some { chain with
      index := OffsetIndex.insertAll crate.blockHash
        (OffsetIndex.removeAll crate.blockHash chain.index (chain.headers.drop (base + 1)))
        (candidate.zipIdx.drop (base + 1))
      headers := candidate })

/-- The number of leading headers of a batch that are held already. -/
def knownCount (batch held : List Header) : ℕ :=
  ((batch.zip held).takeWhile fun pair =>
    crate.blockHash pair.1 == crate.blockHash pair.2).length

/-- `HeaderChain::extend`. -/
def HeaderChain.extend (chain : HeaderChain) (batch : List Header) (now : ℕ) :
    HeaderChain × Except HeaderError Extension :=
  match batch.head? with
  | none => (chain, .ok .ignored)
  | some first =>
      match chain.index first.prevBlockhash with
      | none =>
          (chain, .error (.missing "peer headers do not connect to the verified header chain"))
      | some fork =>
          let known := knownCount crate batch (chain.headers.drop (fork + 1))
          let fresh := batch.drop known
          if fresh.isEmpty then (chain, .ok .ignored)
          else if headerCacheMax < chain.headers.length + fresh.length then
            (chain, .error (.invalid "header chain would exceed the client capacity"))
          else
            match proveBatch crate chain.chain fresh with
            | .error error => (chain, .error error)
            | .ok () =>
                if fork + known + 1 = chain.headers.length then
                  match chain.appendFrom crate chain.headers.length now fresh with
                  | (chain, .ok ()) => (chain, .ok (.appended fresh.length))
                  | (chain, .error error) => (chain, .error error)
                else
                  match chain.reorganize crate (fork + known) fresh now with
                  | .error error => (chain, .error error)
                  | .ok none => (chain, .ok .ignored)
                  | .ok (some reorganized) =>
                      (reorganized,
                        .ok (.reorganized (chain.startHeight + (fork + known)) fresh.length))

/-- `HeaderChain::height_of`. -/
def HeaderChain.heightOf (chain : HeaderChain) (hash : Bytes32) : Option ℕ :=
  (chain.index hash).map fun offset => chain.startHeight + offset

/-- `HeaderChain::tip_height`. -/
def HeaderChain.tipHeight (chain : HeaderChain) : ℕ :=
  chain.startHeight + (chain.headers.length - 1)

/-- `HeaderChain::header_at`. -/
def HeaderChain.headerAt (chain : HeaderChain) (height : ℕ) : Except HeaderError Header := do
  let offset ← contextHeader (checkedSub height chain.startHeight)
    s!"height {height} precedes the light client checkpoint"
  contextHeader chain.headers[offset]? s!"height {height} is above the verified header tip"

/-- `HeaderChain::hash_at`. -/
def HeaderChain.hashAt (chain : HeaderChain) (height : ℕ) : Except HeaderError Bytes32 := do
  let header ← chain.headerAt height
  .ok (crate.blockHash header)

/-! ## Opening -/

/-- The chain of an anchor alone, with the index of it. -/
def HeaderChain.ofAnchor (chain : Chain) (startHeight : ℕ) (anchor : Header)
    (trustedNext : Option Bytes32) (ancestors : Option (List Header)) : HeaderChain where
  chain := chain
  startHeight := startHeight
  trustedNext := trustedNext
  ancestors := ancestors
  headers := [anchor]
  index := OffsetIndex.insert (fun _ => none) (crate.blockHash anchor) 0

/-- `HeaderChain::anchored`, without a cache. -/
def HeaderChain.anchored (chain : Chain) (startHeight : ℕ) (anchor : Header)
    (trustedNext : Bytes32) : Except HeaderError HeaderChain :=
  match checkHeaderPow crate anchor chain with
  | .error cause => .error (.invalid cause.text)
  | .ok () => .ok (ofAnchor crate chain startHeight anchor (some trustedNext) none)

/-- `HeaderBootstrap`. -/
structure HeaderBootstrap where
  chain : Chain
  height : ℕ
  header : Header
  ancestors : List Header

/-- Every header is linked to the one before it. -/
def linked : List Header → Bool
  | previous :: next :: rest =>
      next.prevBlockhash == crate.blockHash previous && linked (next :: rest)
  | _ => true

/-- `HeaderBootstrap::new`, with the hash of `chain.genesis()`. -/
def HeaderBootstrap.new (genesis : Chain → Bytes32) (chain : Chain) (height : ℕ)
    (header : Header) (ancestors : List Header) : Except HeaderError HeaderBootstrap := do
  let expected := min height (contextHeaders chain)
  ensureHeader (ancestors.length == expected) s!"bootstrap needs exactly {expected} ancestors"
  ensureHeader (height != ancestors.length ||
      crate.blockHash (ancestors.headD header) == genesis chain)
    "bootstrap prefix does not start at the configured chain genesis"
  ensureHeader (linked crate (ancestors ++ [header]))
    "bootstrap ancestors do not connect to the trusted anchor"
  proveBatch crate chain ancestors
  proveBatch crate chain [header]
  .ok { chain, height, header, ancestors }

/-- `HeaderChain::open_bootstrap`, without a cache. -/
def HeaderChain.openBootstrap (bootstrap : HeaderBootstrap) : HeaderChain :=
  ofAnchor crate bootstrap.chain bootstrap.height bootstrap.header none (some bootstrap.ancestors)

end Urma.Runtime
