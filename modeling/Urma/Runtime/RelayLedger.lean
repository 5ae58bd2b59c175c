import Urma.Runtime.RelayChecks

/-!
# An honest provider

An honest provider answers from a ledger: the blocks of its chain, and the transactions that wait for
one. It takes a transaction that it does not know if every input is an output that it knows and that
no transaction has spent. A ledger is consistent with a journal when what it knows under the ids of
the journal's transactions are these transactions, parents come with their children, and the media
outputs are spent by the reveals only.
-/

namespace Urma.Runtime.Relay

open Chain Lib Lib.Stateful
open Journal (Plan)

/-- The chain of a provider, from the genesis block on, and its mempool. -/
structure Ledger where
  blocks : List (Bytes32 × List Transaction)
  mempool : List Transaction
  deriving DecidableEq

namespace Ledger

/-- The transactions in blocks. -/
def mined (ledger : Ledger) : List Transaction :=
  ledger.blocks.flatMap Prod.snd

/-- All transactions. -/
def known (ledger : Ledger) : List Transaction :=
  ledger.mined ++ ledger.mempool

/-- A transaction is added to the mempool. -/
def admitted (ledger : Ledger) (tx : Transaction) : Ledger :=
  { ledger with mempool := ledger.mempool ++ [tx] }

/-- Some transaction spends an output. -/
def isSpent (ledger : Ledger) (txid : Txid) (vout : ℕ) : Bool :=
  ledger.known.any fun tx => tx.input.any fun input =>
    input.previousOutput.txid = txid && input.previousOutput.vout.toNat = vout

variable (crates : Crates)

/-- The transaction of an id. -/
def find (ledger : Ledger) (txid : Txid) : Option Transaction :=
  ledger.known.find? fun tx => crates.reveal.consensus.computeTxid tx = txid

/-- The height and the hash of the block with a transaction. -/
def place (ledger : Ledger) (txid : Txid) : Option (ℕ × Bytes32) :=
  (ledger.blocks.zipIdx.find? fun block =>
    block.1.2.any fun tx => crates.reveal.consensus.computeTxid tx = txid).map fun block =>
      (block.2, block.1.1)

/-- A transaction is taken: it is new, and every input is an output that is known and not spent. -/
def takes (ledger : Ledger) (tx : Transaction) : Bool :=
  (ledger.find crates (crates.reveal.consensus.computeTxid tx)).isNone &&
    tx.input.all fun input =>
      ((ledger.find crates input.previousOutput.txid).any fun parent =>
        input.previousOutput.vout.toNat < parent.output.length) &&
      !ledger.isSpent input.previousOutput.txid input.previousOutput.vout.toNat

/-- What is answered to what is not there. -/
def notFound {α : Type} : Except ServiceError α :=
  .error (.message "not found")

/-- The honest answers; a transaction is sent in the bytes that `serialize` makes of it. -/
def provider (serialize : Transaction → Bytes) (url : String) : Provider Ledger where
  endpoint := .ok url
  height ledger := .ok (ledger.blocks.length - 1)
  blockHash ledger height := (ledger.blocks[height]?).elim notFound fun block => .ok block.1
  block ledger hash :=
    (ledger.blocks.find? fun block => block.1 = hash).elim notFound fun block => .ok block.2
  raw ledger txid := .ok ((ledger.find crates txid).map serialize)
  status ledger txid :=
    match ledger.place crates txid with
    | some (height, hash) => .ok ⟨true, some height, some hash⟩
    | none =>
        if (ledger.find crates txid).isSome then .ok ⟨false, none, none⟩ else notFound
  spent ledger txid vout := .ok (some (ledger.isSpent txid vout))
  post ledger raw :=
    match crates.decodeHex raw with
    | .error error => (.ok ⟨400, [], .error error⟩, ledger)
    | .ok tx =>
        if ledger.takes crates tx then
          (.ok ⟨200, (crates.reveal.consensus.computeTxid tx).bytes.toList,
            .ok (crates.reveal.consensus.computeTxid tx)⟩, ledger.admitted tx)
        else (.ok ⟨400, [], notFound⟩, ledger)

end Ledger

/-! ## Consistency with a journal -/

/-- What is relied on of the crates: a text is decoded by way of its bytes, and a transaction has one
encoding. -/
structure Crates.Lawful (crates : Crates) (serialize : Transaction → Bytes) : Prop where
  decodeHex : ∀ raw tx, crates.decodeHex raw = .ok tx →
    ∃ bytes, crates.hexDecode raw = .ok bytes ∧ crates.deserialize bytes = .ok tx
  serialize : ∀ bytes tx, crates.deserialize bytes = .ok tx → serialize tx = bytes

/-- An encoded transaction of the journal. -/
def IsPart (crates : Journal.Crates) (plan : Plan) (tx : Transaction) : Prop :=
  ∃ raw ∈ plan.commit :: plan.reveals, Journal.decodeTransaction crates raw = .ok tx

/-- An encoded reveal of the journal. -/
def IsReveal (crates : Journal.Crates) (plan : Plan) (tx : Transaction) : Prop :=
  ∃ raw ∈ plan.reveals, Journal.decodeTransaction crates raw = .ok tx

/-- The transactions of a journal have ids of their own. -/
structure Distinct (crates : Journal.Crates) (plan : Plan) : Prop where
  parts : ∀ tx other, IsPart crates plan tx → IsPart crates plan other →
    crates.reveal.consensus.computeTxid tx = crates.reveal.consensus.computeTxid other → tx = other
  funding : ∀ outpoint previous commit,
    plan.funding.prevout crates.toPlanCrates = .ok (outpoint, previous) →
      Journal.decodeTransaction crates plan.commit = .ok commit →
        outpoint.txid ≠ crates.reveal.consensus.computeTxid commit

/-- A ledger is consistent with a journal. -/
structure Consistent (crates : Crates) (plan : Plan) (network : Network) (ledger : Ledger) :
    Prop where
  genesis : ledger.blocks[0]?.map Prod.fst = some (crates.genesisBlock network)
  hashes : (ledger.blocks.map Prod.fst).Nodup
  own : ∀ tx ∈ ledger.known, ∀ part, IsPart crates.toCrates plan part →
    crates.reveal.consensus.computeTxid tx = crates.reveal.consensus.computeTxid part → tx = part
  parents : ∀ commit reveal, Journal.decodeTransaction crates.toCrates plan.commit = .ok commit →
    IsReveal crates.toCrates plan reveal →
      (reveal ∈ ledger.known → commit ∈ ledger.known) ∧
      (reveal ∈ ledger.mined → commit ∈ ledger.mined)
  children : ∀ commit, Journal.decodeTransaction crates.toCrates plan.commit = .ok commit →
    ∀ tx ∈ ledger.known, ∀ input ∈ tx.input,
      input.previousOutput.txid = crates.reveal.consensus.computeTxid commit →
        input.previousOutput.vout.toNat < plan.reveals.length → IsReveal crates.toCrates plan tx

/-- The funding of a journal is confirmed and not spent. -/
structure Funded (crates : Crates) (plan : Plan) (ledger : Ledger) : Prop where
  transaction : ∃ bytes funding, crates.hexDecode plan.funding.rawTransaction = .ok bytes ∧
    crates.deserialize bytes = .ok funding ∧ funding ∈ ledger.mined ∧
    (∀ tx ∈ ledger.known, crates.reveal.consensus.computeTxid tx =
      crates.reveal.consensus.computeTxid funding → tx = funding) ∧
    ledger.isSpent (crates.reveal.consensus.computeTxid funding) plan.funding.vout = false
  vout : plan.funding.vout ≤ u32Max

/-- The options allow the relay of a journal. -/
structure Options.Authorize (options : Options) (plan : Plan) : Prop where
  network : plan.network = options.network.display
  trust : options.acceptProviderTrust = true
  budget : 1 ≤ options.budget ∧ options.budget ≤ relayMaxBudgetSats ∧ plan.feeSats ≤ options.budget

/-- All reveals of the journal are known. -/
def Submitted (crates : Journal.Crates) (plan : Plan) (ledger : Ledger) : Prop :=
  ∀ reveal, IsReveal crates plan reveal → reveal ∈ ledger.known

/-- The ledger after a call of the relay. -/
def after (crates : Crates) (serialize : Transaction → Bytes) (url : String) (options : Options)
    (plan : Plan) (ledger : Ledger) : Ledger :=
  (outcome (broadcastPlan crates (Ledger.provider crates serialize url) options plan)
    ⟨ledger, []⟩).2.state

/-- Calls of the relay, one after the other; between them the chain goes on and forgets nothing. The
commit can be funded as long as it is not known, and once it is known it gets confirmed, unless
unconfirmed commits are allowed. -/
structure Calls (crates : Crates) (serialize : Transaction → Bytes) (url : String)
    (options : Options) (plan : Plan) (ledgers : ℕ → Ledger) : Prop where
  consistent : ∀ n, Consistent crates plan options.network (ledgers n)
  keeps : ∀ n, ∀ tx ∈ (after crates serialize url options plan (ledgers n)).known,
    tx ∈ (ledgers (n + 1)).known
  funded : ∀ n commit, Journal.decodeTransaction crates.toCrates plan.commit = .ok commit →
    commit ∉ (ledgers n).known → Funded crates plan (ledgers n)
  confirms : options.allowUnconfirmedCommit = true ∨
    ∀ n commit, Journal.decodeTransaction crates.toCrates plan.commit = .ok commit →
      commit ∈ (ledgers n).known → ∃ m, n ≤ m ∧ commit ∈ (ledgers m).mined

/-- **What is asked of the relay of a journal**: every call is sound in every consistent state, and
repeated calls end with every reveal submitted. -/
structure Relays (crates : Crates) (serialize : Transaction → Bytes) (plan : Plan) : Prop where
  sound : ∀ url options ledger, Consistent crates plan options.network ledger →
    Sound crates (Ledger.provider crates serialize url) plan options ledger
      (outcome (broadcastPlan crates (Ledger.provider crates serialize url) options plan)
        ⟨ledger, []⟩).2.log
  completes : ∀ url options ledgers, options.Authorize plan →
    Calls crates serialize url options plan ledgers →
    ∃ n, Submitted crates.toCrates plan (ledgers n)

end Urma.Runtime.Relay
