import Urma.Lib.Paging
import Urma.Node.NamesView

/-!
# The reader of a names archive

`names_archive::read` follows the continuations of a server from page to page, asks that all pages
have the metadata of the first one, counts rows and bytes, and collects the entries in two maps that
must not have a key twice. A view answers what a name resolves to.
-/

namespace Urma.Node

open Std Names

/-- `names_archive::read` fails with an error of the runtime. -/
inductive ReadError where
  | invalid (message : String)
  | io
  deriving DecidableEq

/-- `refused`. -/
def refused : ReadError :=
  .invalid "optional Names archive view unavailable"

/-- `MAX_ROWS`. -/
def maxRows : ℕ := 100000

/-- `MAX_BYTES`. -/
def maxBytes : ℕ := 64 * 1024 * 1024

/-- `MAX_PAGES`. -/
def maxPages : ℕ := 1024

/-- The `names` and the `pending` that are collected. -/
structure Rows where
  names : ExtTreeMap Name NameState
  pending : ExtTreeMap Txid PendingRecord

/-- `names_archive::View`. -/
structure View extends Rows where
  status : NamesStatus
  snapshot : IndexSnapshot

/-- `View::resolution`. -/
def View.resolution (self : View) (name : Name) : Resolution :=
  match self.names[name]? with
  | none => .unbound
  | some state =>
      if state.suspended then .suspended
      else match state.binding with
        | .bound bound => .bound bound
        | .unbound => .unbound

/-- What `read` compares between pages. -/
structure Metadata (J : Type) where
  snapshot : IndexSnapshot
  chainGenesis : Bytes32
  status : J
  rules : Genesis
  deriving DecidableEq

/-- One entry into its map: `insert(..).is_some()` is refused. -/
def Rows.insertEntry (self : Rows) : NamesEntry → Except ReadError Rows
  | .name name state =>
      if self.names.contains name then .error (.invalid "duplicate Names archive entry")
      else .ok { self with names := self.names.insert name state }
  | .pending txid record =>
      if self.pending.contains txid then .error (.invalid "duplicate Names archive entry")
      else .ok { self with pending := self.pending.insert txid record }

/-- The loop over the entries of a page. -/
def Rows.insertEntries (self : Rows) : List NamesEntry → Except ReadError Rows
  | [] => .ok self
  | entry :: entries => do
      let rows ← self.insertEntry entry
      rows.insertEntries entries

/-- The variables of the loop of `read`. -/
structure Progress (J : Type) where
  cursor : Option NamesCursor
  metadata : Option (Metadata J)
  rows : Rows
  count : ℕ
  bytes : ℕ

/-- The checks of the clock: three in a round of `read`, and those of the client in a request. -/
structure Clock where
  reader : ℕ → Fin 3 → Bool
  client : ℕ → ℕ → Bool

/-- `if !condition { return Err(refused()); }`. -/
def orRefused (condition : Bool) : Except ReadError Unit :=
  if condition then .ok () else .error refused

/-- `ok_or_else(refused)`. -/
def someOrRefused {α : Type} : Option α → Except ReadError α
  | some a => .ok a
  | none => .error refused

/-- `map_err(|_| refused())`. -/
def okOrRefused {ε α : Type} : Except ε α → Except ReadError α
  | .ok a => .ok a
  | .error _ => .error refused

section

variable {J : Type} [DecidableEq J] (serde : Serde J) (server : Server) (clock : Clock)
  (genesis : Txid) (chainGenesis : Bytes32)

/-- `current`. -/
def metadataOf (page : NamesPage) : Metadata J where
  snapshot := page.snapshot
  chainGenesis := page.chainGenesis
  status := serde.statusJson page.status
  rules := page.rules

/-- What a round of `read` makes of a page that it was answered. -/
def collect (progress : Progress J) (page : NamesPage) : Except ReadError (Progress J) := do
  orRefused (page.chainGenesis = chainGenesis)
  okOrRefused page.rules.validate
  orRefused (progress.metadata.all fun previous => previous = metadataOf serde page)
  let count ← someOrRefused (checkedAdd progress.count page.entries.length)
  let bytes ← someOrRefused (checkedAdd progress.bytes (serde.pageBytes page))
  orRefused (count ≤ maxRows && bytes ≤ maxBytes)
  let rows ← progress.rows.insertEntries page.entries
  .ok { progress with metadata := some (metadataOf serde page), rows, count, bytes }

/-- One round of `read`: the page and the variables after it. -/
def readPage (round : ℕ) (progress : Progress J) :
    Except ReadError (NamesPage × Progress J) := do
  orRefused (clock.reader round 0)
  let page ← okOrRefused
    (namesView serde server (clock.client round) round genesis progress.cursor 128)
  orRefused (clock.reader round 1)
  let progress ← collect serde chainGenesis progress page
  orRefused (clock.reader round 2)
  .ok (page, progress)

/-- The loop of `read`, with the rounds that are left. -/
def readPages : ℕ → ℕ → Progress J → Except ReadError View
  | 0, _, _ => .error refused
  | rounds + 1, round, progress => do
      let (page, progress) ← readPage serde server clock genesis chainGenesis round progress
      match page.next with
      | some next => readPages rounds (round + 1) { progress with cursor := some next }
      | none => .ok { progress.rows with status := page.status, snapshot := page.snapshot }

/-- What `read` has before its first page: the genesis block of the network, and the token. -/
structure Opening where
  chainGenesis : Except ReadError Bytes32
  token : Except ReadError Unit

/-- The variables of `read` before its loop. -/
def Progress.start : Progress J where
  cursor := none
  metadata := none
  rows := ⟨∅, ∅⟩
  count := 0
  bytes := 0

/-- `names_archive::read`. -/
def read (opening : Opening) : Except ReadError View := do
  let chainGenesis ← opening.chainGenesis
  opening.token
  readPages serde server clock genesis chainGenesis maxPages 0 Progress.start

end

end Urma.Node
