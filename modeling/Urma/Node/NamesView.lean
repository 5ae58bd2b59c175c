import Urma.Names.State
import Urma.Web.StoreAuthentic

/-!
# Pages of a names view

`urma_node_client`: a names view is read page by page, each page after a cursor. The client checks a
page by itself: its metadata, the order of its entries after the cursor, and that its continuation
is after its last entry. What serde makes of the values is a parameter, and so are the answers of the
server and the checks of the clock.
-/

namespace Urma.Node

open Std Names

/-! ## Pages -/

/-- `ChainPoint`. -/
structure ChainPoint where
  height : ℕ
  hash : Bytes32
  deriving DecidableEq

/-- `IndexSnapshot`. -/
structure IndexSnapshot where
  instance_ : Bytes
  revision : ℕ
  deriving DecidableEq

/-- `NamesKey`. -/
inductive NamesKey where
  | name (name : Name)
  | pending (txid : Txid)
  deriving DecidableEq

/-- `NamesCursor`. -/
structure NamesCursor where
  genesis : Txid
  snapshot : IndexSnapshot
  after : NamesKey
  deriving DecidableEq

/-- `NamesEntry`. -/
inductive NamesEntry where
  | name (name : Name) (state : NameState)
  | pending (txid : Txid) (record : PendingRecord)
  deriving DecidableEq

/-- `NamesStatus`. -/
structure NamesStatus where
  genesis : Txid
  genesisBlock : ChainPoint
  projected : ChainPoint
  generation : ℕ
  selectedTip : Option ChainPoint
  completeToTip : Bool
  deriving DecidableEq

/-- `NamesPage`. -/
structure NamesPage where
  snapshot : IndexSnapshot
  chainGenesis : Bytes32
  status : NamesStatus
  rules : Genesis
  entries : List NamesEntry
  next : Option NamesCursor

/-- `NamesEntry::key`. -/
def NamesEntry.key : NamesEntry → NamesKey
  | .name label _ => .name label
  | .pending txid _ => .pending txid

/-- The text of a txid: its bytes backwards. -/
def displayTxid (txid : Txid) : Bytes :=
  (Web.hexEncode txid.bytes.toList.reverse).toUTF8.data.toList

/-- `NamesKey::order_key`. -/
def NamesKey.orderKey : NamesKey → ℕ × Bytes
  | .name label => (0, label.bytes)
  | .pending txid => (1, displayTxid txid)

/-- `Ord` of a pair of a number and a text. -/
def orderCmp : ℕ × Bytes → ℕ × Bytes → Ordering :=
  compareLex (compareOn Prod.fst) (compareOn Prod.snd)

/-- One key is before another. -/
def NamesKey.Before (key other : NamesKey) : Prop :=
  orderCmp key.orderKey other.orderKey = .lt

instance (key other : NamesKey) : Decidable (key.Before other) :=
  inferInstanceAs (Decidable (_ = _))

/-! ## The client -/

/-- `urma_node_client::Error`, as far as it is told apart. -/
inductive ClientError where
  | invalid (message : String)
  | json
  | timedOut
  | http
  deriving DecidableEq

/-- What serde makes of the values: the JSON value of a status, and how many bytes others take. -/
structure Serde (J : Type) where
  statusJson : NamesStatus → J
  stateBytes : NameState → ℕ
  recordBytes : PendingRecord → ℕ
  rulesBytes : Genesis → ℕ
  pageBytes : NamesPage → ℕ
  cursorBytes : NamesCursor → ℕ

/-- What the client is answered: the code, how long the body is, and the page that it is read as. -/
structure Response where
  code : ℕ
  bodyBytes : ℕ
  page : Option NamesPage

/-- What a server answers to a request, by its number and its cursor. -/
abbrev Server := ℕ → Option NamesCursor → Except ClientError Response

/-- `MAX_NAMES_PAGE`. -/
def maxNamesPage : ℕ := 128

/-- `MAX_NAMES_STATE_BYTES`. -/
def maxNamesStateBytes : ℕ := 64 * 1024

/-- `MAX_NAMES_PAGE_BYTES`. -/
def maxNamesPageBytes : ℕ := 16 * 1024 * 1024

/-- `if !condition { return Err(invalid(message)); }`. -/
def check (condition : Bool) (message : String) : Except ClientError Unit :=
  if condition then .ok () else .error (.invalid message)

/-- `remaining`: one check of the clock. -/
def remaining (inTime : Bool) : Except ClientError Unit :=
  if inTime then .ok () else .error .timedOut

/-- `u8::is_ascii_hexdigit`. -/
def isHexDigit (byte : UInt8) : Bool :=
  (48 ≤ byte && byte ≤ 57) || (65 ≤ byte && byte ≤ 70) || (97 ≤ byte && byte ≤ 102)

/-- `validate_names_instance`. -/
def validateNamesInstance (instance_ : Bytes) : Except ClientError Unit :=
  check (instance_.length == 32 && instance_.all isHexDigit)
    "local Names snapshot instance must be 32 hex characters"

/-- The blocks at one height are one. -/
def agree (left right : ChainPoint) : Bool :=
  !(left.height == right.height && left.hash != right.hash)

/-- `validate_names_status`. -/
def validateNamesStatus (status : NamesStatus) (genesis : Txid) : Except ClientError Unit := do
  check (status.genesis = genesis) "local Names genesis differs from request"
  match status.selectedTip with
  | none => .error (.invalid "local Names projection has no selected tip")
  | some tip => do
      check (status.genesisBlock.height ≤ status.projected.height &&
        status.projected.height ≤ tip.height) "local Names projection heights are inconsistent"
      check (agree status.genesisBlock status.projected && agree status.projected tip &&
        agree status.genesisBlock tip) "local Names equal-height block hashes differ"
      check (status.completeToTip == decide (status.projected = tip))
        "local Names completion differs from projection and tip"

section

variable {J : Type} (serde : Serde J)

/-- `names_json_bound` of an entry. -/
def entryBound : NamesEntry → Except ClientError Unit
  | .name _ state => check (serde.stateBytes state ≤ maxNamesStateBytes)
      "local Names state exceeds 64 KiB"
  | .pending _ record => check (serde.recordBytes record ≤ maxNamesStateBytes)
      "local Names pending state exceeds 64 KiB"

/-- The loop of `validate_names_page`, with the checks of the clock that are made. -/
def validateEntries (inTime : ℕ → Bool) :
    List NamesEntry → ℕ → Option NamesKey → Except ClientError Unit
  | [], _, _ => .ok ()
  | entry :: entries, clock, previous => do
      remaining (inTime clock)
      check (previous.all fun previous => previous.Before entry.key)
        "local Names keys are not strictly after cursor/in order"
      entryBound serde entry
      validateEntries inTime entries (clock + 1) (some entry.key)

/-- What `validate_names_page` checks of a continuation. -/
def validateNext (page : NamesPage) (genesis : Txid) : Except ClientError Unit :=
  match page.next with
  | none => .ok ()
  | some next =>
      match page.entries.getLast? with
      | none => .error (.invalid "empty local Names page has a continuation")
      | some last =>
          check (next.genesis = genesis && next.snapshot = page.snapshot &&
            next.after = last.key)
            "local Names continuation differs from last key/genesis/snapshot"

/-- `validate_names_page`. -/
def validateNamesPage (inTime : ℕ → Bool) (page : NamesPage) (genesis : Txid)
    (cursor : Option NamesCursor) (limit : ℕ) : Except ClientError Unit := do
  validateNamesInstance page.snapshot.instance_
  validateNamesStatus page.status genesis
  check (page.entries.length ≤ limit) "local Names page entry count exceeds requested limit"
  check (cursor.all fun cursor => cursor.snapshot = page.snapshot)
    "local Names page snapshot differs from cursor"
  check (serde.rulesBytes page.rules ≤ maxNamesStateBytes) "local Names rules exceed 64 KiB"
  remaining (inTime 1)
  match page.rules.validate with
  | .error _ => .error (.invalid "local Names rules are invalid")
  | .ok () => do
      validateEntries serde inTime page.entries 2 (cursor.map NamesCursor.after)
      validateNext page genesis
      remaining (inTime (2 + page.entries.length))
      check (serde.pageBytes page ≤ maxNamesPageBytes) "local Names page exceeds 16 MiB"
      remaining (inTime (3 + page.entries.length))

/-- What `Client::names_view` checks of a cursor. -/
def validateCursor (genesis : Txid) : Option NamesCursor → Except ClientError Unit
  | none => .ok ()
  | some cursor => do
      check (cursor.genesis = genesis) "local Names cursor genesis differs from request"
      validateNamesInstance cursor.snapshot.instance_
      check (serde.cursorBytes cursor ≤ 512) "local Names cursor exceeds 1024 hex characters"

/-- `Client::names_view`, of a request by its number. -/
def namesView (server : Server) (inTime : ℕ → Bool) (request : ℕ) (genesis : Txid)
    (cursor : Option NamesCursor) (limit : ℕ) : Except ClientError NamesPage := do
  check (1 ≤ limit && limit ≤ maxNamesPage) "local Names view limit must be 1..128"
  validateCursor serde genesis cursor
  let response ← server request cursor
  check (response.code == 200) s!"local Names view HTTP {response.code}"
  check (response.bodyBytes ≤ maxNamesPageBytes) "local Names page exceeds 16 MiB"
  match response.page with
  | none => .error .json
  | some page => do
      remaining (inTime 0)
      validateNamesPage serde inTime page genesis cursor limit
      remaining (inTime (4 + page.entries.length))
      .ok page

end

end Urma.Node
