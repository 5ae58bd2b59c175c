import Urma.Runtime.DiskPublish

/-!
# The log of observations

`urma_runtime::disk_journal`: what a publication has seen of its transactions. The journal holds
the last report; the log next to it grows by a line for every observation, and is read back when
the publication is resumed. A process may stop in the middle of a line.
-/

namespace Urma.Runtime.DiskJournal

open Chain

/-! ## Data -/

/-- What a line of the log is written from. -/
structure Event where
  /-- `Node::inclusion_evidence`. -/
  source : String
  chain : Chain
  report : PublishReport
  deriving DecidableEq

/-- What the log takes from `serde_json`. -/
structure Crates where
  /-- `serde_json::Value`. -/
  Value : Type
  /-- `from_slice` of a value. -/
  fromSlice : Bytes → Except ServiceError Value
  /-- `from_value` of the entry `"report"` of a value. -/
  report : Value → Except ServiceError PublishReport
  /-- `from_slice` of a report. -/
  reportFromSlice : Bytes → Except ServiceError PublishReport
  /-- `to_vec` of the object of an event, whose keys are strings. -/
  toVec : Event → Bytes

/-- The capacity of the journal, and of a line of the log. -/
def fileLimit : ℕ := 1024 * 1024

variable (crates : Crates)

/-! ## Reading -/

/-- `storage::read_bounded`. -/
def readBounded (bytes : Bytes) (limit : ℕ) : Except ServiceError Bytes :=
  if bytes.length > limit then .error (.message s!"file exceeds {limit} byte capacity")
  else .ok bytes

/-- `history.insert` for every row of a report. -/
def insertRows (history : History) (rows : List TransactionStatus) : History :=
  rows.foldl (fun history row => history.insert row.txid row.presence) history

/-- The part of `history` for the journal. -/
def readJournal (journal : Option Bytes) (id : String) : Except ServiceError History :=
  match journal with
  | none => .ok ∅
  | some bytes => do
      let bytes ← readBounded bytes fileLimit
      let report ← crates.reportFromSlice bytes
      ensureService (report.planId == id) "journal belongs to another plan"
      .ok (insertRows ∅ (report.transactions.filter fun row => row.presence != .missing))

/-- `take(1024 * 1024).read_until(b'\n')`. -/
def readUntil (bytes : Bytes) : Bytes :=
  let limited := bytes.take fileLimit
  limited.takeWhile (· != 0x0a) ++ (limited.dropWhile (· != 0x0a)).take 1

/-- What a whole line of the log adds. -/
def readLine (id : String) (history : History) (line : Bytes) : Except ServiceError History := do
  let value ← crates.fromSlice line
  let report ← crates.report value
  ensureService (report.planId == id) "observations belong to another plan"
  let history := insertRows history report.transactions
  ensureService (history.size ≤ DiskPlan.maxRecords * 2)
    "observation transaction capacity exceeded"
  .ok history

/-- The loop of `history` over the log. -/
def readObservations (id : String) (history : History) (bytes : Bytes) :
    Except ServiceError History :=
  let line := readUntil bytes
  if _hread : line.length = 0 then .ok history
  else do
    ensureService (line.length < fileLimit) "observation exceeds journal capacity"
    if line.getLast? ≠ some 0x0a then .ok history
    else do
      let history ← readLine crates id history line
      readObservations id history (bytes.drop line.length)
termination_by bytes.length
decreasing_by
  have hne : bytes ≠ [] := by
    rintro rfl
    exact _hread rfl
  have hpos := List.length_pos_iff.mpr hne
  have hline : 0 < (readUntil bytes).length := Nat.pos_of_ne_zero _hread
  rw [List.length_drop]
  omega

/-- `disk_journal::history`. -/
def history (journal observations : Option Bytes) (id : String) : Except ServiceError History := do
  let history ← readJournal crates journal id
  match observations with
  | none => .ok history
  | some bytes => readObservations crates id history bytes

/-! ## Writing -/

/-- The line of an event. -/
def line (event : Event) : Bytes :=
  crates.toVec event ++ [0x0a]

/-- `disk_journal::observe`, of which so many bytes are written before the process stops:
`append_private` opens the log at its end, or creates it. -/
def observe (event : Event) (written : ℕ) (log : Option Bytes) : Option Bytes :=
  some (log.getD [] ++ (line crates event).take written)

/-- A call of `observe`, and how many bytes it has written when its process stops. -/
structure Call where
  event : Event
  written : ℕ
  deriving DecidableEq

/-- The log after some calls. -/
def logOf (calls : List Call) : Option Bytes :=
  calls.foldl (fun log call => observe crates call.event call.written log) none

end Urma.Runtime.DiskJournal
