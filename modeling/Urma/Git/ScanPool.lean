import Urma.Git.Scan
import Urma.Lib.WorkQueue

/-!
# Scanning a repository side by side

`urma_git::scan_pool`: scanners with a Git process each draw objects from a shared counter and send
their reports to one receiver, over a channel that also carries the failures. They share the count
of findings and a flag that cancels the scan. One step is one step of a scanner or of the receiver,
and any that can take a step may be next.
-/

namespace Urma.Git

/-! ## What the scan runs on -/

/-- The rules, the objects of the inventory with what Git answers for each, and the processes. A
scanner is known by its number. -/
structure Repository where
  sha256 : Bytes → Bytes32
  rules : List Rule
  objects : List Object
  reply : Object → Reply
  /-- `Batch::new`. -/
  start : ℕ → Except GitError Unit
  /-- `Batch::finish`. -/
  finish : ℕ → Except GitError Unit
  /-- `Batch::abort`. -/
  abort : ℕ → Except GitError Unit

/-- The scan of an object of the inventory. -/
def Repository.scanOf (repository : Repository) (object : Object) : Scan ScanReport :=
  scanObject repository.sha256 repository.rules object (repository.reply object)

/-! ## One after another -/

/-- `findings.fetch_add` and the comparison, for one finding after another. -/
def countFindings (limit : ℕ) : ℕ → List Finding → Except GitError ℕ
  | count, [] => .ok count
  | count, _ :: findings =>
      if limit ≤ count then
        .error (.capacity "scanner finding limit exceeded; review content before retrying")
      else countFindings limit (count + 1) findings

/-- Adding the bytes of an object to a report. -/
def addBytes (bytes more : ℕ) : Except GitError ℕ :=
  match checkedAdd bytes more with
  | some bytes => .ok bytes
  | none => .error (.capacity "scanner byte count overflow")

variable (repository : Repository) (limit : ℕ)

/-- One object is scanned into a report, with the count of findings: what the pool is compared
with. -/
def scanNext (state : ScanReport × ℕ) (object : Object) : Except GitError (ScanReport × ℕ) := do
  let (findings, outcome) := repository.scanOf object
  let count ← countFindings limit state.2 findings
  let part ← outcome
  let bytes ← addBytes state.1.bytes part.bytes
  .ok ({ state.1 with
    objects := state.1.objects + part.objects
    bytes
    findings := state.1.findings ++ part.findings }, count)

/-- The objects of the inventory are scanned one after another. -/
def scanInOrder (report : ScanReport) (count : ℕ) : Except GitError (ScanReport × ℕ) :=
  repository.objects.foldlM (scanNext repository limit) (report, count)

/-- `review::scan` up to the pool: the branch and the repository name are scanned into a new report,
with a new count. -/
def startReview (repositoryName : String) (branch : Bytes) : Except GitError (ScanReport × ℕ) := do
  let (findings, outcome) :=
    scanReader repository.sha256 "branch" repository.rules branch none 0
  let count ← countFindings limit 0 findings
  let bytes ← outcome
  let (more, outcome) := scanReader repository.sha256 "repository-name" repository.rules
    repositoryName.toUTF8.toList none bytes
  let count ← countFindings limit count more
  let bytes ← outcome
  .ok ({
    repositoryName, scanner := "urma-git-patterns-v2", complete := false, objects := 0, bytes
    findings := findings ++ more }, count)

/-! ## State -/

/-- Where a scanner stands in `run_worker`. -/
inductive Scanner where
  | starting
  | checking
  | drawing
  /-- It scans the object with this index, and has these findings to count. -/
  | scanning (index : ℕ) (pending : List Finding) (outcome : Except GitError ScanReport)
  | sending (index : ℕ) (part : ScanReport)
  | finishing
  | aborting (cause : GitError)
  | cancelling (cause : GitError)
  | reporting (cause : GitError)
  | stopped

/-- What the channel carries. -/
abbrev Message := Except GitError (ℕ × ScanReport)

/-- What the scanners share: the next index, the flag, the count of findings and the channel. -/
structure Shared where
  next : ℕ
  cancelled : Bool
  count : ℕ
  channel : List Message

/-- `scan_pool::scan` while it runs. `received` is what the receiver took from the channel, which
only the statements read. -/
structure Pool where
  shared : Shared
  scanners : List Scanner
  report : ScanReport
  results : List (ℕ × List Finding)
  errors : List GitError
  received : List (ℕ × ScanReport)
  result : Option (Except GitError ScanReport)

/-- The start of `scan_pool::scan`, with so many scanners. -/
def Pool.start (scanners : ℕ) (report : ScanReport) (count : ℕ) : Pool where
  shared := { next := 0, cancelled := false, count, channel := [] }
  scanners := List.replicate scanners .starting
  report := report
  results := []
  errors := []
  received := []
  result := none

/-- `scan_pool::finish`: the sort is by index. -/
def finishReport (report : ScanReport) (total : ℕ) (results : List (ℕ × List Finding)) :
    Except GitError ScanReport :=
  if report.objects ≠ total then .error (.invalid "not every snapshot object was scanned")
  else .ok { report with
    findings := report.findings ++
      (results.mergeSort fun a b => a.1 ≤ b.1).flatMap Prod.snd }

/-- The end of `scan_pool::scan`: the first error, or `finish`. -/
def Pool.outcome (total : ℕ) (pool : Pool) : Except GitError ScanReport :=
  match pool.errors with
  | cause :: _ => .error cause
  | [] => finishReport pool.report total pool.results

/-! ## Steps -/

/-- One step of the scanner with a number. The receiver takes messages until every scanner is gone,
so a message can always be sent once there is room. -/
inductive Scanner.Step (capacity number : ℕ) : Shared → Scanner → Shared → Scanner → Prop
  | start {shared : Shared} (hstart : repository.start number = .ok ()) :
      Scanner.Step capacity number shared .starting shared .checking
  | startFailed {shared : Shared} {cause : GitError}
      (hstart : repository.start number = .error cause) :
      Scanner.Step capacity number shared .starting shared (.cancelling cause)
  | proceed {shared : Shared} (hflag : shared.cancelled = false) :
      Scanner.Step capacity number shared .checking shared .drawing
  | halt {shared : Shared} (hflag : shared.cancelled = true) :
      Scanner.Step capacity number shared .checking shared .finishing
  | draw {shared : Shared} {object : Object}
      (hobject : repository.objects[shared.next]? = some object) :
      Scanner.Step capacity number shared .drawing { shared with next := shared.next + 1 }
        (.scanning shared.next (repository.scanOf object).1 (repository.scanOf object).2)
  | exhaust {shared : Shared} (hend : repository.objects[shared.next]? = none) :
      Scanner.Step capacity number shared .drawing { shared with next := shared.next + 1 }
        .finishing
  | count {shared : Shared} {index : ℕ} {finding : Finding} {pending : List Finding}
      {outcome : Except GitError ScanReport} (hlimit : shared.count < limit) :
      Scanner.Step capacity number shared (.scanning index (finding :: pending) outcome)
        { shared with count := shared.count + 1 } (.scanning index pending outcome)
  | overrun {shared : Shared} {index : ℕ} {finding : Finding} {pending : List Finding}
      {outcome : Except GitError ScanReport} (hlimit : limit ≤ shared.count) :
      Scanner.Step capacity number shared (.scanning index (finding :: pending) outcome)
        { shared with count := shared.count + 1 }
        (.aborting
          (.capacity "scanner finding limit exceeded; review content before retrying"))
  | scanned {shared : Shared} {index : ℕ} {part : ScanReport} :
      Scanner.Step capacity number shared (.scanning index [] (.ok part)) shared
        (.sending index part)
  | scanFailed {shared : Shared} {index : ℕ} {cause : GitError} :
      Scanner.Step capacity number shared (.scanning index [] (.error cause)) shared
        (.aborting cause)
  | send {shared : Shared} {index : ℕ} {part : ScanReport}
      (hroom : shared.channel.length < capacity) :
      Scanner.Step capacity number shared (.sending index part)
        { shared with channel := shared.channel ++ [.ok (index, part)] } .checking
  | finish {shared : Shared} (hfinish : repository.finish number = .ok ()) :
      Scanner.Step capacity number shared .finishing shared .stopped
  | finishFailed {shared : Shared} {cause : GitError}
      (hfinish : repository.finish number = .error cause) :
      Scanner.Step capacity number shared .finishing shared (.cancelling cause)
  | abort {shared : Shared} {cause : GitError} (habort : repository.abort number = .ok ()) :
      Scanner.Step capacity number shared (.aborting cause) shared (.cancelling cause)
  | abortFailed {shared : Shared} {cause worse : GitError}
      (habort : repository.abort number = .error worse) :
      Scanner.Step capacity number shared (.aborting cause) shared (.cancelling worse)
  | cancel {shared : Shared} {cause : GitError} :
      Scanner.Step capacity number shared (.cancelling cause) { shared with cancelled := true }
        (.reporting cause)
  | report {shared : Shared} {cause : GitError} (hroom : shared.channel.length < capacity) :
      Scanner.Step capacity number shared (.reporting cause)
        { shared with channel := shared.channel ++ [.error cause] } .stopped

/-- One step of the pool. -/
inductive Pool.Step (capacity : ℕ) : Pool → Pool → Prop
  | scanner {pool : Pool} {before after : List Scanner} {scanner scanner' : Scanner}
      {shared : Shared} (hscanners : pool.scanners = before ++ scanner :: after)
      (hstep : Scanner.Step repository limit capacity before.length pool.shared scanner shared
        scanner') :
      Pool.Step capacity pool { pool with shared, scanners := before ++ scanner' :: after }
  | receive {pool : Pool} {index bytes : ℕ} {part : ScanReport} {channel : List Message}
      (hchannel : pool.shared.channel = .ok (index, part) :: channel)
      (hbytes : checkedAdd pool.report.bytes part.bytes = some bytes) :
      Pool.Step capacity pool
        { pool with
          shared := { pool.shared with channel }
          report := { pool.report with objects := pool.report.objects + part.objects, bytes }
          results := if part.findings = [] then pool.results
            else pool.results ++ [(index, part.findings)]
          received := pool.received ++ [(index, part)] }
  | overflow {pool : Pool} {index : ℕ} {part : ScanReport} {channel : List Message}
      (hchannel : pool.shared.channel = .ok (index, part) :: channel)
      (hbytes : checkedAdd pool.report.bytes part.bytes = none) :
      Pool.Step capacity pool
        { pool with
          shared := { pool.shared with channel, cancelled := true }
          report := { pool.report with objects := pool.report.objects + part.objects }
          errors := pool.errors ++ [.capacity "scanner byte count overflow"]
          received := pool.received ++ [(index, part)] }
  | receiveFailure {pool : Pool} {cause : GitError} {channel : List Message}
      (hchannel : pool.shared.channel = .error cause :: channel) :
      Pool.Step capacity pool
        { pool with
          shared := { pool.shared with channel }
          errors := pool.errors ++ [cause] }
  /-- Every scanner is gone and the channel is empty. -/
  | conclude {pool : Pool} (hchannel : pool.shared.channel = [])
      (hscanners : ∀ scanner ∈ pool.scanners, scanner = .stopped) (hresult : pool.result = none) :
      Pool.Step capacity pool
        { pool with result := some (pool.outcome repository.objects.length) }

/-- The states a scan with so many scanners can be in. The channel has room for a message of each. -/
def Pool.Reachable (scanners : ℕ) (report : ScanReport) (count : ℕ) (pool : Pool) : Prop :=
  Relation.ReflTransGen (Pool.Step repository limit scanners)
    (Pool.start scanners report count) pool

end Urma.Git
