import Urma.Core.Bytes
import Urma.Web.Store

/-!
# Scanning an object for secrets

`urma_git::review::scan_reader` and `urma_git::scan_batch::Batch::scan`: the content of an object is
read from a Git process in overlapping windows, and what the rules match is a finding. A scan is
given here as the findings it makes, in their order, and how it ends; the findings counter that
several scans share is not part of it.
-/

namespace Urma.Git

/-! ## Data -/

/-- `urma_git::error::Error`, the variants of the scanner. -/
inductive GitError where
  | invalid (message : String)
  | capacity (message : String)
  | git (message : String)
  | io (cause : String)
  deriving DecidableEq

/-- `inventory::Object`. -/
structure Object where
  oid : String
  kind : String
  size : ℕ
  deriving DecidableEq

/-- `review::Finding`. -/
structure Finding where
  id : String
  object : String
  rule : String
  offset : ℕ
  deriving DecidableEq

/-- `review::ScanReport`. -/
structure ScanReport where
  repositoryName : String
  scanner : String
  complete : Bool
  objects : ℕ
  bytes : ℕ
  findings : List Finding
  deriving DecidableEq

/-- A rule: its name, and the starts of what `Regex::find_iter` finds. -/
structure Rule where
  name : String
  findIter : Bytes → List ℕ

/-- What a scan makes of the findings, and how it ends. -/
abbrev Scan (α : Type) := List Finding × Except GitError α

/-! ## Windows -/

/-- `config::SCAN_FINDINGS_LIMIT`. -/
def scanFindingsLimit : ℕ := 65536

def windowBytes : ℕ := 65536
def carryBytes : ℕ := 512

/-- A finding is known by its rule and its offset. -/
instance findingLawfulBEq : LawfulBEq (String × ℕ) := Prod.instLawfulBEq

/-- The finding of a match. -/
def findingAt (sha256 : Bytes → Bytes32) (object name : String) (position : ℕ) : Finding where
  id := Web.hexEncode (sha256 s!"{object}:{name}:{position}".toUTF8.toList).toList
  object := object
  rule := name
  offset := position

variable (sha256 : Bytes → Bytes32) (object : String)

/-- The loop over the matches of one rule. A match that was found before is passed over. -/
def scanMatches (name : String) (offset : ℕ) :
    List ℕ → List (String × ℕ) → List Finding × List (String × ℕ)
  | [], found => ([], found)
  | start :: starts, found =>
      if (name, offset + start) ∈ found then scanMatches name offset starts found
      else
        let (findings, found) := scanMatches name offset starts ((name, offset + start) :: found)
        (findingAt sha256 object name (offset + start) :: findings, found)

/-- The loop over the rules, on one window. -/
def scanWindow (window : Bytes) (offset : ℕ) :
    List Rule → List (String × ℕ) → List Finding × List (String × ℕ)
  | [], found => ([], found)
  | rule :: rules, found =>
      let (findings, found) :=
        scanMatches sha256 object rule.name offset (rule.findIter window) found
      let (more, found) := scanWindow window offset rules found
      (findings ++ more, found)

/-- The loop of `scan_reader`, for so many chunks: `content` is still to be read, after which the
reader ends or breaks. It returns the bytes that were read. -/
def scanChunks (rules : List Rule) (broken : Option GitError) :
    ℕ → Bytes → Bytes → ℕ → List (String × ℕ) → ℕ → Scan ℕ
  | 0, _, _, _, _, bytes => ([], .ok bytes)
  | chunks + 1, content, carry, offset, found, bytes =>
      match broken, decide (content.length < windowBytes) with
      | some cause, true => ([], .error cause)
      | _, _ =>
          let chunk := content.take windowBytes
          if chunk.isEmpty then ([], .ok bytes)
          else
            let window := carry ++ chunk
            let (findings, found) := scanWindow sha256 object window offset rules found
            match checkedAdd bytes chunk.length with
            | none => (findings, .error (.capacity "scanner bytes"))
            | some bytes =>
                let passed := window.length - min window.length carryBytes
                let (more, outcome) := scanChunks rules broken chunks (content.drop windowBytes)
                  (window.drop passed) (offset + passed) found bytes
                (findings ++ more, outcome)

/-- `scan_reader`, into a report that has counted so many bytes. -/
def scanReader (rules : List Rule) (content : Bytes) (broken : Option GitError) (bytes : ℕ) :
    Scan ℕ :=
  scanChunks sha256 object rules broken (content.length / windowBytes + 2) content [] 0 [] bytes

/-! ## Objects -/

/-- What reading the output of `git cat-file --batch` gives after the request for an object. -/
structure Reply where
  /-- The first line, or its first 192 bytes. -/
  line : Except GitError Bytes
  /-- What can be read after it. -/
  content : Bytes
  /-- The failure of the read after that, if it is not the end. -/
  broken : Option GitError
  /-- The byte after the content. -/
  delimiter : Except GitError UInt8

/-- `reject_lfs_prefix`. -/
def rejectLfsPrefix (head : Bytes) : Except GitError Unit :=
  if ["version https://git-lfs.github.com/spec/", "version https://hawser.github.com/spec/",
      "version https://git-media.io/"].any fun known => known.toUTF8.toList.isPrefixOf head then
    .error (.invalid "Git LFS pointer or malformed known LFS header")
  else .ok ()

/-- `Batch::header`. -/
def checkHeader (object : Object) (line : Bytes) : Except GitError Unit :=
  if line == s!"{object.oid} {object.kind} {object.size}\n".toUTF8.toList then .ok ()
  else .error (.invalid "batch object identity, type or size differs from inventory")

/-- The checks of `scan_content` before the scan: the first bytes are there and no LFS pointer. -/
def checkContent (object : Object) (content : Bytes) (broken : Option GitError) :
    Except GitError Unit := do
  if content.length < min object.size 256 then
    match broken with
    | some cause => .error cause
    | none => .error (.io "failed to fill whole buffer")
  else if object.kind == "blob" then rejectLfsPrefix (content.take (min object.size 256))
  else .ok ()

/-- The checks of `scan_content` after the scan, and the report. -/
def closeContent (object : Object) (content : Bytes) (delimiter : Except GitError UInt8)
    (findings : List Finding) (bytes : ℕ) : Except GitError ScanReport :=
  if content.length ≠ object.size ∨ bytes ≠ object.size then
    .error (.invalid "truncated batch object content")
  else do
    let last ← delimiter
    if last ≠ 10 then .error (.invalid "invalid batch object delimiter")
    else .ok {
      repositoryName := "", scanner := "", complete := true, objects := 1, bytes, findings }

/-- `Batch::scan`. -/
def scanObject (rules : List Rule) (object : Object) (reply : Reply) : Scan ScanReport :=
  let content := reply.content.take object.size
  let broken := if reply.content.length < object.size then reply.broken else none
  let checked : Except GitError Unit := do
    let line ← reply.line
    checkHeader object line
    checkContent object content broken
  match checked with
  | .error cause => ([], .error cause)
  | .ok () =>
      let (findings, outcome) := scanReader sha256 object.oid rules content broken 0
      (findings, do
        let bytes ← outcome
        closeContent object content reply.delimiter findings bytes)

variable {sha256}

/-- The report of an object is of that object alone, and holds the findings of its scan. -/
theorem scanObject_eq_ok {rules : List Rule} {object : Object} {reply : Reply}
    {findings : List Finding} {report : ScanReport}
    (h : scanObject sha256 rules object reply = (findings, .ok report)) :
    report.objects = 1 ∧ report.findings = findings ∧ report.bytes = object.size := by
  rw [scanObject] at h
  split at h
  · cases h
  · simp only [Prod.mk.injEq, Except.bind_eq_ok] at h
    obtain ⟨hfindings, bytes, _, hclose⟩ := h
    rw [closeContent] at hclose
    split at hclose
    · cases hclose
    · next hsize =>
        obtain ⟨last, _, hclose⟩ := Except.bind_eq_ok.mp hclose
        split at hclose
        · cases hclose
        · cases hclose
          simp only [not_or, not_not] at hsize
          exact ⟨rfl, hfindings, hsize.2⟩

end Urma.Git
