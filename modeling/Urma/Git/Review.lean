import Urma.Git.Scan
import Urma.Lib.Regex

/-!
# Reading an object for secrets

`urma_git::review`: the rules, and `scan_reader` read by read. A reader gives its content in pieces
of any size. It is read into windows that overlap in 512 bytes, each window is searched for each
rule, and a match is counted together with those of the scans that run at the same time.
-/

namespace Urma.Git.Review

open Lib

/-! ## The rules -/

/-- A rule: its name and its expression. -/
structure Rule where
  name : String
  regex : Search.Pattern UInt8

def text (value : String) : Regex UInt8 :=
  .literal value.toUTF8.toList

/-- One of the bytes of a text. -/
def among (value : String) : Regex UInt8 :=
  .chars fun byte => value.toUTF8.toList.contains byte

def isDigit (byte : UInt8) : Bool :=
  0x30 ≤ byte && byte ≤ 0x39

def isUpper (byte : UInt8) : Bool :=
  0x41 ≤ byte && byte ≤ 0x5a

def isLower (byte : UInt8) : Bool :=
  0x61 ≤ byte && byte ≤ 0x7a

/-- The letters outside ASCII that fold to `s` and to `k`. -/
def longS : Regex UInt8 := .literal [0xc5, 0xbf]
def kelvin : Regex UInt8 := .literal [0xe2, 0x84, 0xaa]

/-- A byte of a lower-case text under `(?i)`. -/
def caseless (byte : UInt8) : Regex UInt8 :=
  if byte = 0x73 then .either (.chars fun other => other == 0x73 || other == 0x53) longS
  else if byte = 0x6b then .either (.chars fun other => other == 0x6b || other == 0x4b) kelvin
  else if isLower byte then .chars fun other => other == byte || other == byte - 0x20
  else .chars fun other => other == byte

/-- A lower-case text under `(?i)`. -/
def caselessText (value : String) : Regex UInt8 :=
  value.toUTF8.toList.foldr (fun byte rest => .append (caseless byte) rest) .empty

/-- `[A-Za-z0-9/+=_-]` under `(?i)`. -/
def secretByte : Regex UInt8 :=
  .either (.chars fun byte => isUpper byte || isLower byte || isDigit byte ||
    "/+=_-".toUTF8.toList.contains byte) (.either longS kelvin)

def privateKey : Regex UInt8 :=
  .append (text "-----BEGIN ") (.append
    (.optional (.oneOf [text "RSA ", text "EC ", text "DSA ", text "OPENSSH ", text "ENCRYPTED "]))
    (text "PRIVATE KEY-----"))

def githubToken : Regex UInt8 :=
  .oneOf [
    .append (text "gh") (.append (among "pousr") (.append (text "_")
      (.times (.chars fun byte => isUpper byte || isLower byte || isDigit byte) 20 255))),
    .append (text "github_pat_")
      (.times (.chars fun byte => isUpper byte || isLower byte || isDigit byte || byte == 0x5f)
        20 255)]

def awsAccessKey : Regex UInt8 :=
  .append (.oneOf [text "AKIA", text "ASIA"])
    (.times (.chars fun byte => isUpper byte || isDigit byte) 16 16)

def credentialAssignment : Regex UInt8 :=
  .append (.oneOf [caselessText "password", caselessText "secret", caselessText "api_key",
      caselessText "access_token"])
    (.append (.times (among " \t") 0 32) (.append (among ":=") (.append (.times (among " \t") 0 32)
      (.append (.optional (among "\"'")) (.times secretByte 16 255)))))

/-- `rules`. -/
def rules : List Rule := [
  ⟨"private-key", privateKey.pattern (by decide +kernel)⟩,
  ⟨"github-token", githubToken.pattern (by decide +kernel)⟩,
  ⟨"aws-access-key", awsAccessKey.pattern (by decide +kernel)⟩,
  ⟨"credential-assignment", credentialAssignment.pattern (by decide +kernel)⟩]

/-! ## Reading -/

/-- `read_chunk`, of a reader that gives these pieces and then ends or breaks. A read gives a piece,
or what there is room for of it; one without bytes is taken for the end. -/
def readChunk (ending : Option String) : ℕ → List Bytes → Except GitError (Bytes × List Bytes)
  | 0, pieces => .ok ([], pieces)
  | _ + 1, [] =>
      match ending with
      | none => .ok ([], [])
      | some cause => .error (.io cause)
  | room + 1, piece :: pieces =>
      if piece.isEmpty then .ok ([], pieces)
      else if room + 1 < piece.length then
        .ok (piece.take (room + 1), piece.drop (room + 1) :: pieces)
      else do
        let (rest, pieces) ← readChunk ending (room + 1 - piece.length) pieces
        .ok (piece ++ rest, pieces)

/-- What is read and what is left is what there was. -/
theorem readChunk_flatten {ending : Option String} {room : ℕ} {pieces left : List Bytes}
    {chunk : Bytes} (h : readChunk ending room pieces = .ok (chunk, left)) :
    chunk ++ left.flatten = pieces.flatten := by
  induction pieces generalizing room chunk with
  | nil =>
      cases room with
      | zero =>
          cases h
          rfl
      | succ room =>
          cases ending with
          | none =>
              cases h
              rfl
          | some cause => cases h
  | cons piece pieces ih =>
      cases room with
      | zero =>
          cases h
          rfl
      | succ room =>
          rw [readChunk] at h
          split at h
          · next hempty =>
            cases h
            rw [List.flatten_cons, List.isEmpty_iff.mp hempty]
          split at h
          · cases h
            rw [List.flatten_cons, List.flatten_cons, ← List.append_assoc, List.take_append_drop]
          · obtain ⟨⟨rest, others⟩, hrest, hok⟩ := Except.bind_eq_ok.mp h
            cases hok
            rw [List.append_assoc, ih hrest, List.flatten_cons]

/-! ## Scanning -/

/-- The variables of a scan: `found`, how many findings it has counted, and the findings. -/
structure Progress where
  found : List (String × ℕ)
  counted : ℕ
  findings : List Finding

/-- The findings counter: `others` is how many the other scans have counted when this one has
counted so many. -/
abbrev Others := ℕ → ℕ

/-- What `scan_reader` fails with beyond the limit. -/
def limitExceeded : GitError :=
  .capacity "scanner finding limit exceeded; review content before retrying"

section Scanning

variable (sha256 : Bytes → Bytes32) (object : String) (others : Others)

/-- The body of the loop over the matches. -/
def scanMatch (name : String) (offset : ℕ) (progress : Progress) (start : ℕ) :
    Except GitError Progress :=
  let position := offset + start
  if (name, position) ∈ progress.found then .ok progress
  else if scanFindingsLimit ≤ others progress.counted + progress.counted then .error limitExceeded
  else .ok {
    found := (name, position) :: progress.found
    counted := progress.counted + 1
    findings := progress.findings ++ [findingAt sha256 object name position] }

/-- The loop over the matches of a rule. -/
def scanMatches (name : String) (offset : ℕ) :
    List ℕ → Progress → Except GitError Progress
  | [], progress => .ok progress
  | start :: starts, progress => do
      let progress ← scanMatch sha256 object others name offset progress start
      scanMatches name offset starts progress

/-- The loop over the rules. -/
def scanRules (window : Bytes) (offset : ℕ) : List Rule → Progress → Except GitError Progress
  | [], progress => .ok progress
  | rule :: rules, progress => do
      let progress ← scanMatches sha256 object others rule.name offset
        ((rule.regex.findIter window).map Prod.fst) progress
      scanRules window offset rules progress

/-- `report.bytes.checked_add`. -/
def addScanned (bytes count : ℕ) : Except GitError ℕ :=
  match checkedAdd bytes count with
  | some bytes => .ok bytes
  | none => .error (.capacity "scanner bytes")

variable (rules : List Rule) (ending : Option String)

/-- The loop of `scan_reader`. -/
def scanLoop (pieces : List Bytes) (carry : Bytes) (offset : ℕ) (progress : Progress)
    (bytes : ℕ) : Except GitError (Progress × ℕ) :=
  match _hread : readChunk ending windowBytes pieces with
  | .error cause => .error cause
  | .ok (chunk, pieces) =>
      if _hempty : chunk = [] then .ok (progress, bytes)
      else
        let window := carry ++ chunk
        let passed := window.length - min window.length carryBytes
        match scanRules sha256 object others window offset rules progress with
        | .error cause => .error cause
        | .ok progress =>
            match addScanned bytes chunk.length with
            | .error cause => .error cause
            | .ok bytes =>
                scanLoop pieces (window.drop passed) (offset + passed) progress bytes
termination_by pieces.flatten.length
decreasing_by
  rw [← readChunk_flatten _hread, List.length_append]
  have hpos := List.length_pos_iff.mpr _hempty
  omega

/-- `scan_reader`. -/
def scanReader (pieces : List Bytes) (report : ScanReport) : Except GitError ScanReport := do
  let (progress, bytes) ← scanLoop sha256 object others rules ending pieces [] 0 ⟨[], 0, []⟩
    report.bytes
  .ok { report with findings := report.findings ++ progress.findings, bytes }

end Scanning

end Urma.Git.Review
