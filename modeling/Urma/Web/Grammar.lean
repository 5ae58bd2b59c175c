import Urma.Core.Text

/-!
# The grammar of a site

`urma_web::grammar`: what the paths, the media types and the label of a package may be, and which
path a request asks for. A pattern of the source is ASCII, so a text is split at its bytes.
-/

namespace Urma.Web

/-! ## Errors -/

/-- `urma_io::Error`, as far as a bounded read returns it. -/
inductive FilesError where
  | open (message : String)
  | limitOverflow
  | tooLarge (limit : ℕ)
  deriving DecidableEq

/-- `WebError`. A message that quotes a text, or the pinned object it is about, has it apart. -/
inductive WebError where
  | protocol (cause : Error)
  | io (message : String)
  | files (cause : FilesError)
  | json (message : String)
  | integer
  | hash (message : String)
  | transaction (message : String)
  | invalid (message : String)
  | invalidText (message : String) (text : Text)
  | invalidKey (message key : String)
  | missingText (text : Text)
  | pinMissing (path : Text) (rootTxid : Txid)
  | pinCorrupt (path : Text) (rootTxid : Txid) (cause : WebError)
  deriving DecidableEq

/-- `ensure_web!`. -/
def ensureWeb (condition : Bool) (error : WebError) : Except WebError Unit :=
  if condition then .ok () else .error error

@[simp] theorem ensureWeb_eq_ok {condition : Bool} {error : WebError} {u : Unit} :
    ensureWeb condition error = .ok u ↔ condition = true := by
  cases condition <;> simp [ensureWeb]

/-- `From<urma_core::error::Error>`. -/
def protocol {α : Type} (result : Except Error α) : Except WebError α :=
  match result with
  | .ok value => .ok value
  | .error cause => .error (.protocol cause)

@[simp] theorem protocol_eq_ok {α : Type} {result : Except Error α} {value : α} :
    protocol result = .ok value ↔ result = .ok value := by
  cases result <;> simp [protocol]

/-- The bytes of an ASCII literal. -/
def ascii (literal : String) : Bytes :=
  literal.toList.map fun char => UInt8.ofNat char.toNat

/-! ## Bounds -/

namespace Grammar

def maxPathBytes : ℕ := 65535
def maxMimeBytes : ℕ := 255
def maxLabelBytes : ℕ := 64
def charsetParameter : Bytes := ascii "charset=utf-8"
def entryMime : Bytes := ascii "text/html"

end Grammar

/-! ## Paths -/

/-- `u8::is_ascii_alphanumeric`. -/
def isAlphanumeric (byte : UInt8) : Bool :=
  (48 ≤ byte && byte ≤ 57) || (65 ≤ byte && byte ≤ 90) || (97 ≤ byte && byte ≤ 122)

/-- One segment, in the loop of `validate_path`. -/
def validateSegment (path : Text) (segment : Bytes) : Except WebError Unit := do
  ensureWeb (!segment.isEmpty) (.invalidText "path segments cannot be empty: " path)
  ensureWeb (segment != ascii "." && segment != ascii "..")
    (.invalidText "path segments cannot be . or ..: " path)
  ensureWeb (segment.all fun byte => isAlphanumeric byte || (ascii "._~-").contains byte)
    (.invalidText "path bytes must be URL-unreserved ASCII: " path)

/-- `validate_path`. -/
def validatePath (path : Text) : Except WebError Unit := do
  ensureWeb (1 ≤ path.len && path.len ≤ Grammar.maxPathBytes)
    (.invalid "path must be 1..65535 bytes (u16 path_len)")
  (path.bytes.splitOn 47).forM (validateSegment path)

/-! ## Media types -/

/-- A token of a media type, in the last loop of `validate_mime`. -/
def validateToken (mime : Text) (token : Bytes) : Except WebError Unit :=
  ensureWeb (!token.isEmpty && token.all fun byte =>
      (97 ≤ byte && byte ≤ 122) || (48 ≤ byte && byte ≤ 57) || (ascii "!#$&^_.+-").contains byte)
    (.invalidText "mime tokens are lowercase ASCII token characters: " mime)

/-- `str::split_once` at a byte. -/
def splitOnce (separator : UInt8) (bytes : Bytes) : Option (Bytes × Bytes) :=
  if separator ∈ bytes then
    some (bytes.takeWhile (· != separator), (bytes.dropWhile (· != separator)).drop 1)
  else none

/-- `validate_mime`. -/
def validateMime (mime : Text) : Except WebError Unit := do
  ensureWeb (1 ≤ mime.len && mime.len ≤ Grammar.maxMimeBytes)
    (.invalid "mime must be 1..255 bytes (u8 mime_len)")
  match mime.bytes.splitOn 59 with
  | [] => .error (.invalid "empty mime")
  | essence :: parameters => do
      parameters.forM fun parameter => ensureWeb (parameter == Grammar.charsetParameter)
        (.invalidText "mime parameters are limited to ;charset=utf-8: " mime)
      ensureWeb (parameters.length ≤ 1) (.invalid "mime carries one parameter at most")
      match splitOnce 47 essence with
      | none => .error (.invalidText "mime must be type/subtype: " mime)
      | some (kind, subtype) => [kind, subtype].forM (validateToken mime)

/-- `is_entry_mime`. -/
def isEntryMime (mime : Text) : Bool :=
  mime.bytes == Grammar.entryMime ||
    mime.bytes == Grammar.entryMime ++ (ascii ";" ++ Grammar.charsetParameter)

/-! ## Labels -/

/-- `validate_label`. -/
def validateLabel (label : Text) : Except WebError Unit := do
  ensureWeb (label.len ≤ Grammar.maxLabelBytes) (.invalid "label must be at most 64 bytes")
  ensureWeb (label.bytes.all fun byte => 32 ≤ byte && byte ≤ 126)
    (.invalid "label must be printable ASCII")

/-! ## Requests -/

/-- `Wanted`. -/
inductive Wanted where
  | entry
  | path (path : Bytes)
  | unresolvable
  deriving DecidableEq

/-- `wanted`. -/
def wanted (urlPath : Text) : Wanted :=
  match urlPath.bytes with
  | 47 :: relative =>
      if relative.isEmpty then .entry
      else if relative.getLast? = some 47 then .path (relative ++ ascii "index.html")
      else .path relative
  | _ => .unresolvable

end Urma.Web
