import Urma.Lib.Layout
import Urma.Lib.Reader
import Urma.Web.Grammar

/-!
# The package of a site

`urma_web::package`: a header with counts, a directory of the files, the table of the pinned
objects, and the bytes of the files one after another. The hash of the source is a parameter.
-/

namespace Urma.Web

open Lib.Layout Lib.Reader

/-! ## Data -/

/-- `FileEntry`. -/
structure FileEntry where
  path : Text
  mime : Text
  sha256 : Bytes32
  bytes : Bytes
  deriving DecidableEq

/-- `PinnedEntry`. -/
structure PinnedEntry where
  path : Text
  mime : Text
  rootTxid : Txid
  payloadSha256 : Bytes32
  deriving DecidableEq

/-- `Package`. -/
structure Package where
  label : Text
  entry : ℕ
  files : List FileEntry
  pinned : List PinnedEntry
  deriving DecidableEq

/-- `Resource`. -/
inductive Resource where
  | file (file : FileEntry)
  | pinned (pin : PinnedEntry)
  | undeclared
  deriving DecidableEq

/-- `usize::MAX` of a 64-bit host. -/
def usizeMax : ℕ := 2 ^ 64 - 1

/-! ## The cursor -/

namespace Cursor

/-- `Cursor::take`, on what is left of `total` bytes. The source tests for overflow first; a slice
within bounds does not overflow. -/
def take (total length : ℕ) : Read WebError Bytes := fun rest =>
  if length ≤ rest.length then .ok (rest.take length, rest.drop length)
  else if usizeMax < total - rest.length + length then .error (.invalid "package offset overflow")
  else .error (.invalid "truncated package")

/-- `Cursor::u8`, `Cursor::u16` and `Cursor::u64`, by their width. -/
def number (total width : ℕ) : Read WebError ℕ := fun rest => do
  let (bytes, rest) ← take total width rest
  .ok (fromLe bytes, rest)

/-- `Cursor::text`. -/
def text (total length : ℕ) : Read WebError Text := fun rest => do
  let (bytes, rest) ← take total length rest
  let text ← protocol (Text.fromUtf8 bytes)
  .ok (text, rest)

/-- `Cursor::array`. -/
def array (total : ℕ) : Read WebError Bytes32 := fun rest => do
  let (bytes, rest) ← take total 32 rest
  let array ← protocol (tryInto 32 bytes)
  .ok (array, rest)

end Cursor

/-- `integer::try_from`, into `width` bytes. -/
def tryWidth (width value : ℕ) : Except WebError ℕ :=
  if value < 256 ^ width then .ok value else .error .integer

@[simp] theorem tryWidth_eq_ok {width value result : ℕ} :
    tryWidth width value = .ok result ↔ value < 256 ^ width ∧ result = value := by
  rw [tryWidth]
  split
  · next h => simp [h, eq_comm]
  · next h => simp [h]

namespace Package

/-- `Package::PROFILE`. -/
def profile : Vector UInt8 8 := #v[85, 82, 77, 65, 87, 69, 66, 49]

/-- `Package::REVISION`. -/
def revision : ℕ := 2

variable (sha256 : Bytes → Bytes32)

/-! ## Validation -/

/-- `windows(2)`, each pair in strict order. -/
def ascending : List Text → Bool
  | first :: second :: rest => first.below second && ascending (second :: rest)
  | _ => true

/-- The loop of `validate` over the files. The state is the set of the paths so far. -/
def validateFiles : List FileEntry → List Text → Except WebError (List Text)
  | [], paths => .ok paths
  | file :: files, paths => do
      validatePath file.path
      validateMime file.mime
      ensureWeb (sha256 file.bytes == file.sha256) (.invalidText "file hash mismatch: " file.path)
      ensureWeb (!paths.contains file.path) (.invalidText "duplicate path: " file.path)
      validateFiles files (file.path :: paths)

/-- The loop of `validate` over the pinned objects. -/
def validatePins : List PinnedEntry → List Text → Except WebError Unit
  | [], _ => .ok ()
  | pin :: pins, paths => do
      validatePath pin.path
      validateMime pin.mime
      ensureWeb (!paths.contains pin.path) (.invalidText "duplicate path: " pin.path)
      validatePins pins (pin.path :: paths)

/-- `Package::validate`. -/
def validate (package : Package) : Except WebError Unit := do
  validateLabel package.label
  ensureWeb (!package.files.isEmpty && package.files.length ≤ u16Max)
    (.invalid "package must declare 1..65535 files")
  ensureWeb (package.pinned.length ≤ u16Max) (.invalid "package declares too many pinned objects")
  match package.files[package.entry]? with
  | none => .error (.invalid "entry index outside the files table")
  | some entry => do
      ensureWeb (isEntryMime entry.mime)
        (.invalidText "entry document must be text/html: " entry.mime)
      let paths ← validateFiles sha256 package.files []
      validatePins package.pinned paths
      ensureWeb (ascending (package.files.map FileEntry.path))
        (.invalid "files must be sorted by path bytes")
      ensureWeb (ascending (package.pinned.map PinnedEntry.path))
        (.invalid "pinned objects must be sorted by path bytes")

/-! ## Construction -/

/-- The order of `sort_by`. -/
def atMost (left right : Text) : Bool :=
  (compare left.bytes right.bytes).isLE

/-- `Package::build`. -/
def build (label entry : Text) (files : List FileEntry) (pinned : List PinnedEntry) :
    Except WebError Package := do
  let files := files.mergeSort fun left right => atMost left.path right.path
  let pinned := pinned.mergeSort fun left right => atMost left.path right.path
  let files := files.map fun file => { file with sha256 := sha256 file.bytes }
  match files.findIdx? fun file => file.path == entry with
  | none => .error (.missingText entry)
  | some index => do
      let index ← tryWidth 2 index
      let package : Package := { label, entry := index, files, pinned }
      validate sha256 package
      .ok package

/-! ## Encoding -/

/-- A text after its length. -/
def encodeText (width : ℕ) (text : Text) : Except WebError Bytes := do
  let length ← tryWidth width text.len
  .ok (toLe width length ++ text.bytes)

/-- The directory entry of a file. -/
def encodeFile (file : FileEntry) : Except WebError Bytes := do
  let path ← encodeText 2 file.path
  let mime ← encodeText 1 file.mime
  let length ← tryWidth 8 file.bytes.length
  .ok (path ++ (mime ++ (toLe 8 length ++ file.sha256.toList)))

/-- The entry of a pinned object. -/
def encodePin (pin : PinnedEntry) : Except WebError Bytes := do
  let path ← encodeText 2 pin.path
  let mime ← encodeText 1 pin.mime
  .ok (path ++ (mime ++ (pin.rootTxid.bytes.toList ++ pin.payloadSha256.toList)))

/-- `Package::encode`. -/
def encode (package : Package) : Except WebError Bytes := do
  validate sha256 package
  let fileCount ← tryWidth 2 package.files.length
  let pinnedCount ← tryWidth 2 package.pinned.length
  let label ← encodeText 1 package.label
  let directory ← package.files.mapM encodeFile
  let pinned ← package.pinned.mapM encodePin
  .ok (toLe 1 revision ++ ([0] ++ (toLe 2 fileCount ++ (toLe 2 pinnedCount ++
    (toLe 2 package.entry ++ (label ++ (directory.flatten ++ (pinned.flatten ++
      package.files.flatMap FileEntry.bytes))))))))

/-! ## Decoding -/

/-- A text after its length. -/
def readText (total width : ℕ) : Read WebError Text := fun rest => do
  let (length, rest) ← Cursor.number total width rest
  Cursor.text total length rest

/-- A line of the directory. -/
structure DirectoryEntry where
  path : Text
  mime : Text
  length : ℕ
  sha256 : Bytes32

/-- The body of the first loop of `decode`. -/
def readFile (total : ℕ) : Read WebError DirectoryEntry := fun rest => do
  let (path, rest) ← readText total 2 rest
  let (mime, rest) ← readText total 1 rest
  let (length, rest) ← Cursor.number total 8 rest
  let (sha256, rest) ← Cursor.array total rest
  .ok ({ path, mime, length, sha256 }, rest)

/-- The body of the second loop of `decode`. -/
def readPin (total : ℕ) : Read WebError PinnedEntry := fun rest => do
  let (path, rest) ← readText total 2 rest
  let (mime, rest) ← readText total 1 rest
  let (rootTxid, rest) ← Cursor.array total rest
  let (payloadSha256, rest) ← Cursor.array total rest
  .ok ({ path, mime, rootTxid := ⟨rootTxid⟩, payloadSha256 }, rest)

/-- The third loop of `decode`: the bytes of each file of the directory. -/
def readContents (total : ℕ) : List DirectoryEntry → Read WebError (List FileEntry)
  | [], rest => .ok ([], rest)
  | entry :: directory, rest => do
      let (bytes, rest) ← Cursor.take total entry.length rest
      let (files, rest) ← readContents total directory rest
      .ok (⟨entry.path, entry.mime, entry.sha256, bytes⟩ :: files, rest)

/-- `Package::decode`. -/
def decode (bytes : Bytes) : Except WebError Package := do
  let total := bytes.length
  let (found, rest) ← Cursor.number total 1 bytes
  ensureWeb (found == revision)
    (.protocol (.unsupported s!"unsupported web package revision {found}"))
  let (flags, rest) ← Cursor.number total 1 rest
  ensureWeb (flags == 0) (.invalid "reserved package flags")
  let (fileCount, rest) ← Cursor.number total 2 rest
  let (pinnedCount, rest) ← Cursor.number total 2 rest
  let (entry, rest) ← Cursor.number total 2 rest
  let (label, rest) ← readText total 1 rest
  let (directory, rest) ← readMany (readFile total) fileCount rest
  let (pinned, rest) ← readMany (readPin total) pinnedCount rest
  let (files, rest) ← readContents total directory rest
  ensureWeb rest.isEmpty (.invalid "trailing package bytes")
  let package : Package := { label, entry, files, pinned }
  validate sha256 package
  .ok package

/-! ## Resolution -/

/-- `Package::resolve`. -/
def resolve (package : Package) (urlPath : Text) : Resource :=
  match wanted urlPath with
  | .entry =>
      match package.files[package.entry]? with
      | some entry => .file entry
      | none => .undeclared
  | .unresolvable => .undeclared
  | .path path =>
      match package.files.find? fun file => file.path.bytes == path with
      | some file => .file file
      | none =>
          match package.pinned.find? fun pin => pin.path.bytes == path with
          | some pin => .pinned pin
          | none => .undeclared

end Package

end Urma.Web
