import Urma.Core.Bytes

/-!
# The URMA record format

`urma_core::format`: the eight-byte prefix every record starts with, the kinds of record, the
content types of a private file, and how many chunks a private file takes. Public records have
their own bodies and are not part of this module.
-/

namespace Urma

/-! ## Constants -/

namespace Format

/-- `Urma::MAGIC`, the bytes of `URMA`. -/
def magic : Bytes := [85, 82, 77, 65]

/-- `Urma::VERSION`. -/
def version : UInt8 := 0

def prefixBytes : ℕ := 8
def chunkBytes : ℕ := 32768
def privateHeaderBytes : ℕ := 64
def metadataBytes : ℕ := 48
def bodyOffset : ℕ := 80
def bodyBytes : ℕ := 32816
def macOffset : ℕ := 32896
def privateRecordBytes : ℕ := 32928
def maxPrivateBytes : ℕ := 140737488322560
def containerHeaderBytes : ℕ := 12

def contentDomain : Bytes := "URMA/V0/private/content".toUTF8.toList
def authenticationDomain : Bytes := "URMA/V0/private/authentication".toUTF8.toList
def discoveryDomain : Bytes := "URMA/V0/private/discovery".toUTF8.toList

end Format

/-! ## Record kinds -/

/-- `RecordKind`. -/
inductive RecordKind where
  | privateRecord
  | post
  | container
  | reply
  | profile
  | avatar
  | dataPart
  | leafManifest
  | rootManifest
  | wirePost
  | wireReply
  | profileRecord
  deriving DecidableEq, Repr

namespace RecordKind

/-- `RecordKind::byte`. -/
def byte : RecordKind → UInt8
  | privateRecord => 1
  | post => 2
  | container => 3
  | reply => 4
  | profile => 5
  | avatar => 6
  | dataPart => 7
  | leafManifest => 8
  | rootManifest => 9
  | wirePost => 10
  | wireReply => 11
  | profileRecord => 12

/-- `RecordKind::prefix`. -/
def prefixOf (kind : RecordKind) : Bytes :=
  Format.magic ++ [Format.version, kind.byte, 0, 0]

/-- The last match of `RecordKind::parse`. -/
def ofByte (byte : UInt8) : Except Error RecordKind :=
  match byte.toNat with
  | 1 => .ok privateRecord
  | 2 => .ok post
  | 3 => .ok container
  | 4 => .ok reply
  | 5 => .ok profile
  | 6 => .ok avatar
  | 7 => .ok dataPart
  | 8 => .ok leafManifest
  | 9 => .ok rootManifest
  | 10 => .ok wirePost
  | 11 => .ok wireReply
  | 12 => .ok profileRecord
  | kind => .error (.unsupported s!"unsupported URMA kind {kind}")

/-- `RecordKind::parse`. The indices are in range once the length check has passed. -/
def parse (bytes : Bytes) : Except Error RecordKind := do
  ensure (Format.prefixBytes ≤ bytes.length) "truncated URMA prefix"
  ensureSupported (bytes.take 4 == Format.magic) "unsupported record marker"
  ensureSupported (bytes.getD 4 0 == Format.version) "unsupported URMA version"
  ensureSupported ((bytes.drop 6).take 2 == [0, 0]) "unsupported URMA flags"
  ofByte (bytes.getD 5 0)

@[simp] theorem prefixOf_length (kind : RecordKind) :
    kind.prefixOf.length = Format.prefixBytes := by
  cases kind <;> rfl

theorem ofByte_eq_ok {byte : UInt8} {kind : RecordKind} :
    ofByte byte = .ok kind ↔ byte = kind.byte := by
  constructor
  · intro h
    rw [ofByte] at h
    rw [← UInt8.toNat_inj]
    split at h
    case h_13 => cases h
    all_goals next hbyte => cases h; rw [hbyte]; rfl
  · intro h
    rw [h]
    cases kind <;> rfl

/-- **What parses as a kind** is what starts with the prefix of that kind. -/
theorem parse_eq_ok {bytes : Bytes} {kind : RecordKind} :
    parse bytes = .ok kind ↔ ∃ rest, bytes = kind.prefixOf ++ rest := by
  constructor
  · intro h
    simp only [parse, Except.bind_eq_ok, ensure_eq_ok, ensureSupported_eq_ok,
      decide_eq_true_eq, beq_iff_eq, ofByte_eq_ok] at h
    obtain ⟨_, hlength, _, hmagic, _, hversion, _, hflags, hkind⟩ := h
    refine ⟨bytes.drop 8, ?_⟩
    rcases bytes with _ | ⟨m₀, _ | ⟨m₁, _ | ⟨m₂, _ | ⟨m₃, _ | ⟨v, _ | ⟨k, _ | ⟨f₀, _ |
      ⟨f₁, rest⟩⟩⟩⟩⟩⟩⟩⟩
    iterate 8 · simp [Format.prefixBytes] at hlength
    · have hm : [m₀, m₁, m₂, m₃] = [85, 82, 77, 65] := hmagic
      have hv : v = Format.version := hversion
      have hf : [f₀, f₁] = [0, 0] := hflags
      have hk : k = kind.byte := hkind
      cases hm
      cases hf
      rw [hv, hk]
      rfl
  · rintro ⟨rest, rfl⟩
    cases kind <;> rfl

/-- Bytes of a kind are its prefix and what follows it. -/
theorem eq_prefixOf_append {bytes : Bytes} {kind : RecordKind} (h : parse bytes = .ok kind) :
    bytes = kind.prefixOf ++ bytes.drop Format.prefixBytes := by
  obtain ⟨rest, rfl⟩ := parse_eq_ok.mp h
  rw [List.drop_left' (prefixOf_length kind)]

theorem parse_onlyRefuses (bytes : Bytes) : OnlyRefuses (parse bytes) := by
  apply OnlyRefuses.bind (OnlyRefuses.ensure _ _)
  intro _ _
  apply OnlyRefuses.bind (OnlyRefuses.ensureSupported _ _)
  intro _ _
  apply OnlyRefuses.bind (OnlyRefuses.ensureSupported _ _)
  intro _ _
  apply OnlyRefuses.bind (OnlyRefuses.ensureSupported _ _)
  intro _ _ error h
  rw [ofByte] at h
  split at h
  case h_13 => cases h; exact ⟨_, Or.inr rfl⟩
  all_goals cases h

end RecordKind

/-! ## Content types -/

/-- `ContentType`. -/
inductive ContentType where
  | opaqueContent
  | text
  | image
  | audio
  | video
  deriving DecidableEq, Repr

namespace ContentType

/-- `ContentType::code`. -/
def code : ContentType → ℕ
  | opaqueContent => 0
  | text => 1
  | image => 2
  | audio => 3
  | video => 4

/-- `ContentType::from_code`. -/
def fromCode : ℕ → Except Error ContentType
  | 0 => .ok opaqueContent
  | 1 => .ok text
  | 2 => .ok image
  | 3 => .ok audio
  | 4 => .ok video
  | value => .error (.unsupported s!"unsupported private content type {value}")

@[simp] theorem fromCode_code (contentType : ContentType) :
    fromCode contentType.code = .ok contentType := by
  cases contentType <;> rfl

theorem code_lt (contentType : ContentType) : contentType.code < 256 ^ 4 := by
  cases contentType <;> decide

theorem fromCode_onlyRefuses (value : ℕ) : OnlyRefuses (fromCode value) := by
  intro error h
  rw [fromCode.eq_def] at h
  split at h
  case h_6 => cases h; exact ⟨_, Or.inr rfl⟩
  all_goals cases h

end ContentType

/-! ## Chunks of a private file -/

/-- `chunk_count`. The quotient of a length within bounds always fits a `u32`. -/
def chunkCount (length : ℕ) : Except Error ℕ := do
  ensure (1 ≤ length && length ≤ Format.maxPrivateBytes)
    "private length outside representational bounds"
  tryU32 ((length + Format.chunkBytes - 1) / Format.chunkBytes)

/-- **The number of chunks**: each is full but the last, which is not empty. -/
theorem chunkCount_eq_ok {length count : ℕ} :
    chunkCount length = .ok count ↔
      1 ≤ length ∧ length ≤ Format.maxPrivateBytes ∧
        count = (length + Format.chunkBytes - 1) / Format.chunkBytes := by
  have hmax : Format.maxPrivateBytes = 140737488322560 := rfl
  have hu32 : u32Max = 4294967295 := rfl
  simp only [chunkCount, Except.bind_eq_ok, ensure_eq_ok, tryU32_eq_ok, Bool.and_eq_true,
    decide_eq_true_eq]
  constructor
  · rintro ⟨_, hlength, _, hcount⟩
    exact ⟨hlength.1, hlength.2, hcount⟩
  · rintro ⟨hpos, hle, hcount⟩
    refine ⟨(), ⟨hpos, hle⟩, ?_, hcount⟩
    simp only [Format.chunkBytes, hu32]
    omega

/-- A chunk count that was computed is positive and fits a `u32`. -/
theorem chunkCount_bounds {length count : ℕ} (h : chunkCount length = .ok count) :
    0 < count ∧ count ≤ u32Max := by
  obtain ⟨hpos, hle, hcount⟩ := chunkCount_eq_ok.mp h
  simp only [Format.chunkBytes, Format.maxPrivateBytes, u32Max] at hle hcount ⊢
  omega

/-- Every chunk below the count starts inside the file. -/
theorem chunk_start_lt {length count index : ℕ} (h : chunkCount length = .ok count)
    (hindex : index < count) : index * Format.chunkBytes < length := by
  obtain ⟨hpos, hle, hcount⟩ := chunkCount_eq_ok.mp h
  simp only [Format.chunkBytes] at hcount ⊢
  omega

theorem chunkCount_onlyRefuses (length : ℕ) : OnlyRefuses (chunkCount length) := by
  intro error h
  by_cases hbounds : 1 ≤ length ∧ length ≤ Format.maxPrivateBytes
  · rw [chunkCount_eq_ok.mpr ⟨hbounds.1, hbounds.2, rfl⟩] at h
    cases h
  · have hcondition : (1 ≤ length && length ≤ Format.maxPrivateBytes : Bool) = false := by
      rw [Bool.eq_false_iff]
      intro htrue
      apply hbounds
      simpa using htrue
    rw [chunkCount, hcondition] at h
    cases h
    exact ⟨_, Or.inl rfl⟩

end Urma
