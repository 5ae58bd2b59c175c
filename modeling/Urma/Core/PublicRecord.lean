import Urma.Core.Format
import Urma.Core.Topics

/-!
# Public records

`urma_core::format::PublicRecord`: posts, replies, profiles, avatars, their structured forms and
the records of other profiles. A record is its prefix and a body; the structured kinds write
their topics into the body.
-/

namespace Urma

open Lib.Layout

namespace Format

def maxPublicBytes : ℕ := 32768
def maxProfileBytes : ℕ := 128
def profileIdentifierBytes : ℕ := 8
def avatarBytes : ℕ := 128

end Format

open Format

/-- `PublicRecord`. -/
inductive PublicRecord where
  | post (text : Text)
  | reply (target : Txid) (text : Text)
  | profile (text : Text)
  | avatar (pixels : Vector UInt8 avatarBytes)
  | wirePost (topics : Topics) (text : Text)
  | wireReply (target : Txid) (topics : Topics) (text : Text)
  | profileRecord (profile : Vector UInt8 profileIdentifierBytes) (payload : Bytes)
  deriving DecidableEq

namespace PublicRecord

/-- `PublicRecord::kind`. -/
def kind : PublicRecord → RecordKind
  | post _ => .post
  | reply _ _ => .reply
  | profile _ => .profile
  | avatar _ => .avatar
  | wirePost _ _ => .wirePost
  | wireReply _ _ _ => .wireReply
  | profileRecord _ _ => .profileRecord

/-- `ok_or_else(|| Error::Invalid(message))`. -/
def okOrInvalid {α : Type} (value : Option α) (message : String) : Except Error α :=
  match value with
  | some value => .ok value
  | none => .error (.invalid message)

/-- The first match of `PublicRecord::encode`. -/
def bodySize : PublicRecord → Except Error ℕ
  | post text => .ok text.len
  | profile text => do
      ensure (text.len ≤ maxProfileBytes) "profile body exceeds 128 UTF-8 bytes"
      .ok text.len
  | reply _ text => okOrInvalid (checkedAdd text.len 32) "reply size overflow"
  | avatar pixels => .ok pixels.toList.length
  | profileRecord _ payload =>
      okOrInvalid (checkedAdd payload.length profileIdentifierBytes)
        "profile record size overflow"
  | wirePost _ _ | wireReply _ _ _ => .error (.invalid "structured record handled separately")

/-- The second match of `PublicRecord::encode`. -/
def body : PublicRecord → Except Error Bytes
  | post text | profile text => .ok text.bytes
  | reply target text => .ok (target.bytes.toList ++ text.bytes)
  | avatar pixels => .ok pixels.toList
  | profileRecord identifier payload => .ok (identifier.toList ++ payload)
  | wirePost _ _ | wireReply _ _ _ => .error (.invalid "structured record handled separately")

/-- The body of a structured kind: the target of a reply, then the topics and the text. -/
def encodeStructured (kind : RecordKind) (target : Bytes) (topics : Topics) (text : Text) :
    Except Error Bytes := do
  let body ← topics.encodeBody text
  let bytes := kind.prefixOf ++ (target ++ body)
  ensure (bytes.length ≤ maxPublicBytes) "public record exceeds 32 KiB"
  .ok bytes

/-- The rest of `PublicRecord::encode`, for the kinds that are not structured. -/
def encodePlain (record : PublicRecord) : Except Error Bytes := do
  let bodySize ← record.bodySize
  ensure (bodySize ≤ maxPublicBytes - prefixBytes) "public record exceeds 32 KiB"
  let body ← record.body
  let bytes := record.kind.prefixOf ++ body
  ensure (bytes.length ≤ maxPublicBytes) "public record exceeds 32 KiB"
  .ok bytes

/-- `PublicRecord::encode`. -/
def encode : PublicRecord → Except Error Bytes
  | wirePost topics text => encodeStructured .wirePost [] topics text
  | wireReply target topics text => encodeStructured .wireReply target.bytes.toList topics text
  | record => record.encodePlain

/-- `Txid::from_byte_array(body[..32].try_into()?)`, with what follows it. -/
def takeTarget (body : Bytes) : Except Error (Txid × Bytes) := do
  ensure (32 ≤ body.length) "truncated reply target"
  let target ← tryInto 32 (body.take 32)
  .ok (⟨target⟩, body.drop 32)

/-- The match of `PublicRecord::decode` over the kind. -/
def decodeBody (kind : RecordKind) (body : Bytes) : Except Error PublicRecord :=
  match kind with
  | .post => do
      let text ← Text.fromUtf8 body
      .ok (post text)
  | .profile => do
      ensure (body.length ≤ maxProfileBytes) "profile body exceeds 128 UTF-8 bytes"
      let text ← Text.fromUtf8 body
      .ok (profile text)
  | .reply => do
      let (target, body) ← takeTarget body
      let text ← Text.fromUtf8 body
      .ok (reply target text)
  | .avatar => do
      ensure (body.length == avatarBytes)
        "avatar body must contain exactly 128 packed pixel bytes"
      let pixels ← tryInto avatarBytes body
      .ok (avatar pixels)
  | .profileRecord => do
      ensure (profileIdentifierBytes ≤ body.length) "truncated profile identifier"
      let identifier ← tryInto profileIdentifierBytes (body.take profileIdentifierBytes)
      .ok (profileRecord identifier (body.drop profileIdentifierBytes))
  | .wirePost => do
      let (topics, text) ← Topics.decodeBody body
      .ok (wirePost topics text)
  | .wireReply => do
      let (target, body) ← takeTarget body
      let (topics, text) ← Topics.decodeBody body
      .ok (wireReply target topics text)
  | .privateRecord | .container | .dataPart | .leafManifest | .rootManifest =>
      .error (.invalid "not an atomic public record")

/-- `PublicRecord::decode`. -/
def decode (bytes : Bytes) : Except Error PublicRecord := do
  let kind ← RecordKind.parse bytes
  ensure (bytes.length ≤ maxPublicBytes) "public record exceeds 32 KiB"
  decodeBody kind (bytes.drop prefixBytes)

/-! ## Exactness -/

variable {record : PublicRecord} {bytes : Bytes}

@[simp] theorem okOrInvalid_eq_ok {α : Type} {value : Option α} {message : String} {a : α} :
    okOrInvalid value message = .ok a ↔ value = some a := by
  cases value <;> simp [okOrInvalid]

theorem takeTarget_eq_ok {body rest : Bytes} {target : Txid} :
    takeTarget body = .ok (target, rest) ↔ body = target.bytes.toList ++ rest := by
  simp only [takeTarget, Except.bind_eq_ok, ensure_eq_ok, decide_eq_true_eq, tryInto_eq_ok]
  constructor
  · rintro ⟨_, _, bytes, hbytes, h⟩
    cases h
    rw [← hbytes, List.take_append_drop]
  · rintro rfl
    refine ⟨(), by simp, target.bytes, List.take_left' (by simp), ?_⟩
    rw [List.drop_left' (by simp)]

/-- What is read from bytes of a kind is of that kind, and its body is those bytes. -/
def HasBody (record : PublicRecord) (bytes : Bytes) : Prop :=
  match record with
  | post text => bytes = text.bytes
  | profile text => text.len ≤ maxProfileBytes ∧ bytes = text.bytes
  | reply target text => bytes = target.bytes.toList ++ text.bytes
  | avatar pixels => bytes = pixels.toList
  | wirePost topics text => topics.encodeBody text = .ok bytes
  | wireReply target topics text =>
      ∃ rest, topics.encodeBody text = .ok rest ∧ bytes = target.bytes.toList ++ rest
  | profileRecord identifier payload => bytes = identifier.toList ++ payload

/-- **A body is read back** under its kind, and under no other. -/
theorem decodeBody_eq_ok {kind : RecordKind} {body : Bytes} :
    decodeBody kind body = .ok record ↔ record.kind = kind ∧ record.HasBody body := by
  cases kind with
  | post =>
      simp only [decodeBody, Except.bind_eq_ok, Text.fromUtf8_eq_ok]
      constructor
      · rintro ⟨text, hbody, h⟩
        cases h
        exact ⟨rfl, hbody⟩
      · rintro ⟨hkind, hbody⟩
        cases record <;> cases hkind
        exact ⟨_, hbody, rfl⟩
  | profile =>
      simp only [decodeBody, Except.bind_eq_ok, ensure_eq_ok, decide_eq_true_eq,
        Text.fromUtf8_eq_ok]
      constructor
      · rintro ⟨_, hlength, text, rfl, h⟩
        cases h
        exact ⟨rfl, hlength, rfl⟩
      · rintro ⟨hkind, hbody⟩
        cases record <;> cases hkind
        obtain ⟨hlength, rfl⟩ := hbody
        exact ⟨(), hlength, _, rfl, rfl⟩
  | reply =>
      simp only [decodeBody, Except.bind_eq_ok, Prod.exists, takeTarget_eq_ok,
        Text.fromUtf8_eq_ok]
      constructor
      · rintro ⟨target, _, rfl, text, rfl, h⟩
        cases h
        exact ⟨rfl, rfl⟩
      · rintro ⟨hkind, hbody⟩
        cases record <;> cases hkind
        exact ⟨_, _, hbody, _, rfl, rfl⟩
  | avatar =>
      simp only [decodeBody, Except.bind_eq_ok, ensure_eq_ok, beq_iff_eq, tryInto_eq_ok]
      constructor
      · rintro ⟨_, _, pixels, rfl, h⟩
        cases h
        exact ⟨rfl, rfl⟩
      · rintro ⟨hkind, hbody⟩
        cases record <;> cases hkind
        obtain rfl := hbody
        exact ⟨(), Vector.length_toList, _, rfl, rfl⟩
  | profileRecord =>
      simp only [decodeBody, Except.bind_eq_ok, ensure_eq_ok, decide_eq_true_eq, tryInto_eq_ok]
      constructor
      · rintro ⟨_, _, identifier, hidentifier, h⟩
        cases h
        refine ⟨rfl, ?_⟩
        rw [HasBody, ← hidentifier, List.take_append_drop]
      · rintro ⟨hkind, hbody⟩
        cases record <;> cases hkind
        next identifier payload =>
          obtain rfl := hbody
          have hlength : identifier.toList.length = profileIdentifierBytes :=
            Vector.length_toList
          refine ⟨(), ?_, identifier, List.take_left' hlength, ?_⟩
          · rw [List.length_append, hlength]
            exact Nat.le_add_right _ _
          · rw [List.drop_left' hlength]
  | wirePost =>
      simp only [decodeBody, Except.bind_eq_ok, Prod.exists, Topics.decodeBody_eq_ok]
      constructor
      · rintro ⟨topics, text, hbody, h⟩
        cases h
        exact ⟨rfl, hbody⟩
      · rintro ⟨hkind, hbody⟩
        cases record <;> cases hkind
        exact ⟨_, _, hbody, rfl⟩
  | wireReply =>
      simp only [decodeBody, Except.bind_eq_ok, Prod.exists, takeTarget_eq_ok,
        Topics.decodeBody_eq_ok]
      constructor
      · rintro ⟨target, rest, rfl, topics, text, hbody, h⟩
        cases h
        exact ⟨rfl, rest, hbody, rfl⟩
      · rintro ⟨hkind, hbody⟩
        cases record <;> cases hkind
        obtain ⟨rest, hrest, rfl⟩ := hbody
        exact ⟨_, rest, rfl, _, _, hrest, rfl⟩
  | privateRecord | container | dataPart | leafManifest | rootManifest =>
      constructor
      · intro h
        cases h
      · rintro ⟨hkind, _⟩
        cases record <;> cases hkind

theorem encodeStructured_eq_ok {kind : RecordKind} {target : Bytes} {topics : Topics}
    {text : Text} :
    encodeStructured kind target topics text = .ok bytes ↔
      ∃ body, topics.encodeBody text = .ok body ∧ bytes = kind.prefixOf ++ (target ++ body) ∧
        bytes.length ≤ maxPublicBytes := by
  simp only [encodeStructured, Except.bind_eq_ok, ensure_eq_ok, decide_eq_true_eq]
  constructor
  · rintro ⟨body, hbody, _, hlength, h⟩
    cases h
    exact ⟨body, hbody, rfl, hlength⟩
  · rintro ⟨body, hbody, rfl, hlength⟩
    exact ⟨body, hbody, (), hlength, rfl⟩

/-- The size that is checked first is the size of the body. -/
theorem bodySize_body_iff {size : ℕ} {body : Bytes} (hsize : size ≤ maxPublicBytes)
    (hpost : record.kind ≠ .wirePost) (hreply : record.kind ≠ .wireReply) :
    record.bodySize = .ok size ∧ record.body = .ok body ↔
      size = body.length ∧ record.HasBody body := by
  have hfits : ∀ n, size = n → n ≤ u64Max := by
    intro n hn
    simp only [maxPublicBytes] at hsize
    simp only [u64Max]
    omega
  cases record with
  | post text =>
      simp only [bodySize, PublicRecord.body, HasBody, Except.ok.injEq]
      constructor
      · rintro ⟨rfl, rfl⟩
        exact ⟨rfl, rfl⟩
      · rintro ⟨rfl, rfl⟩
        exact ⟨rfl, rfl⟩
  | reply target text =>
      simp only [bodySize, PublicRecord.body, HasBody, Except.ok.injEq, okOrInvalid_eq_ok,
        checkedAdd_eq_some]
      constructor
      · rintro ⟨⟨_, rfl⟩, rfl⟩
        refine ⟨?_, rfl⟩
        rw [List.length_append, Vector.length_toList, Nat.add_comm]
        rfl
      · rintro ⟨hlength, rfl⟩
        rw [List.length_append, Vector.length_toList, Nat.add_comm] at hlength
        exact ⟨⟨hfits _ hlength, hlength⟩, rfl⟩
  | profile text =>
      simp only [bodySize, PublicRecord.body, HasBody, Except.bind_eq_ok, ensure_eq_ok,
        decide_eq_true_eq, Except.ok.injEq]
      constructor
      · rintro ⟨⟨_, hlength, rfl⟩, rfl⟩
        exact ⟨rfl, hlength, rfl⟩
      · rintro ⟨rfl, hlength, rfl⟩
        exact ⟨⟨(), hlength, rfl⟩, rfl⟩
  | avatar pixels =>
      simp only [bodySize, PublicRecord.body, HasBody, Except.ok.injEq]
      constructor
      · rintro ⟨rfl, rfl⟩
        exact ⟨rfl, rfl⟩
      · rintro ⟨rfl, rfl⟩
        exact ⟨rfl, rfl⟩
  | wirePost topics text => exact absurd rfl hpost
  | wireReply target topics text => exact absurd rfl hreply
  | profileRecord identifier payload =>
      simp only [bodySize, PublicRecord.body, HasBody, Except.ok.injEq, okOrInvalid_eq_ok,
        checkedAdd_eq_some]
      constructor
      · rintro ⟨⟨_, rfl⟩, rfl⟩
        refine ⟨?_, rfl⟩
        rw [List.length_append, Vector.length_toList, Nat.add_comm]
      · rintro ⟨hlength, rfl⟩
        rw [List.length_append, Vector.length_toList, Nat.add_comm] at hlength
        exact ⟨⟨hfits _ hlength, hlength⟩, rfl⟩

theorem encodePlain_eq_ok (hpost : record.kind ≠ .wirePost) (hreply : record.kind ≠ .wireReply) :
    record.encodePlain = .ok bytes ↔ ∃ body, record.HasBody body ∧
      bytes = record.kind.prefixOf ++ body ∧ bytes.length ≤ maxPublicBytes := by
  simp only [encodePlain, Except.bind_eq_ok, ensure_eq_ok, decide_eq_true_eq]
  constructor
  · rintro ⟨size, hsize, _, hcap, body, hbody, _, hlength, h⟩
    cases h
    have hwithin : size ≤ maxPublicBytes := by omega
    exact ⟨body, ((bodySize_body_iff hwithin hpost hreply).mp ⟨hsize, hbody⟩).2, rfl, hlength⟩
  · rintro ⟨body, hbody, rfl, hlength⟩
    have hcap : body.length ≤ maxPublicBytes - prefixBytes := by
      rw [List.length_append, RecordKind.prefixOf_length] at hlength
      omega
    have hwithin : body.length ≤ maxPublicBytes := by omega
    obtain ⟨hsize, hwritten⟩ :=
      (bodySize_body_iff hwithin hpost hreply).mpr ⟨rfl, hbody⟩
    exact ⟨body.length, hsize, (), hcap, body, hwritten, (), hlength, rfl⟩

/-- **What a record is written as**: its prefix and its body, within the cap. -/
theorem encode_eq_ok :
    record.encode = .ok bytes ↔ ∃ body, record.HasBody body ∧
      bytes = record.kind.prefixOf ++ body ∧ bytes.length ≤ maxPublicBytes := by
  cases record with
  | wirePost topics text => exact encodeStructured_eq_ok
  | wireReply target topics text =>
      show encodeStructured .wireReply target.bytes.toList topics text = .ok bytes ↔ _
      rw [encodeStructured_eq_ok]
      constructor
      · rintro ⟨rest, hrest, hbytes, hlength⟩
        exact ⟨_, ⟨rest, hrest, rfl⟩, hbytes, hlength⟩
      · rintro ⟨_, ⟨rest, hrest, rfl⟩, hbytes, hlength⟩
        exact ⟨rest, hrest, hbytes, hlength⟩
  | post text => exact encodePlain_eq_ok RecordKind.noConfusion RecordKind.noConfusion
  | reply target text => exact encodePlain_eq_ok RecordKind.noConfusion RecordKind.noConfusion
  | profile text => exact encodePlain_eq_ok RecordKind.noConfusion RecordKind.noConfusion
  | avatar pixels => exact encodePlain_eq_ok RecordKind.noConfusion RecordKind.noConfusion
  | profileRecord identifier payload =>
      exact encodePlain_eq_ok RecordKind.noConfusion RecordKind.noConfusion

/-- What decodes are the bytes of a kind and a body of it, within the cap. -/
theorem decode_eq_ok :
    decode bytes = .ok record ↔ ∃ body, record.HasBody body ∧
      bytes = record.kind.prefixOf ++ body ∧ bytes.length ≤ maxPublicBytes := by
  simp only [decode, Except.bind_eq_ok, ensure_eq_ok, decide_eq_true_eq, decodeBody_eq_ok]
  constructor
  · rintro ⟨kind, hkind, _, hlength, rfl, hbody⟩
    exact ⟨_, hbody, RecordKind.eq_prefixOf_append hkind, hlength⟩
  · rintro ⟨body, hbody, rfl, hlength⟩
    refine ⟨record.kind, RecordKind.parse_eq_ok.mpr ⟨body, rfl⟩, (), hlength, rfl, ?_⟩
    rw [List.drop_left' (RecordKind.prefixOf_length _)]
    exact hbody

/-- **The codec of public records is a bijection** between the records that encode and the byte
strings that decode, so that no record has a second encoding. -/
theorem public_codec_bijective :
    (∀ (record : PublicRecord) (bytes : Bytes),
      record.encode = .ok bytes → decode bytes = .ok record) ∧
    (∀ (bytes : Bytes) (record : PublicRecord),
      decode bytes = .ok record → record.encode = .ok bytes) ∧
    ∀ (a b : Bytes) (record : PublicRecord),
      decode a = .ok record → decode b = .ok record → a = b := by
  refine ⟨?_, ?_, ?_⟩
  · intro record bytes hencode
    exact decode_eq_ok.mpr (encode_eq_ok.mp hencode)
  · intro bytes record hdecode
    exact encode_eq_ok.mpr (decode_eq_ok.mp hdecode)
  · intro a b record ha hb
    have hencodeA := encode_eq_ok.mpr (decode_eq_ok.mp ha)
    have hencodeB := encode_eq_ok.mpr (decode_eq_ok.mp hb)
    exact Except.ok.inj (hencodeA.symm.trans hencodeB)

end PublicRecord

end Urma
