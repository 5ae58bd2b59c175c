import Urma.Core.Format
import Urma.Core.Text
import Urma.Names.Payload

/-!
# The payload codec

How a names record is written: a byte for the operation and a body in one of four layouts. What
encodes decodes to the same payload, and what decodes encodes to the same bytes. Keys are parsed
by the `secp256k1` crate, which is a parameter.
-/

namespace Urma.Names

open Lib.Layout

/-! ## Keys -/

/-- `XOnlyPublicKey::from_slice`. -/
abbrev KeyParser := Bytes → Except Error XOnlyPublicKey

/-- A parsed key serializes to the bytes it was parsed from. -/
def KeyParser.Lawful (fromSlice : KeyParser) : Prop :=
  ∀ bytes key, fromSlice bytes = .ok key → key.serialize.toList = bytes

/-- The key is one the crate can hold: its own bytes parse. -/
def KeyParser.Accepts (fromSlice : KeyParser) (key : XOnlyPublicKey) : Prop :=
  fromSlice key.serialize.toList = .ok key

/-! ## Modes -/

namespace Mode

/-- `Mode::byte`. -/
def byte : Mode → UInt8
  | .«open» => 0
  | .administered => 1

/-- `Mode::parse`. -/
def parse (byte : UInt8) : Except Error Mode :=
  match byte.toNat with
  | 0 => .ok .«open»
  | 1 => .ok .administered
  | other => .error (.unsupported s!"unsupported registry mode {other}")

theorem parse_eq_ok {byte : UInt8} {mode : Mode} :
    parse byte = .ok mode ↔ byte = mode.byte := by
  constructor
  · intro h
    rw [parse] at h
    rw [← UInt8.toNat_inj]
    split at h
    case h_3 => cases h
    all_goals next hbyte => cases h; rw [hbyte]; rfl
  · rintro rfl
    cases mode <;> rfl

end Mode

/-! ## Bodies -/

namespace Genesis

/-- `Genesis::RULES`. -/
def rulesVersion : UInt8 := 2

/-- `Genesis::FIXED_BYTES`. -/
def fixedBytes : ℕ := 10

/-- `Genesis::encode`. -/
def encode (self : Genesis) : Except Error Bytes := do
  self.validate
  let count ← tryU8 self.approvers.length
  .ok ([rulesVersion, self.mode.byte] ++ (toLe 4 self.expiryBlocks.toNat ++
    (toLe 2 self.revealMaxBlocks.toNat ++ ([self.threshold, count] ++
      (self.approvers.map fun approver => approver.serialize.toList).flatten))))

/-- `Genesis::decode`. -/
def decode (fromSlice : KeyParser) (body : Bytes) : Except Error Genesis := do
  ensure (fixedBytes ≤ body.length) "truncated genesis"
  ensureSupported (body.getD 0 0 == rulesVersion)
    s!"unsupported registry rules {body.getD 0 0}"
  let count := (body.getD 9 0).toNat
  ensure (body.length == fixedBytes + 32 * count)
    "genesis length does not match the approver count"
  let approvers ← (chunks 32 (body.drop fixedBytes)).mapM fromSlice
  let mode ← Mode.parse (body.getD 1 0)
  let expiry ← tryInto 4 (slice body 2 6)
  let reveal ← tryInto 2 (slice body 6 8)
  let genesis : Genesis :=
    { mode
      expiryBlocks := UInt32.ofNat (fromLe expiry.toList)
      revealMaxBlocks := UInt16.ofNat (fromLe reveal.toList)
      threshold := body.getD 8 0
      approvers }
  genesis.validate
  .ok genesis

end Genesis

namespace OwnerOp

/-- `OwnerOp::FIXED_BYTES`. -/
def fixedBytes : ℕ := 81

/-- `OwnerOp::encode`. -/
def encode (self : OwnerOp) : Except Error Bytes := do
  let length ← tryU8 self.name.bytes.length
  .ok (self.registry.bytes.toList ++ (self.salt.toList ++ ([length] ++ (self.name.bytes ++
    self.target.bytes.toList))))

/-- `OwnerOp::decode`. -/
def decode (body : Bytes) : Except Error OwnerOp := do
  ensure (49 ≤ body.length) "truncated owner record"
  let length := (body.getD 48 0).toNat
  ensure (body.length == fixedBytes + length) "owner record length does not match the name length"
  let text ← Text.fromUtf8 (slice body 49 (49 + length))
  let name ← Name.parse text.bytes
  let registry ← tryInto 32 (body.take 32)
  let salt ← tryInto 16 (slice body 32 48)
  let target ← tryInto 32 (body.drop (49 + length))
  .ok { registry := ⟨registry⟩, salt, name, target := ⟨target⟩ }

end OwnerOp

namespace Approval

/-- `Approval::BODY_BYTES`. -/
def bodyBytes : ℕ := 96

/-- `Approval::encode`. -/
def encode (self : Approval) : Bytes :=
  self.registry.bytes.toList ++ (self.recordTxid.bytes.toList ++ self.recordSha256.toList)

/-- `Approval::decode`. -/
def decode (body : Bytes) : Except Error Approval := do
  ensure (body.length == bodyBytes) "approval must be 97 bytes"
  let registry ← tryInto 32 (body.take 32)
  let recordTxid ← tryInto 32 (slice body 32 64)
  let recordSha256 ← tryInto 32 (body.drop 64)
  .ok { registry := ⟨registry⟩, recordTxid := ⟨recordTxid⟩, recordSha256 }

end Approval

namespace NameOp

/-- `NameOp::FIXED_BYTES`. -/
def fixedBytes : ℕ := 33

/-- `NameOp::encode`. -/
def encode (self : NameOp) : Except Error Bytes := do
  let length ← tryU8 self.name.bytes.length
  .ok (self.registry.bytes.toList ++ ([length] ++ self.name.bytes))

/-- `NameOp::decode`. -/
def decode (body : Bytes) : Except Error NameOp := do
  ensure (fixedBytes ≤ body.length) "truncated name record"
  let length := (body.getD 32 0).toNat
  ensure (body.length == fixedBytes + length) "name record length does not match the name length"
  let registry ← tryInto 32 (body.take 32)
  let text ← Text.fromUtf8 (body.drop fixedBytes)
  let name ← Name.parse text.bytes
  .ok { registry := ⟨registry⟩, name }

end NameOp

/-! ## Payloads -/

/-- `format!("{byte:02x}")`. -/
def hexByte (byte : UInt8) : String :=
  String.ofList [Nat.digitChar (byte.toNat / 16), Nat.digitChar (byte.toNat % 16)]

namespace Payload

/-- `Payload::op`. -/
def op : Payload → UInt8
  | genesis _ => 0
  | claim _ => 1
  | update _ => 2
  | renew _ => 3
  | approve _ => 4
  | suspend _ => 5
  | restore _ => 6

/-- The match of `Payload::encode`. -/
def encodeBody : Payload → Except Error Bytes
  | genesis rules => rules.encode
  | claim op | update op | renew op => op.encode
  | approve approval => .ok approval.encode
  | suspend op | restore op => op.encode

/-- `Payload::encode`. -/
def encode (self : Payload) : Except Error Bytes := do
  let body ← self.encodeBody
  .ok (self.op :: body)

/-- The match of `Payload::decode`. -/
def decodeBody (fromSlice : KeyParser) (op : UInt8) (body : Bytes) : Except Error Payload :=
  match op.toNat with
  | 0 => do
      let rules ← Genesis.decode fromSlice body
      .ok (genesis rules)
  | 1 => do
      let op ← OwnerOp.decode body
      .ok (claim op)
  | 2 => do
      let op ← OwnerOp.decode body
      .ok (update op)
  | 3 => do
      let op ← OwnerOp.decode body
      .ok (renew op)
  | 4 => do
      let approval ← Approval.decode body
      .ok (approve approval)
  | 5 => do
      let op ← NameOp.decode body
      .ok (suspend op)
  | 6 => do
      let op ← NameOp.decode body
      .ok (restore op)
  | _ => .error (.unsupported s!"unsupported names op {hexByte op}")

/-- `Payload::decode`. -/
def decode (fromSlice : KeyParser) (bytes : Bytes) : Except Error Payload :=
  match bytes with
  | [] => .error (.invalid "empty names payload")
  | op :: body => decodeBody fromSlice op body

end Payload

/-! ## Names as texts -/

/-- The text of one character below 128 is its byte. -/
theorem isValidUTF8_singleton {byte : UInt8} (h : byte.toNat < 128) :
    ByteArray.IsValidUTF8 ⟨[byte].toArray⟩ := by
  have hvalid : byte.toNat.isValidChar := Or.inl (by omega)
  have hval : (Char.ofNat byte.toNat).val.toNat = byte.toNat := by
    rw [Char.ofNat, dif_pos hvalid]
    rfl
  have hsize : (Char.ofNat byte.toNat).utf8Size = 1 := by
    rw [Char.utf8Size, if_pos]
    rw [UInt32.le_iff_toNat_le, hval]
    show byte.toNat ≤ 127
    omega
  have hchar : String.utf8EncodeChar (Char.ofNat byte.toNat) = [byte] := by
    rw [String.utf8EncodeChar_eq_singleton hsize]
    congr 1
    rw [← UInt8.toNat_inj]
    show (Char.ofNat byte.toNat).val.toNat % 256 = byte.toNat
    rw [hval]
    omega
  have hencoded := @Char.isValidUTF8_toByteArray_utf8EncodeChar (Char.ofNat byte.toNat)
  rw [hchar] at hencoded
  exact hencoded

/-- Bytes below 128 are the UTF-8 writing of a text. -/
theorem isValidUTF8_of_ascii {bytes : Bytes} (h : ∀ byte ∈ bytes, byte.toNat < 128) :
    ByteArray.IsValidUTF8 ⟨bytes.toArray⟩ := by
  induction bytes with
  | nil => exact ByteArray.isValidUTF8_empty
  | cons byte bytes ih =>
      have hsplit : (⟨(byte :: bytes).toArray⟩ : ByteArray) =
          ⟨[byte].toArray⟩ ++ ⟨bytes.toArray⟩ := by
        ext1
        simp
      rw [hsplit]
      exact (isValidUTF8_singleton (h byte List.mem_cons_self)).append
        (ih fun b hb => h b (List.mem_cons_of_mem byte hb))

namespace Name

/-- The four checks of a name that exists. -/
theorem checked (name : Name) : 1 ≤ name.bytes.length ∧ name.bytes.length ≤ maxBytes ∧
    ∀ byte ∈ name.bytes, isNameByte byte = true := by
  have h := name.parsed
  simp only [check, Except.bind_eq_ok, ensure_eq_ok, Bool.and_eq_true, decide_eq_true_eq,
    List.all_eq_true] at h
  obtain ⟨_, ⟨hpos, hmax⟩, _, hbytes, _⟩ := h
  exact ⟨hpos, hmax, hbytes⟩

theorem isNameByte_lt {byte : UInt8} (h : isNameByte byte = true) : byte.toNat < 128 := by
  simp only [isNameByte, Bool.or_eq_true, Bool.and_eq_true, decide_eq_true_eq, beq_iff_eq,
    UInt8.le_iff_toNat_le] at h
  rcases h with (⟨_, h⟩ | ⟨_, h⟩) | rfl
  · exact Nat.lt_of_le_of_lt h (by decide)
  · exact Nat.lt_of_le_of_lt h (by decide)
  · decide

/-- The name as the `str` it wraps. -/
def text (name : Name) : Text :=
  ⟨name.bytes, isValidUTF8_of_ascii fun byte hbyte => isNameByte_lt (name.checked.2.2 byte hbyte)⟩

/-- **A name is parsed from its own bytes**, and from no others. -/
theorem parse_eq_ok {bytes : Bytes} {name : Name} :
    parse bytes = .ok name ↔ bytes = name.bytes := by
  constructor
  · intro h
    unfold parse at h
    split at h
    · cases h
      rfl
    · cases h
  · rintro rfl
    unfold parse
    split
    · rfl
    · next h =>
        rw [name.parsed] at h
        cases h

/-- The two steps that read a name from bytes. -/
theorem read_eq_ok {bytes : Bytes} {name : Name} :
    (∃ text, Text.fromUtf8 bytes = .ok text ∧ parse text.bytes = .ok name) ↔
      bytes = name.bytes := by
  simp only [Text.fromUtf8_eq_ok, parse_eq_ok]
  constructor
  · rintro ⟨text, hbytes, hname⟩
    exact hbytes.trans hname
  · intro h
    exact ⟨name.text, h, rfl⟩

/-- The byte that stands for the length of a name. -/
theorem length_toNat (name : Name) :
    (UInt8.ofNat name.bytes.length).toNat = name.bytes.length := by
  have hmax := name.checked.2.1
  simp only [maxBytes] at hmax
  exact UInt8.toNat_ofNat_of_lt' (by
    show name.bytes.length < 256
    omega)

theorem tryU8_length (name : Name) :
    tryU8 name.bytes.length = .ok (UInt8.ofNat name.bytes.length) :=
  tryU8_eq_ok.mpr name.length_toNat

end Name

/-! ## Bodies are read back -/

/-- One byte as a slice. -/
theorem slice_one {bytes : Bytes} {i : ℕ} (h : i < bytes.length) :
    slice bytes i (i + 1) = [bytes.getD i 0] := by
  have hget : bytes[i]? = some bytes[i] := List.getElem?_eq_getElem h
  rw [slice, Nat.add_sub_cancel_left, List.drop_eq_getElem_cons h, List.take_succ_cons,
    List.take_zero, List.getD_eq_getElem?_getD, hget, Option.getD_some]

theorem getD_of_slice {bytes : Bytes} {i : ℕ} {byte : UInt8} (h : slice bytes i (i + 1) = [byte]) :
    bytes.getD i 0 = byte := by
  have hlength := congrArg List.length h
  rw [slice_length, List.length_singleton] at hlength
  rw [slice_one (by omega)] at h
  exact List.head_eq_of_cons_eq h

/-- **Approvals are read back** from their 96 bytes, and from no others. -/
theorem Approval.decode_eq_ok {body : Bytes} {approval : Approval} :
    decode body = .ok approval ↔ body = approval.encode := by
  simp only [decode, Except.bind_eq_ok, ensure_eq_ok, beq_iff_eq, tryInto_eq_ok]
  constructor
  · rintro ⟨_, hlength, registry, hregistry, recordTxid, hrecord, recordSha256, hsha256, h⟩
    cases h
    rw [encode, ← hregistry, ← hrecord, ← hsha256,
      ← drop_eq_slice_append (by decide : 32 ≤ 64), List.take_append_drop]
  · rintro rfl
    have hregistry : approval.encode.take 32 = approval.registry.bytes.toList :=
      List.take_left' (by simp)
    have hrecord : slice approval.encode 32 64 = approval.recordTxid.bytes.toList :=
      slice_eq approval.registry.bytes.toList _ approval.recordSha256.toList rfl (by simp)
        (by simp)
    have hsha256 : approval.encode.drop 64 = approval.recordSha256.toList := by
      rw [encode, ← List.append_assoc]
      exact List.drop_left' (by simp)
    exact ⟨(), by simp [encode, bodyBytes], _, hregistry, _, hrecord, _, hsha256, rfl⟩

/-- **Suspensions and restorations are read back** from their bytes, and from no others. -/
theorem NameOp.decode_eq_ok {body : Bytes} {op : NameOp} :
    decode body = .ok op ↔ op.encode = .ok body := by
  simp only [decode, Except.bind_eq_ok, ensure_eq_ok, beq_iff_eq, decide_eq_true_eq,
    tryInto_eq_ok]
  rw [encode, Name.tryU8_length, Except.ok_bind, Except.ok.injEq]
  constructor
  · rintro ⟨_, hfixed, _, hlength, registry, hregistry, hread⟩
    obtain ⟨text, htext, name, hname, h⟩ := hread
    cases h
    have hbytes := Name.read_eq_ok.mp ⟨text, htext, hname⟩
    simp only [fixedBytes] at hfixed hlength hbytes
    have hcount : UInt8.ofNat name.bytes.length = body.getD 32 0 := by
      rw [← UInt8.toNat_inj, name.length_toNat, ← hbytes, List.length_drop]
      omega
    rw [hcount, ← slice_one (by omega), ← hbytes, ← drop_eq_slice_append (by decide : 32 ≤ 33),
      ← hregistry, List.take_append_drop]
  · rintro rfl
    obtain ⟨⟨registry⟩, name⟩ := op
    have hget : ((registry.toList ++ ([UInt8.ofNat name.bytes.length] ++ name.bytes)).getD 32
        0).toNat = name.bytes.length := by
      rw [getD_of_slice (slice_eq registry.toList [UInt8.ofNat name.bytes.length] name.bytes rfl
        (by simp) (by simp)), name.length_toNat]
    have hname : (registry.toList ++ ([UInt8.ofNat name.bytes.length] ++ name.bytes)).drop
        fixedBytes = name.bytes := by
      rw [← List.append_assoc]
      exact List.drop_left' (by simp [fixedBytes])
    obtain ⟨text, htext, hparse⟩ := Name.read_eq_ok.mpr hname
    refine ⟨(), ?_, (), ?_, registry, List.take_left' (by simp), text, htext, name, hparse, rfl⟩
    · simp [fixedBytes]
      omega
    · rw [hget]
      simp [fixedBytes]
      omega

/-- **Claims, updates and renewals are read back** from their bytes, and from no others. -/
theorem OwnerOp.decode_eq_ok {body : Bytes} {op : OwnerOp} :
    decode body = .ok op ↔ op.encode = .ok body := by
  simp only [decode, Except.bind_eq_ok, ensure_eq_ok, beq_iff_eq, decide_eq_true_eq,
    tryInto_eq_ok]
  rw [encode, Name.tryU8_length, Except.ok_bind, Except.ok.injEq]
  constructor
  · rintro ⟨_, hfixed, _, hlength, text, htext, name, hname, registry, hregistry, salt, hsalt,
      target, htarget, h⟩
    cases h
    have hbytes := Name.read_eq_ok.mp ⟨text, htext, hname⟩
    simp only [fixedBytes] at hlength
    have hcount : UInt8.ofNat name.bytes.length = body.getD 48 0 := by
      rw [← UInt8.toNat_inj, name.length_toNat, ← hbytes, slice_length_of_le (by omega)]
      omega
    rw [hcount, ← slice_one (by omega), ← hbytes, ← htarget, ← drop_eq_slice_append (by omega),
      ← drop_eq_slice_append (by decide : 48 ≤ 49), ← hsalt,
      ← drop_eq_slice_append (by decide : 32 ≤ 48), ← hregistry, List.take_append_drop]
  · rintro rfl
    obtain ⟨⟨registry⟩, salt, name, ⟨target⟩⟩ := op
    obtain ⟨body, hbody⟩ : ∃ body, body = registry.toList ++ (salt.toList ++
        ([UInt8.ofNat name.bytes.length] ++ (name.bytes ++ target.toList))) := ⟨_, rfl⟩
    rw [← hbody]
    have hlength : body.length = 81 + name.bytes.length := by
      rw [hbody]
      simp
      omega
    have hget : (body.getD 48 0).toNat = name.bytes.length := by
      rw [getD_of_slice (slice_eq (registry.toList ++ salt.toList) [UInt8.ofNat name.bytes.length]
        (name.bytes ++ target.toList) (by rw [hbody, List.append_assoc]) (by simp) (by simp)),
        name.length_toNat]
    have hname : slice body 49 (49 + name.bytes.length) = name.bytes :=
      slice_eq (registry.toList ++ (salt.toList ++ [UInt8.ofNat name.bytes.length])) name.bytes
        target.toList (by rw [hbody]; simp) (by simp) rfl
    have hsalt : slice body 32 48 = salt.toList :=
      slice_eq registry.toList salt.toList _ hbody (by simp) (by simp)
    have htarget : body.drop (49 + name.bytes.length) = target.toList := by
      rw [hbody, ← List.append_assoc, ← List.append_assoc, ← List.append_assoc]
      exact List.drop_left' (by simp; omega)
    have hregistry : body.take 32 = registry.toList := by
      rw [hbody]
      exact List.take_left' (by simp)
    obtain ⟨text, htext, hparse⟩ := Name.read_eq_ok.mpr hname
    rw [hget]
    exact ⟨(), by omega, (), hlength, text, htext, name, hparse, registry, hregistry, salt, hsalt,
      target, htarget, rfl⟩

/-! ## Rules are read back -/

/-- What the crate accepts, it parses from its own bytes. -/
theorem KeyParser.Lawful.eq_ok {fromSlice : KeyParser} (hlawful : fromSlice.Lawful) (bytes : Bytes)
    (key : XOnlyPublicKey) :
    fromSlice bytes = .ok key ↔ fromSlice.Accepts key ∧ bytes = key.serialize.toList := by
  constructor
  · intro h
    have hbytes := hlawful bytes key h
    refine ⟨?_, hbytes.symm⟩
    rw [KeyParser.Accepts, hbytes]
    exact h
  · rintro ⟨h, rfl⟩
    exact h

theorem length_of_mem_serialize {approvers : List XOnlyPublicKey} :
    ∀ bytes ∈ approvers.map fun approver => approver.serialize.toList, bytes.length = 32 := by
  intro bytes hbytes
  obtain ⟨approver, _, rfl⟩ := List.mem_map.mp hbytes
  exact Vector.length_toList

/-- A whole number of chunks is cut without rest. -/
theorem chunks_flatten_of_forall {size : ℕ} (hsize : 0 < size) {parts : List Bytes}
    (h : ∀ part ∈ parts, part.length = size) : chunks size parts.flatten = parts := by
  rw [chunks_eq hsize, flatten_length_of_forall h, Nat.mul_div_cancel _ hsize,
    Nat.mul_mod_left, if_pos rfl, List.append_nil]
  exact blocks_flatten_of_forall h

namespace Genesis

/-- A field is the writing of the number it is read as. -/
theorem toLe_fromLe_field {width : ℕ} (field : Vector UInt8 width) :
    toLe width (fromLe field.toList) = field.toList := by
  have hwrite := toLe_fromLe field.toList
  rw [Vector.length_toList] at hwrite
  exact hwrite

theorem fromLe_field_lt {width : ℕ} (field : Vector UInt8 width) :
    fromLe field.toList < 256 ^ width := by
  have hlt := fromLe_lt field.toList
  rw [Vector.length_toList] at hlt
  exact hlt

/-- **Rules are read back** from the bytes they are written as, and from no others; their keys are
the crate's. -/
theorem decode_eq_ok {fromSlice : KeyParser} (hlawful : fromSlice.Lawful) {body : Bytes}
    {rules : Genesis} :
    decode fromSlice body = .ok rules ↔
      (∀ approver ∈ rules.approvers, fromSlice.Accepts approver) ∧ rules.encode = .ok body := by
  simp only [decode, encode, Except.bind_eq_ok, ensure_eq_ok, ensureSupported_eq_ok, beq_iff_eq,
    decide_eq_true_eq, tryInto_eq_ok, Mode.parse_eq_ok, tryU8_eq_ok,
    Except.mapM_eq_ok_valid hlawful.eq_ok]
  constructor
  · rintro ⟨_, hfixed, _, hversion, _, hlength, approvers, ⟨haccepts, happrovers⟩, mode, hmode,
      expiry, hexpiry, reveal, hreveal, _, hvalid, h⟩
    cases h
    simp only [fixedBytes] at hfixed hlength happrovers
    refine ⟨haccepts, (), hvalid, body.getD 9 0, ?_, ?_⟩
    · have hcount := congrArg List.length happrovers
      rw [chunks_length, List.length_drop, List.length_map, hlength] at hcount
      show (body.getD 9 0).toNat = approvers.length
      omega
    · have hkeys : (approvers.map fun approver => approver.serialize.toList).flatten =
          body.drop 10 := by
        rw [← happrovers]
        exact chunks_flatten (by decide) _
      have hfirst : [rulesVersion, mode.byte] = slice body 0 1 ++ slice body 1 2 := by
        rw [slice_one (by omega), slice_one (by omega), hversion, hmode]
        rfl
      have hlast : [body.getD 8 0, body.getD 9 0] = slice body 8 9 ++ slice body 9 10 := by
        rw [slice_one (by omega), slice_one (by omega)]
        rfl
      rw [hkeys, UInt32.toNat_ofNat_of_lt' (fromLe_field_lt expiry),
        UInt16.toNat_ofNat_of_lt' (fromLe_field_lt reveal), toLe_fromLe_field, toLe_fromLe_field,
        ← hexpiry, ← hreveal, hfirst, hlast]
      simp only [List.append_assoc]
      rw [← drop_eq_slice_append (by decide : 9 ≤ 10), ← drop_eq_slice_append (by decide : 8 ≤ 9),
        ← drop_eq_slice_append (by decide : 6 ≤ 8), ← drop_eq_slice_append (by decide : 2 ≤ 6),
        ← drop_eq_slice_append (by decide : 1 ≤ 2), ← drop_eq_slice_append (by decide : 0 ≤ 1)]
      rfl
  · rintro ⟨haccepts, _, hvalid, count, hcount, h⟩
    obtain ⟨keys, hkeys⟩ : ∃ keys, keys =
        (rules.approvers.map fun approver => approver.serialize.toList).flatten := ⟨_, rfl⟩
    have hkeysLength : keys.length = 32 * rules.approvers.length := by
      rw [hkeys, flatten_length_of_forall length_of_mem_serialize, List.length_map, Nat.mul_comm]
    rw [Except.ok.injEq, ← hkeys] at h
    have hlength : body.length = 10 + 32 * rules.approvers.length := by
      rw [← h]
      simp [hkeysLength]
      omega
    have hversion : body.getD 0 0 = rulesVersion :=
      getD_of_slice (slice_eq [] [rulesVersion] _ h.symm rfl rfl)
    have hmode : body.getD 1 0 = rules.mode.byte :=
      getD_of_slice (slice_eq [rulesVersion] [rules.mode.byte] _ h.symm rfl rfl)
    have hexpiry : slice body 2 6 = toLe 4 rules.expiryBlocks.toNat :=
      slice_eq [rulesVersion, rules.mode.byte] _ _ h.symm rfl (by simp)
    have hreveal : slice body 6 8 = toLe 2 rules.revealMaxBlocks.toNat :=
      slice_eq ([rulesVersion, rules.mode.byte] ++ toLe 4 rules.expiryBlocks.toNat) _ _
        (by rw [← h, List.append_assoc]) (by simp) (by simp)
    have hthreshold : body.getD 8 0 = rules.threshold :=
      getD_of_slice (slice_eq ([rulesVersion, rules.mode.byte] ++
        (toLe 4 rules.expiryBlocks.toNat ++ toLe 2 rules.revealMaxBlocks.toNat)) [rules.threshold]
        (count :: keys) (by rw [← h]; simp) (by simp) (by simp))
    have hcountByte : body.getD 9 0 = count :=
      getD_of_slice (slice_eq ([rulesVersion, rules.mode.byte] ++
        (toLe 4 rules.expiryBlocks.toNat ++ (toLe 2 rules.revealMaxBlocks.toNat ++
          [rules.threshold]))) [count] keys (by rw [← h]; simp) (by simp) (by simp))
    have hrest : body.drop 10 = keys := by
      rw [← h, ← List.append_assoc, ← List.append_assoc, ← List.append_assoc]
      exact List.drop_left' (by simp)
    obtain ⟨expiry, _, hexpiryField⟩ := tryInto_of_length (n := 4)
      (show (toLe 4 rules.expiryBlocks.toNat).length = 4 from toLe_length _ _)
    obtain ⟨reveal, _, hrevealField⟩ := tryInto_of_length (n := 2)
      (show (toLe 2 rules.revealMaxBlocks.toNat).length = 2 from toLe_length _ _)
    have hexpiryValue : UInt32.ofNat (fromLe expiry.toList) = rules.expiryBlocks := by
      rw [← hexpiryField, fromLe_toLe rules.expiryBlocks.toNat_lt, UInt32.ofNat_toNat]
    have hrevealValue : UInt16.ofNat (fromLe reveal.toList) = rules.revealMaxBlocks := by
      rw [← hrevealField, fromLe_toLe rules.revealMaxBlocks.toNat_lt, UInt16.ofNat_toNat]
    have hchunks : chunks 32 (body.drop fixedBytes) =
        rules.approvers.map fun approver => approver.serialize.toList := by
      show chunks 32 (body.drop 10) = _
      rw [hrest, hkeys]
      exact chunks_flatten_of_forall (by decide) length_of_mem_serialize
    refine ⟨(), by simp only [fixedBytes]; omega, (), hversion, (), ?_, rules.approvers,
      ⟨haccepts, hchunks⟩, rules.mode, hmode, expiry, hexpiry.trans hexpiryField, reveal,
      hreveal.trans hrevealField, (), ?_, ?_⟩
    · rw [hcountByte, hcount, hlength, fixedBytes]
    · rw [hexpiryValue, hrevealValue, hthreshold]
      exact hvalid
    · rw [hexpiryValue, hrevealValue, hthreshold]

end Genesis

/-- **Valid rules can be written.** -/
theorem Genesis.encode_total {rules : Genesis} (h : rules.validate = .ok ()) :
    ∃ bytes, rules.encode = .ok bytes := by
  have hcount : rules.approvers.length ≤ 255 := by
    have hchecks := h
    unfold validate at hchecks
    cases hmode : rules.mode with
    | «open» =>
        rw [((valid_of_validate h).«open» hmode).2]
        exact Nat.zero_le _
    | administered =>
        simp only [hmode, Except.bind_eq_ok, ensure_eq_ok, Bool.and_eq_true,
          decide_eq_true_eq, maxApprovers] at hchecks
        obtain ⟨_, _, _, _, _, hcount, _⟩ := hchecks
        exact of_decide_eq_true hcount.2
  have hbyte : tryU8 rules.approvers.length = .ok (UInt8.ofNat rules.approvers.length) :=
    tryU8_eq_ok.mpr (UInt8.toNat_ofNat_of_lt' (by
      show rules.approvers.length < 256
      omega))
  rw [encode, h, hbyte]
  exact ⟨_, rfl⟩

/-! ## Payloads are read back -/

namespace Payload

/-- The payload is one the source can hold: valid rules, and keys of the crate. -/
def Valid (fromSlice : KeyParser) : Payload → Prop
  | genesis rules => rules.validate = .ok () ∧
      ∀ approver ∈ rules.approvers, fromSlice.Accepts approver
  | claim _ | update _ | renew _ | approve _ | suspend _ | restore _ => True

variable {fromSlice : KeyParser} {payload : Payload} {bytes body : Bytes} {code : UInt8}

/-- **A valid payload can be written.** -/
theorem encodeBody_total (h : payload.Valid fromSlice) :
    ∃ body, payload.encodeBody = .ok body := by
  cases payload with
  | genesis rules => exact Genesis.encode_total h.1
  | claim op | update op | renew op =>
      rw [encodeBody, OwnerOp.encode, Name.tryU8_length]
      exact ⟨_, rfl⟩
  | approve approval => exact ⟨_, rfl⟩
  | suspend op | restore op =>
      rw [encodeBody, NameOp.encode, Name.tryU8_length]
      exact ⟨_, rfl⟩

/-- **A body is read back** under the byte of its operation, and under no other. -/
theorem decodeBody_eq_ok (hlawful : fromSlice.Lawful) :
    decodeBody fromSlice code body = .ok payload ↔
      code = payload.op ∧ payload.Valid fromSlice ∧ payload.encodeBody = .ok body := by
  constructor
  · intro h
    rw [decodeBody] at h
    rw [← UInt8.toNat_inj]
    split at h
    · next hcode =>
        obtain ⟨rules, hrules, h⟩ := Except.bind_eq_ok.mp h
        cases h
        obtain ⟨haccepts, hencode⟩ := (Genesis.decode_eq_ok hlawful).mp hrules
        have hvalid : rules.validate = .ok () := by
          obtain ⟨_, hvalid, _⟩ := Except.bind_eq_ok.mp hencode
          exact hvalid
        exact ⟨hcode, ⟨hvalid, haccepts⟩, hencode⟩
    · next hcode =>
        obtain ⟨op, hop, h⟩ := Except.bind_eq_ok.mp h
        cases h
        exact ⟨hcode, trivial, OwnerOp.decode_eq_ok.mp hop⟩
    · next hcode =>
        obtain ⟨op, hop, h⟩ := Except.bind_eq_ok.mp h
        cases h
        exact ⟨hcode, trivial, OwnerOp.decode_eq_ok.mp hop⟩
    · next hcode =>
        obtain ⟨op, hop, h⟩ := Except.bind_eq_ok.mp h
        cases h
        exact ⟨hcode, trivial, OwnerOp.decode_eq_ok.mp hop⟩
    · next hcode =>
        obtain ⟨approval, happroval, h⟩ := Except.bind_eq_ok.mp h
        cases h
        rw [encodeBody, Approval.decode_eq_ok.mp happroval]
        exact ⟨hcode, trivial, rfl⟩
    · next hcode =>
        obtain ⟨op, hop, h⟩ := Except.bind_eq_ok.mp h
        cases h
        exact ⟨hcode, trivial, NameOp.decode_eq_ok.mp hop⟩
    · next hcode =>
        obtain ⟨op, hop, h⟩ := Except.bind_eq_ok.mp h
        cases h
        exact ⟨hcode, trivial, NameOp.decode_eq_ok.mp hop⟩
    · cases h
  · rintro ⟨rfl, hvalid, hencode⟩
    cases payload with
    | genesis rules =>
        show (Genesis.decode fromSlice body >>= fun rules => Except.ok (genesis rules)) = _
        rw [(Genesis.decode_eq_ok hlawful).mpr ⟨hvalid.2, hencode⟩]
        rfl
    | claim op | update op | renew op =>
        show (OwnerOp.decode body >>= fun _ => Except.ok _) = _
        rw [OwnerOp.decode_eq_ok.mpr hencode]
        rfl
    | approve approval =>
        show (Approval.decode body >>= fun approval => Except.ok (approve approval)) = _
        cases hencode
        rw [Approval.decode_eq_ok.mpr rfl]
        rfl
    | suspend op | restore op =>
        show (NameOp.decode body >>= fun _ => Except.ok _) = _
        rw [NameOp.decode_eq_ok.mpr hencode]
        rfl

/-- **The payload codec is a bijection** between the valid payloads and the byte strings that
decode: a valid payload is written and read back, and what is read is valid and written as it
was. -/
theorem payload_codec_bijective (hlawful : fromSlice.Lawful) :
    (∀ payload : Payload, payload.Valid fromSlice →
      ∃ bytes, payload.encode = .ok bytes ∧ decode fromSlice bytes = .ok payload) ∧
    ∀ (bytes : Bytes) (payload : Payload), decode fromSlice bytes = .ok payload →
      payload.Valid fromSlice ∧ payload.encode = .ok bytes := by
  refine ⟨?_, ?_⟩
  · intro payload hvalid
    obtain ⟨body, hbody⟩ := encodeBody_total hvalid
    refine ⟨payload.op :: body, ?_, ?_⟩
    · rw [encode, hbody]
      rfl
    · exact (decodeBody_eq_ok hlawful).mpr ⟨rfl, hvalid, hbody⟩
  · intro bytes payload h
    cases bytes with
    | nil => cases h
    | cons code body =>
        obtain ⟨rfl, hvalid, hbody⟩ := (decodeBody_eq_ok hlawful).mp h
        refine ⟨hvalid, ?_⟩
        rw [encode, hbody]
        rfl

end Payload

/-! ## One suspension -/

namespace Sample

/-- A crate that takes any 32 bytes for a key. -/
def anyKey : KeyParser := fun bytes =>
  match tryInto 32 bytes with
  | .ok bytes => .ok ⟨bytes⟩
  | .error _ => .error .secp256k1

theorem anyKey_lawful : anyKey.Lawful := by
  intro bytes key h
  unfold anyKey at h
  split at h
  · next array harray =>
      cases h
      exact (tryInto_eq_ok.mp harray).symm
  · cases h

/-- A suspension of the name `a`. -/
def suspendPayload : Payload :=
  .suspend ⟨⟨Vector.replicate 32 1⟩, ⟨[97], Name.check_letter⟩⟩

end Sample

/-- The suspension is written as 35 bytes and read back. -/
theorem Payload.payload_codec_bijective_suspension :
    Sample.suspendPayload.encode = .ok (5 :: (List.replicate 32 1 ++ [1, 97])) ∧
      decode Sample.anyKey (5 :: (List.replicate 32 1 ++ [1, 97])) = .ok Sample.suspendPayload := by
  obtain ⟨bytes, hencode, hdecode⟩ :=
    (payload_codec_bijective Sample.anyKey_lawful).1 Sample.suspendPayload trivial
  have hbytes : Sample.suspendPayload.encode = .ok (5 :: (List.replicate 32 1 ++ [1, 97])) := by
    rfl
  rw [hbytes] at hencode
  cases hencode
  exact ⟨hbytes, hdecode⟩

end Urma.Names
