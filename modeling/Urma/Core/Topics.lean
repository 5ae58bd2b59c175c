import Urma.Core.Text
import Urma.Lib.Reader

/-!
# Topics

`urma_core::topics`: the wire and the hashtags of a structured record, written with their lengths
in front of the text.
-/

namespace Urma

open Lib.Layout Lib.Reader

/-- `Topics`. -/
structure Topics where
  wire : Text
  hashtags : List Text
  deriving DecidableEq

namespace Topics

/-- `Topics::MAX_LABEL_BYTES`. -/
def maxLabelBytes : ℕ := 32

/-- `Topics::MAX_HASHTAGS`. -/
def maxHashtags : ℕ := 8

/-! ## Validation -/

/-- `is_ascii_lowercase() || is_ascii_digit()`. -/
def isLowerOrDigit (byte : UInt8) : Bool :=
  (97 ≤ byte && byte ≤ 122) || (48 ≤ byte && byte ≤ 57)

/-- `Topics::validate_label`. -/
def validateLabel (label : Text) : Except Error Unit := do
  ensure (1 ≤ label.len && label.len ≤ maxLabelBytes) "label must be 1..32 bytes"
  ensure (label.bytes.head?.any isLowerOrDigit)
    "label must start with a lowercase letter or digit"
  ensure (label.bytes.all fun byte => isLowerOrDigit byte || byte == 45 || byte == 95)
    "label permits only lowercase ASCII letters, digits, - and _"

/-- `windows(2).all(|pair| pair[0] < pair[1])`. -/
def ascending : List Text → Bool
  | a :: b :: rest => a.below b && ascending (b :: rest)
  | _ => true

/-- `Topics::validate`. -/
def validate (topics : Topics) : Except Error Unit := do
  if !topics.wire.bytes.isEmpty then
    validateLabel topics.wire
  ensure (topics.hashtags.length ≤ maxHashtags) "at most 8 hashtags"
  topics.hashtags.forM validateLabel
  ensure (ascending topics.hashtags) "hashtags must be unique and sorted"

/-! ## Writing -/

/-- `bytes.push(u8::try_from(text.len())?)` and the bytes of the text. -/
def encodeLabel (text : Text) : Except Error Bytes := do
  let length ← tryU8 text.len
  .ok (length :: text.bytes)

/-- `Topics::encode_body`. -/
def encodeBody (topics : Topics) (text : Text) : Except Error Bytes := do
  topics.validate
  let wire ← encodeLabel topics.wire
  let count ← tryU8 topics.hashtags.length
  let hashtags ← topics.hashtags.mapM encodeLabel
  let length ← tryU16 text.len
  .ok (wire ++ (count :: (hashtags.flatten ++ (toLe 2 length ++ text.bytes))))

/-! ## Reading -/

/-- `take`: some bytes off the front. -/
def take (bytes : Bytes) (length : ℕ) : Except Error (Bytes × Bytes) := do
  ensure (length ≤ bytes.length) "truncated structured record"
  .ok (bytes.take length, bytes.drop length)

/-- `usize::from(take(bytes, 1)?[0])`. -/
def takeByte (bytes : Bytes) : Except Error (ℕ × Bytes) := do
  let (byte, bytes) ← take bytes 1
  .ok ((byte.headD 0).toNat, bytes)

/-- `read_label`. -/
def readLabel (bytes : Bytes) : Except Error (Text × Bytes) := do
  let (length, bytes) ← takeByte bytes
  ensure (1 ≤ length && length ≤ maxLabelBytes) "label must be 1..32 bytes"
  let (label, bytes) ← take bytes length
  let label ← Text.fromUtf8 label
  .ok (label, bytes)

/-- `Topics::decode_body`. -/
def decodeBody (bytes : Bytes) : Except Error (Topics × Text) := do
  let (wireLength, bytes) ← takeByte bytes
  ensure (wireLength ≤ maxLabelBytes) "wire exceeds 32 bytes"
  let (wire, bytes) ← take bytes wireLength
  let wire ← Text.fromUtf8 wire
  let (count, bytes) ← takeByte bytes
  ensure (count ≤ maxHashtags) "at most 8 hashtags"
  let (hashtags, bytes) ← readMany readLabel count bytes
  let (length, bytes) ← take bytes 2
  let (text, bytes) ← take bytes (fromLe length)
  let text ← Text.fromUtf8 text
  ensure bytes.isEmpty "trailing structured record bytes"
  let topics : Topics := { wire, hashtags }
  topics.validate
  .ok (topics, text)

/-! ## Exactness -/

theorem take_eq_ok {bytes head rest : Bytes} {length : ℕ} :
    take bytes length = .ok (head, rest) ↔ head.length = length ∧ bytes = head ++ rest := by
  simp only [take, Except.bind_eq_ok, ensure_eq_ok, decide_eq_true_eq]
  constructor
  · rintro ⟨_, hlength, h⟩
    cases h
    exact ⟨List.length_take_of_le hlength, (List.take_append_drop length bytes).symm⟩
  · rintro ⟨rfl, rfl⟩
    refine ⟨(), by simp, ?_⟩
    rw [List.take_left' rfl, List.drop_left' rfl]

theorem takeByte_eq_ok {bytes rest : Bytes} {value : ℕ} :
    takeByte bytes = .ok (value, rest) ↔
      ∃ byte : UInt8, byte.toNat = value ∧ bytes = byte :: rest := by
  simp only [takeByte, Except.bind_eq_ok, Prod.exists, take_eq_ok]
  constructor
  · rintro ⟨head, middle, ⟨hlength, rfl⟩, h⟩
    obtain ⟨byte, rfl⟩ := List.length_eq_one_iff.mp hlength
    cases h
    exact ⟨byte, rfl, rfl⟩
  · rintro ⟨byte, rfl, rfl⟩
    exact ⟨[byte], rest, ⟨rfl, rfl⟩, rfl⟩

/-- A text with its length in front. -/
def labelBytes (text : Text) : Bytes :=
  UInt8.ofNat text.len :: text.bytes

theorem encodeLabel_eq_ok {text : Text} {bytes : Bytes} :
    encodeLabel text = .ok bytes ↔ text.len ≤ u8Max ∧ bytes = labelBytes text := by
  simp only [encodeLabel, Except.bind_eq_ok, tryU8_eq_ok]
  constructor
  · rintro ⟨byte, hbyte, h⟩
    cases h
    have hlt := byte.toNat_lt
    refine ⟨?_, ?_⟩
    · simp only [u8Max]
      omega
    · rw [labelBytes, ← hbyte, UInt8.ofNat_toNat]
  · rintro ⟨hlength, rfl⟩
    refine ⟨UInt8.ofNat text.len, ?_, rfl⟩
    apply UInt8.toNat_ofNat_of_lt'
    simp only [u8Max] at hlength
    show text.len < 256
    omega

/-- A byte that holds a small number is the writing of that number. -/
theorem eq_ofNat_of_toNat {byte : UInt8} {value : ℕ} (h : byte.toNat = value) :
    byte = UInt8.ofNat value := by
  rw [← h, UInt8.ofNat_toNat]

/-- **A label is read from exactly its length and its bytes.** -/
theorem readLabel_exact :
    Exact readLabel labelBytes (fun label => 1 ≤ label.len ∧ label.len ≤ maxLabelBytes) := by
  intro bytes label rest
  simp only [readLabel, Except.bind_eq_ok, Prod.exists, takeByte_eq_ok, take_eq_ok, ensure_eq_ok,
    Bool.and_eq_true, decide_eq_true_eq, Text.fromUtf8_eq_ok]
  constructor
  · rintro ⟨length, _, ⟨byte, hbyte, rfl⟩, _, hbounds, head, _, ⟨hlength, rfl⟩, text, hhead, h⟩
    cases h
    have hlen : label.len = length := by rw [Text.len, ← hhead, hlength]
    refine ⟨by rw [hlen]; exact hbounds, ?_⟩
    rw [labelBytes, hlen, ← hhead, eq_ofNat_of_toNat hbyte]
    rfl
  · rintro ⟨hbounds, rfl⟩
    refine ⟨label.len, _, ⟨UInt8.ofNat label.len, ?_, rfl⟩, (), hbounds, label.bytes, rest,
      ⟨rfl, rfl⟩, label, rfl, rfl⟩
    apply UInt8.toNat_ofNat_of_lt'
    have hmax := hbounds.2
    simp only [maxLabelBytes] at hmax
    show label.len < 256
    omega

/-- What validation bounds. -/
theorem validate_bounds {topics : Topics} (h : topics.validate = .ok ()) :
    topics.wire.len ≤ maxLabelBytes ∧ topics.hashtags.length ≤ maxHashtags ∧
      ∀ tag ∈ topics.hashtags, 1 ≤ tag.len ∧ tag.len ≤ maxLabelBytes := by
  have hlabel : ∀ label, validateLabel label = .ok () →
      1 ≤ label.len ∧ label.len ≤ maxLabelBytes := by
    intro label hlabel
    simp only [validateLabel, Except.bind_eq_ok, ensure_eq_ok, Bool.and_eq_true,
      decide_eq_true_eq] at hlabel
    obtain ⟨_, hbounds, _⟩ := hlabel
    exact hbounds
  rw [validate] at h
  have hrest : topics.wire.len ≤ maxLabelBytes ∧ (do
      ensure (topics.hashtags.length ≤ maxHashtags) "at most 8 hashtags"
      topics.hashtags.forM validateLabel
      ensure (ascending topics.hashtags) "hashtags must be unique and sorted") = .ok () := by
    split at h
    · obtain ⟨_, hwire, hrest⟩ := Except.bind_eq_ok.mp h
      exact ⟨(hlabel _ hwire).2, hrest⟩
    · next hempty =>
        refine ⟨?_, h⟩
        rw [Bool.not_eq_true, Bool.not_eq_false', List.isEmpty_iff] at hempty
        rw [Text.len, hempty]
        exact Nat.zero_le _
  obtain ⟨hwire, hrest⟩ := hrest
  simp only [Except.bind_eq_ok, ensure_eq_ok, decide_eq_true_eq, Except.forM_eq_ok] at hrest
  obtain ⟨_, hcount, _, htags, _⟩ := hrest
  exact ⟨hwire, hcount, fun tag hmem => hlabel tag (htags tag hmem)⟩

/-- The bytes of a structured body. -/
def bodyBytes (topics : Topics) (text : Text) : Bytes :=
  labelBytes topics.wire ++ (UInt8.ofNat topics.hashtags.length ::
    (topics.hashtags.flatMap labelBytes ++ (toLe 2 text.len ++ text.bytes)))

/-- **What a structured body is written as.** -/
theorem encodeBody_eq_ok {topics : Topics} {text : Text} {bytes : Bytes} :
    topics.encodeBody text = .ok bytes ↔
      topics.validate = .ok () ∧ text.len ≤ u16Max ∧ bytes = bodyBytes topics text := by
  have htagsOk : ∀ tags, topics.hashtags.mapM encodeLabel = .ok tags ↔
      (∀ tag ∈ topics.hashtags, tag.len ≤ u8Max) ∧ tags = topics.hashtags.map labelBytes :=
    fun _ => Except.mapM_eq_ok_map fun _ _ => encodeLabel_eq_ok
  simp only [encodeBody, Except.bind_eq_ok, encodeLabel_eq_ok, tryU8_eq_ok, tryU16_eq_ok, htagsOk]
  constructor
  · rintro ⟨_, hvalid, _, ⟨_, rfl⟩, count, hcount, _, ⟨_, rfl⟩, _, ⟨hlength, rfl⟩, h⟩
    cases h
    refine ⟨hvalid, hlength, ?_⟩
    rw [bodyBytes, eq_ofNat_of_toNat hcount, List.flatMap_def]
  · rintro ⟨hvalid, hlength, rfl⟩
    obtain ⟨hwire, hcount, htags⟩ := validate_bounds hvalid
    simp only [maxLabelBytes, maxHashtags] at hwire hcount htags
    refine ⟨(), hvalid, _, ⟨?_, rfl⟩, UInt8.ofNat topics.hashtags.length, ?_, _, ⟨?_, rfl⟩, _,
      ⟨hlength, rfl⟩, ?_⟩
    · simp only [u8Max]
      omega
    · apply UInt8.toNat_ofNat_of_lt'
      show topics.hashtags.length < 256
      omega
    · intro tag hmem
      have hbounds := htags tag hmem
      simp only [u8Max]
      omega
    · rw [bodyBytes, List.flatMap_def]

/-- **A structured body is read from exactly its bytes.** -/
theorem decodeBody_eq_ok {topics : Topics} {text : Text} {bytes : Bytes} :
    decodeBody bytes = .ok (topics, text) ↔ topics.encodeBody text = .ok bytes := by
  have htagsOk := fun count => readLabel_exact.readMany count
  simp only [encodeBody_eq_ok, decodeBody, Except.bind_eq_ok, Prod.exists, takeByte_eq_ok,
    take_eq_ok, ensure_eq_ok, decide_eq_true_eq, Text.fromUtf8_eq_ok, htagsOk _ _ _ _,
    List.isEmpty_iff]
  constructor
  · rintro ⟨wireLength, _, ⟨wireByte, hwireByte, rfl⟩, _, _, wire, _, ⟨hwire, rfl⟩, wireText,
      rfl, count, _, ⟨countByte, hcountByte, rfl⟩, _, _, tags, _, ⟨⟨htags, _⟩, rfl⟩, length, _,
      ⟨hlength, rfl⟩, body, _, ⟨hbody, rfl⟩, bodyText, rfl, _, rfl, _, hvalid, h⟩
    cases h
    have hread : toLe 2 text.len = length := by
      rw [Text.len, hbody, ← hlength]
      exact toLe_fromLe length
    have hbound : text.len ≤ u16Max := by
      have hlt := fromLe_lt length
      rw [hlength, ← hbody] at hlt
      simp only [Text.len, u16Max]
      omega
    refine ⟨hvalid, hbound, ?_⟩
    rw [bodyBytes, labelBytes, hread, Text.len, hwire, htags, ← eq_ofNat_of_toNat hwireByte,
      ← eq_ofNat_of_toNat hcountByte, List.append_nil]
    rfl
  · rintro ⟨hvalid, hlength, rfl⟩
    obtain ⟨hwire, hcount, htags⟩ := validate_bounds hvalid
    have hwireByte : (UInt8.ofNat topics.wire.len).toNat = topics.wire.len := by
      apply UInt8.toNat_ofNat_of_lt'
      simp only [maxLabelBytes] at hwire
      show topics.wire.len < 256
      omega
    have hcountByte : (UInt8.ofNat topics.hashtags.length).toNat = topics.hashtags.length := by
      apply UInt8.toNat_ofNat_of_lt'
      simp only [maxHashtags] at hcount
      show topics.hashtags.length < 256
      omega
    have hread : fromLe (toLe 2 text.len) = text.bytes.length := by
      apply fromLe_toLe
      simp only [u16Max] at hlength
      show text.len < 256 ^ 2
      omega
    refine ⟨topics.wire.len, _, ⟨_, hwireByte, rfl⟩, (), hwire, topics.wire.bytes, _,
      ⟨rfl, rfl⟩, topics.wire, rfl, topics.hashtags.length, _, ⟨_, hcountByte, rfl⟩, (), hcount,
      topics.hashtags, _, ⟨⟨rfl, htags⟩, rfl⟩, toLe 2 text.len, text.bytes,
      ⟨toLe_length 2 text.len, rfl⟩, text.bytes, [], ⟨hread.symm, ?_⟩, text, rfl, (), rfl, (),
      hvalid, rfl⟩
    exact (List.append_nil text.bytes).symm

end Topics

end Urma
