import Urma.Core.Container

/-!
# What sealing writes, opening reads

The record of a chunk, part by part, and the chunk `open_record` reads from it. From one record
to all of them: sealing a plaintext gives one record for each chunk, in order.
-/

namespace Urma.Container

open Std Lib.Layout Format

variable {crypto : Crypto} {root : Bytes32}

/-! ## A sealed record -/

/-- Everything but the authentication code. -/
def Sealing.signed (crypto : Crypto) (sealing : Sealing) (key : Bytes32) (index : ℕ)
    (chunk padding : Bytes) : Bytes :=
  sealing.header index ++
    ((nonce index).toList ++ crypto.ctr key (nonce index) (sealing.body chunk padding))

/-- The record of a chunk under two derived keys. -/
def Sealing.record (crypto : Crypto) (sealing : Sealing) (key macKey : Bytes32) (index : ℕ)
    (chunk padding : Bytes) : Bytes :=
  sealing.signed crypto key index chunk padding ++
    (crypto.hmac macKey (sealing.signed crypto key index chunk padding)).toList

/-- The chunk a record holds. -/
def Sealing.chunk (crypto : Crypto) (sealing : Sealing) (index : ℕ) (bytes record : Bytes) :
    PrivateChunk where
  id := sealing.id
  index := index
  count := sealing.count
  total := sealing.total
  digest := sealing.digest
  contentType := sealing.contentType
  bytes := bytes
  recordDigest := crypto.sha256 record

/-- A sealing whose tag and count are the ones the root key and the length give. -/
structure Sealing.Sound (crypto : Crypto) (root : Bytes32) (sealing : Sealing) : Prop where
  counted : chunkCount sealing.total = .ok sealing.count
  tagged : discoveryTag crypto root sealing.id = .ok sealing.tag

/-- A record of a chunk, with keys derived from the root key and padding that fills the body. -/
structure Sealing.Seals (crypto : Crypto) (root : Bytes32) (sealing : Sealing) (index : ℕ)
    (chunk record : Bytes) : Prop where
  written : ∃ key macKey padding,
    derive crypto root sealing.id contentDomain 32 = .ok key ∧
    derive crypto root sealing.id authenticationDomain 32 = .ok macKey ∧
    padding.length = bodyBytes - (metadataBytes + chunk.length) ∧
    record = sealing.record crypto key macKey index chunk padding

/-! ## Lengths -/

section Lengths

variable {sealing : Sealing} {key macKey : Bytes32} {index : ℕ} {chunk padding : Bytes}

@[simp] theorem Sealing.header_length :
    (sealing.header index).length = privateHeaderBytes := by
  simp [Sealing.header, prefixBytes, privateHeaderBytes]

theorem Sealing.body_length (hchunk : chunk.length ≤ chunkBytes)
    (hpadding : padding.length = bodyBytes - (metadataBytes + chunk.length)) :
    (sealing.body chunk padding).length = bodyBytes := by
  simp only [chunkBytes, bodyBytes, metadataBytes] at *
  simp only [Sealing.body, List.length_append, Vector.length_toList, toLe_length, hpadding,
    List.length_cons, List.length_nil]
  omega

theorem Sealing.signed_length (hlawful : crypto.Lawful) (hchunk : chunk.length ≤ chunkBytes)
    (hpadding : padding.length = bodyBytes - (metadataBytes + chunk.length)) :
    (sealing.signed crypto key index chunk padding).length = macOffset := by
  have hbody : (sealing.body chunk padding).length = bodyBytes :=
    Sealing.body_length hchunk hpadding
  rw [Sealing.signed, List.length_append, List.length_append, Sealing.header_length,
    Vector.length_toList, hlawful.ctr_length, hbody]
  rfl

theorem Sealing.record_length (hlawful : crypto.Lawful) (hchunk : chunk.length ≤ chunkBytes)
    (hpadding : padding.length = bodyBytes - (metadataBytes + chunk.length)) :
    (sealing.record crypto key macKey index chunk padding).length = privateRecordBytes := by
  rw [Sealing.record, List.length_append, Sealing.signed_length hlawful hchunk hpadding,
    Vector.length_toList]
  rfl

end Lengths

/-! ## Reading a record back -/

section Reading

variable {sealing : Sealing} {index : ℕ} {chunk record : Bytes}

/-- A record starts with its header. -/
theorem Sealing.Seals.header_eq (h : sealing.Seals crypto root index chunk record) :
    ∃ rest, record = RecordKind.privateRecord.prefixOf ++ (sealing.id.toList ++
      (sealing.tag.toList ++ (toLe 4 index ++ (toLe 4 sealing.count ++ rest)))) := by
  obtain ⟨key, macKey, padding, _, _, _, rfl⟩ := h.written
  refine ⟨(nonce index).toList ++ (crypto.ctr key (nonce index) (sealing.body chunk padding) ++
    (crypto.hmac macKey (sealing.signed crypto key index chunk padding)).toList), ?_⟩
  simp only [Sealing.record, Sealing.signed, Sealing.header, List.append_assoc]

theorem Sealing.Seals.length_eq (hlawful : crypto.Lawful) (hchunk : chunk.length ≤ chunkBytes)
    (h : sealing.Seals crypto root index chunk record) :
    record.length = privateRecordBytes := by
  obtain ⟨key, macKey, padding, _, _, hpadding, rfl⟩ := h.written
  exact Sealing.record_length hlawful hchunk hpadding

/-- A header is read back from a record of the right length. -/
theorem inspectHeader_fields {id : Bytes32} {tag : Vector UInt8 16} {count : ℕ} {rest : Bytes}
    (hrecord : record = RecordKind.privateRecord.prefixOf ++ (id.toList ++
      (tag.toList ++ (toLe 4 index ++ (toLe 4 count ++ rest)))))
    (hlength : record.length = privateRecordBytes) (hindex : index < count)
    (hcount : count ≤ u32Max) :
    Container.inspectHeader record = .ok ⟨id, tag, index, count⟩ := by
  have hkind : RecordKind.parse record = .ok .privateRecord :=
    RecordKind.parse_eq_ok.mpr ⟨_, hrecord⟩
  have hid : slice record 8 40 = id.toList :=
    slice_eq RecordKind.privateRecord.prefixOf _ _ hrecord rfl (by simp)
  have htag : slice record 40 56 = tag.toList :=
    slice_eq (RecordKind.privateRecord.prefixOf ++ id.toList) _
      (toLe 4 index ++ (toLe 4 count ++ rest))
      (by rw [hrecord]; simp) (by simp [prefixBytes]) (by simp)
  have hindexSlice : slice record 56 60 = toLe 4 index :=
    slice_eq (RecordKind.privateRecord.prefixOf ++ (id.toList ++ tag.toList)) _
      (toLe 4 count ++ rest) (by rw [hrecord]; simp) (by simp [prefixBytes]) (by simp)
  have hcountSlice : slice record 60 64 = toLe 4 count :=
    slice_eq (RecordKind.privateRecord.prefixOf ++ (id.toList ++ (tag.toList ++
      toLe 4 index))) _ rest (by rw [hrecord]; simp) (by simp [prefixBytes]) (by simp)
  have hu32 : u32Max < 256 ^ 4 := by decide
  have hindexRead : fromLe (toLe 4 index) = index := fromLe_toLe (by omega)
  have hcountRead : fromLe (toLe 4 count) = count := fromLe_toLe (by omega)
  have hbounds : (0 < count && index < count : Bool) = true := by
    simp only [Bool.and_eq_true, decide_eq_true_eq]
    omega
  rw [Container.inspectHeader, hlength, hkind, hid, htag, hindexSlice, hcountSlice, hindexRead,
    hcountRead, tryInto_toList, tryInto_toList]
  simp only [Except.ok_bind]
  rw [hbounds]
  rfl

/-- **The header is read back.** -/
theorem Sealing.Seals.inspectHeader (hlawful : crypto.Lawful)
    (hsound : sealing.Sound crypto root) (hindex : index < sealing.count)
    (hchunk : chunk.length ≤ chunkBytes) (h : sealing.Seals crypto root index chunk record) :
    Container.inspectHeader record =
      .ok ⟨sealing.id, sealing.tag, index, sealing.count⟩ := by
  obtain ⟨rest, hrecord⟩ := h.header_eq
  exact inspectHeader_fields hrecord (h.length_eq hlawful hchunk) hindex
    (chunkCount_bounds hsound.counted).2

/-- **The body is read back**, once it is decrypted. -/
theorem Sealing.openBody_record (hlawful : crypto.Lawful) (hsound : sealing.Sound crypto root)
    (hindex : index < sealing.count)
    (hchunk : chunk.length = min (sealing.total - index * chunkBytes) chunkBytes)
    (h : sealing.Seals crypto root index chunk record) :
    openBody crypto root record ⟨sealing.id, sealing.tag, index, sealing.count⟩ =
      .ok (.authenticated (sealing.chunk crypto index chunk record)) := by
  have hle : chunk.length ≤ chunkBytes := by omega
  have htotal : sealing.total < 256 ^ 8 := by
    have hmax := (chunkCount_eq_ok.mp hsound.counted).2.1
    simp only [maxPrivateBytes] at hmax
    omega
  have hstart := chunk_start_lt hsound.counted hindex
  obtain ⟨key, macKey, padding, hkey, hmacKey, hpadding, hrecord⟩ := h.written
  have hsigned : (sealing.signed crypto key index chunk padding).length = macOffset :=
    Sealing.signed_length hlawful hle hpadding
  have hbody : (sealing.body chunk padding).length = bodyBytes :=
    Sealing.body_length hle hpadding
  -- the authentication code is over everything before it
  have htake : record.take macOffset = sealing.signed crypto key index chunk padding := by
    rw [hrecord, Sealing.record]
    exact List.take_left' hsigned
  have hdrop : record.drop macOffset =
      (crypto.hmac macKey (sealing.signed crypto key index chunk padding)).toList := by
    rw [hrecord, Sealing.record]
    exact List.drop_left' hsigned
  have hiv : slice record privateHeaderBytes bodyOffset = (nonce index).toList := by
    apply slice_eq (sealing.header index) _
      (crypto.ctr key (nonce index) (sealing.body chunk padding) ++
        (crypto.hmac macKey (sealing.signed crypto key index chunk padding)).toList)
    · rw [hrecord, Sealing.record, Sealing.signed, List.append_assoc, List.append_assoc]
    · exact Sealing.header_length
    · rw [Vector.length_toList]; rfl
  have hcipher : slice record bodyOffset macOffset =
      crypto.ctr key (nonce index) (sealing.body chunk padding) := by
    apply slice_eq (sealing.header index ++ (nonce index).toList) _
      (crypto.hmac macKey (sealing.signed crypto key index chunk padding)).toList
    · rw [hrecord, Sealing.record, Sealing.signed, List.append_assoc, List.append_assoc,
        List.append_assoc]
    · rw [List.length_append, Sealing.header_length, Vector.length_toList]; rfl
    · rw [hlawful.ctr_length, hbody]; rfl
  -- the fields of the decrypted body
  have hdigest : (sealing.body chunk padding).take 32 = sealing.digest.toList :=
    List.take_left' (Vector.length_toList)
  have htotalSlice : slice (sealing.body chunk padding) 32 40 = toLe 8 sealing.total := by
    apply slice_eq sealing.digest.toList _ _ rfl <;> simp
  have hcode : slice (sealing.body chunk padding) 40 44 = toLe 4 sealing.contentType.code := by
    apply slice_eq (sealing.digest.toList ++ toLe 8 sealing.total) _
      ([0, 0, 0, 0] ++ (chunk ++ padding)) <;> simp [Sealing.body]
  have hflags : slice (sealing.body chunk padding) 44 48 = [0, 0, 0, 0] := by
    apply slice_eq (sealing.digest.toList ++ (toLe 8 sealing.total ++
      toLe 4 sealing.contentType.code)) _ (chunk ++ padding) <;> simp [Sealing.body]
  have hbytes : slice (sealing.body chunk padding) metadataBytes
      (metadataBytes + min (sealing.total - index * chunkBytes) chunkBytes) = chunk := by
    rw [← hchunk]
    apply slice_eq (sealing.digest.toList ++ (toLe 8 sealing.total ++
      (toLe 4 sealing.contentType.code ++ [0, 0, 0, 0]))) _ padding <;>
      simp [Sealing.body, metadataBytes]
  have hremaining : checkedSub sealing.total (index * chunkBytes) =
      some (sealing.total - index * chunkBytes) :=
    checkedSub_eq_some.mpr ⟨by omega, rfl⟩
  have hauthenticate : authenticate crypto root sealing.id (record.take macOffset) =
      .ok (crypto.hmac macKey (sealing.signed crypto key index chunk padding)) := by
    rw [authenticate, hmacKey, htake]
    rfl
  have hdecrypt : applyKeystream crypto root sealing.id (nonce index)
      (slice record bodyOffset macOffset) = .ok (sealing.body chunk padding) := by
    rw [applyKeystream, hkey, hcipher, Except.ok_bind, hlawful.ctr_involutive]
  simp only [openBody, Except.ok_bind, hauthenticate, hdrop, hiv, hdecrypt, beq_self_eq_true,
    ensure_true, htotalSlice, fromLe_toLe htotal, hsound.counted, hcode,
    fromLe_toLe sealing.contentType.code_lt, ContentType.fromCode_code, hflags,
    ensureSupported_true, hremaining, context_some, hdigest, tryInto_toList, hbytes]
  rfl

/-- **Opening a sealed record gives its chunk.** -/
theorem Sealing.openRecord_record (hlawful : crypto.Lawful) (hsound : sealing.Sound crypto root)
    (hindex : index < sealing.count)
    (hchunk : chunk.length = min (sealing.total - index * chunkBytes) chunkBytes)
    (h : sealing.Seals crypto root index chunk record) :
    openRecord crypto root record =
      .ok (.authenticated (sealing.chunk crypto index chunk record)) := by
  have hle : chunk.length ≤ chunkBytes := by omega
  obtain ⟨rest, hrecord⟩ := h.header_eq
  have hmagic : record.take 4 = magic := by rw [hrecord]; rfl
  have hkind : RecordKind.parse record = .ok .privateRecord :=
    RecordKind.parse_eq_ok.mpr ⟨_, hrecord⟩
  have hheader := h.inspectHeader hlawful hsound hindex hle
  have hbody := Sealing.openBody_record hlawful hsound hindex hchunk h
  rw [openRecord, if_pos hmagic, hkind, Except.ok_bind, if_pos rfl, hheader, Except.ok_bind,
    hsound.tagged, Except.ok_bind, if_pos rfl, hbody]

end Reading

/-! ## Sealing a whole plaintext -/

section Plaintext

variable {R : Type} {source : Rng R} {sealing : Sealing} {rng rng' : R}

theorem sealChunk_seals {index : ℕ} {chunk record : Bytes}
    (h : sealChunk crypto root sealing source index chunk rng = .ok (record, rng')) :
    sealing.Seals crypto root index chunk record := by
  simp only [sealChunk, applyKeystream, authenticate, Except.bind_eq_ok] at h
  obtain ⟨⟨padding, rng₁⟩, _, body, ⟨key, hkey, hbody⟩, mac, ⟨macKey, hmacKey, hmac⟩, hrecord⟩ := h
  cases hbody
  cases hmac
  cases hrecord
  exact ⟨key, macKey, padding.toList, hkey, hmacKey, padding.length_toList, rfl⟩

/-- The loop seals chunk after chunk, at consecutive indices. -/
theorem sealFrom_seals {position : ℕ} {chunks records : List Bytes}
    (h : sealFrom crypto root sealing source position chunks rng = .ok (records, rng')) :
    records.length = chunks.length ∧
      ∀ (i : ℕ) (chunk record : Bytes), chunks[i]? = some chunk → records[i]? = some record →
        sealing.Seals crypto root (position + i) chunk record := by
  induction chunks generalizing position records rng with
  | nil =>
      cases h
      exact ⟨rfl, fun i chunk record hchunk => by cases hchunk⟩
  | cons first chunks ih =>
      simp only [sealFrom, Except.bind_eq_ok, tryU32_eq_ok] at h
      obtain ⟨_, ⟨_, hposition⟩, ⟨record, rng₁⟩, hrecord, ⟨rest, rng₂⟩, hrest, hrecords⟩ := h
      cases hrecords
      obtain ⟨hlength, hseals⟩ := ih hrest
      refine ⟨by rw [List.length_cons, List.length_cons, hlength], ?_⟩
      intro i chunk held hchunk hheld
      cases i with
      | zero =>
          cases hchunk
          cases hheld
          rw [Nat.add_zero, ← hposition]
          exact sealChunk_seals hrecord
      | succ i =>
          rw [List.getElem?_cons_succ] at hchunk hheld
          have hshift : position + (i + 1) = position + 1 + i := by omega
          rw [hshift]
          exact hseals i chunk held hchunk hheld

/-- Chunk `i` of a plaintext. -/
def chunkAt (plaintext : Bytes) (i : ℕ) : Bytes :=
  (plaintext.drop (i * chunkBytes)).take chunkBytes

theorem chunkAt_length (plaintext : Bytes) (i : ℕ) :
    (chunkAt plaintext i).length = min (plaintext.length - i * chunkBytes) chunkBytes := by
  rw [chunkAt, List.length_take, List.length_drop, Nat.min_comm]

/-- What sealing a plaintext has produced: one record for each chunk, all of one object. -/
structure Sealed (crypto : Crypto) (root : Bytes32) (plaintext : Bytes)
    (contentType : ContentType) (sealing : Sealing) (records : List Bytes) : Prop where
  sound : sealing.Sound crypto root
  total : sealing.total = plaintext.length
  digest : sealing.digest = crypto.sha256 plaintext
  contentType : sealing.contentType = contentType
  length : records.length = sealing.count
  seals : ∀ (i : ℕ) (record : Bytes), records[i]? = some record →
    sealing.Seals crypto root i (chunkAt plaintext i) record

/-- **Sealing a plaintext** gives one record for each of its chunks. -/
theorem sealRecords_sealed {plaintext : Bytes} {contentType : ContentType} {records : List Bytes}
    (h : sealRecords crypto root plaintext contentType source rng = .ok (records, rng')) :
    ∃ sealing, Sealed crypto root plaintext contentType sealing records := by
  simp only [sealRecords, Except.bind_eq_ok] at h
  obtain ⟨count, hcount, ⟨id, rng₁⟩, _, tag, htag, hrecords⟩ := h
  obtain ⟨hlength, hseals⟩ := sealFrom_seals hrecords
  have hceil := (chunkCount_eq_ok.mp hcount).2.2
  have hblocks : (chunks chunkBytes plaintext).length = count := by
    rw [chunks, blocks_length, hceil]
  refine ⟨⟨id, tag, count, crypto.sha256 plaintext, plaintext.length, contentType⟩,
    ⟨hcount, htag⟩, rfl, rfl, rfl, ?_, ?_⟩
  · rw [hlength, hblocks]
  intro i record hrecord
  have hi : i < count := by
    have hbound := (List.getElem?_eq_some_iff.mp hrecord).1
    omega
  have hchunk : (chunks chunkBytes plaintext)[i]? = some (chunkAt plaintext i) := by
    rw [chunks, ← hceil]
    exact blocks_getElem? hi
  have hseal := hseals i (chunkAt plaintext i) record hchunk hrecord
  rw [Nat.zero_add] at hseal
  exact hseal

/-! ### Sealing succeeds -/

theorem exists_sealFrom (hlawful : crypto.Lawful)
    (hsource : ∀ rng n, ∃ output, source.tryFillBytes rng n = .ok output) {position : ℕ}
    {chunks : List Bytes} (h : position + chunks.length ≤ u32Max) (rng : R) :
    ∃ output, sealFrom crypto root sealing source position chunks rng = .ok output := by
  induction chunks generalizing position rng with
  | nil => exact ⟨_, rfl⟩
  | cons chunk chunks ih =>
      rw [List.length_cons] at h
      obtain ⟨⟨padding, rng₁⟩, hpadding⟩ :=
        hsource rng (bodyBytes - (metadataBytes + chunk.length))
      obtain ⟨key, hkey⟩ := hlawful.hkdf_expands sealing.id.toList root.toList contentDomain 32
        (by omega)
      obtain ⟨macKey, hmacKey⟩ := hlawful.hkdf_expands sealing.id.toList root.toList
        authenticationDomain 32 (by omega)
      have hnext : position + 1 + chunks.length ≤ u32Max := by omega
      obtain ⟨⟨records, rng₂⟩, hrest⟩ := ih hnext rng₁
      have hposition : tryU32 position = .ok position := tryU32_eq_ok.mpr ⟨by omega, rfl⟩
      simp only [sealFrom, sealChunk, applyKeystream, authenticate, derive, hposition, hpadding,
        hkey, hmacKey, Except.ok_bind, hrest]
      exact ⟨_, rfl⟩

/-- **Every private length is sealed**, as long as the random source delivers. -/
theorem exists_sealRecords (hlawful : crypto.Lawful)
    (hsource : ∀ rng n, ∃ output, source.tryFillBytes rng n = .ok output) {plaintext : Bytes}
    (hpositive : 1 ≤ plaintext.length) (hlength : plaintext.length ≤ maxPrivateBytes)
    (contentType : ContentType) (rng : R) :
    ∃ output, sealRecords crypto root plaintext contentType source rng = .ok output := by
  have hcount : chunkCount plaintext.length = .ok (chunks chunkBytes plaintext).length := by
    rw [chunks, blocks_length]
    exact chunkCount_eq_ok.mpr ⟨hpositive, hlength, rfl⟩
  have hbound := (chunkCount_bounds hcount).2
  obtain ⟨⟨id, rng₁⟩, hid⟩ := hsource rng 32
  obtain ⟨tag, htag⟩ := hlawful.hkdf_expands id.toList root.toList discoveryDomain 16 (by omega)
  have hfits : 0 + (chunks chunkBytes plaintext).length ≤ u32Max := by omega
  have hloop : ∃ output, sealFrom crypto root ⟨id, tag, (chunks chunkBytes plaintext).length,
      crypto.sha256 plaintext, plaintext.length, contentType⟩ source 0
      (chunks chunkBytes plaintext) rng₁ = .ok output :=
    exists_sealFrom hlawful hsource hfits rng₁
  obtain ⟨output, houtput⟩ := hloop
  refine ⟨output, ?_⟩
  rw [sealRecords]
  exact Except.bind_eq_ok.mpr ⟨_, hcount, Except.bind_eq_ok.mpr ⟨(id, rng₁), hid,
    Except.bind_eq_ok.mpr ⟨tag, htag, houtput⟩⟩⟩

end Plaintext

end Urma.Container
