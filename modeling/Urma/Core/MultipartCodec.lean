import Urma.Core.Multipart

/-!
# The multipart codec

What encodes decodes to the same record, and what decodes encodes to the same bytes: a valid
record has one byte string, and a byte string that decodes is the one of its record.
-/

namespace Urma

open Lib.Layout

/-! ## References -/

/-- One reference is read from exactly its 64 bytes. -/
theorem decodeReference_eq_ok {entry : Bytes} {reference : ChildReference} :
    decodeReference entry = .ok reference ↔ entry = reference.encode := by
  constructor
  · intro h
    simp only [decodeReference, Except.bind_eq_ok, tryInto_eq_ok] at h
    obtain ⟨txid, htxid, recordHash, hhash, h⟩ := h
    cases h
    rw [ChildReference.encode, ← htxid, ← hhash, List.take_append_drop]
  · rintro rfl
    have htake : reference.encode.take 32 = reference.txid.bytes.toList :=
      List.take_left' (by simp)
    have hdrop : reference.encode.drop 32 = reference.recordHash.toList :=
      List.drop_left' (by simp)
    rw [decodeReference, htake, hdrop, tryInto_toList, tryInto_toList]
    rfl

@[simp] theorem encodeReferences_length (entries : List ChildReference) :
    (encodeReferences entries).length = entries.length * 64 := by
  rw [encodeReferences, flatten_length_of_forall length_of_mem_encode, List.length_map]

/-- **References are read back** from their bytes, and from no others. -/
theorem decodeReferences_eq_ok {bytes : Bytes} {count : ℕ} {entries : List ChildReference} :
    decodeReferences bytes count = .ok entries ↔
      (1 ≤ entries.length ∧ entries.length ≤ Geometry.fanout) ∧ entries.length = count ∧
        bytes = encodeReferences entries := by
  constructor
  · intro h
    obtain ⟨hlength, hcount⟩ := decodeReferences_length h
    simp only [decodeReferences, Except.bind_eq_ok, ensure_eq_ok, beq_iff_eq] at h
    obtain ⟨_, _, _, hbytes, hentries⟩ := h
    have hencoded := (Except.mapM_eq_ok fun _ _ => decodeReference_eq_ok).mp hentries
    refine ⟨hlength ▸ hcount, hlength, ?_⟩
    have hwhole : bytes.length / 64 * 64 = bytes.length := by omega
    rw [encodeReferences, ← hencoded, asChunks, blocks_flatten, hwhole, List.take_length]
  · rintro ⟨hcount, rfl, rfl⟩
    have hlength := encodeReferences_length entries
    have hchunks : asChunks 64 (encodeReferences entries) = entries.map ChildReference.encode :=
      asChunks_flatten (by decide) length_of_mem_encode
    simp only [decodeReferences, Except.bind_eq_ok, ensure_eq_ok, Bool.and_eq_true,
      decide_eq_true_eq, beq_iff_eq]
    refine ⟨(), hcount, (), hlength, ?_⟩
    exact (Except.mapM_eq_ok fun _ _ => decodeReference_eq_ok).mpr hchunks

/-! ## Records -/

namespace MultipartRecord

/-- The module's rules for a record that may be published. -/
def Valid : MultipartRecord → Prop
  | data part => part.index < Geometry.maxParts ∧ part.payload.length ≤ Geometry.dataBytes
  | leaf manifest => manifest.index < Geometry.fanout ∧ 1 ≤ manifest.entries.length ∧
      manifest.entries.length ≤ Geometry.fanout
  | root manifest => ∃ geometry, Geometry.new manifest.length = .ok geometry ∧
      manifest.entries.length = geometry.leaves

/-- What the bytes of an accepted record say beside the fields of the record: where a leaf
starts, and the geometry of a root. -/
def Declares (bytes : Bytes) : MultipartRecord → Prop
  | data _ => True
  | leaf manifest => fromLe (slice bytes 12 16) = manifest.index * Geometry.fanout
  | root manifest => ∀ geometry, Geometry.new manifest.length = .ok geometry →
      fromLe (slice bytes 48 52) = geometry.parts ∧ fromLe (slice bytes 52 54) = geometry.leaves

variable {record : MultipartRecord} {bytes : Bytes}

/-! ## Encoding -/

/-- **What a data part is written as.** -/
theorem encode_data_eq_ok {part : DataPart} :
    (data part).encode = .ok bytes ↔ (data part).Valid ∧
      bytes = RecordKind.dataPart.prefixOf ++ (toLe 4 part.index ++ part.payload) := by
  simp only [encode, Except.bind_eq_ok, ensure_eq_ok, decide_eq_true_eq, Valid]
  constructor
  · rintro ⟨_, hindex, _, hpayload, h⟩
    cases h
    exact ⟨⟨hindex, hpayload⟩, rfl⟩
  · rintro ⟨⟨hindex, hpayload⟩, rfl⟩
    exact ⟨(), hindex, (), hpayload, rfl⟩

/-- **What a leaf is written as.** -/
theorem encode_leaf_eq_ok {manifest : LeafManifest} :
    (leaf manifest).encode = .ok bytes ↔ (leaf manifest).Valid ∧
      bytes = RecordKind.leafManifest.prefixOf ++ (toLe 2 manifest.index ++
        (toLe 2 manifest.entries.length ++ (toLe 4 manifest.firstIndex ++
          encodeReferences manifest.entries))) := by
  simp only [encode, LeafManifest.validate, Except.bind_eq_ok, ensure_eq_ok, decide_eq_true_eq,
    Bool.and_eq_true, tryU16_eq_ok, Valid]
  constructor
  · rintro ⟨_, ⟨_, hindex, hcount⟩, _, ⟨_, rfl⟩, h⟩
    cases h
    exact ⟨⟨hindex, hcount⟩, rfl⟩
  · rintro ⟨⟨hindex, hcount⟩, rfl⟩
    refine ⟨(), ⟨(), hindex, hcount⟩, _, ⟨?_, rfl⟩, rfl⟩
    simp only [Geometry.fanout, u16Max] at *
    omega

/-- **What a root is written as.** -/
theorem encode_root_eq_ok {manifest : RootManifest} :
    (root manifest).encode = .ok bytes ↔
      ∃ geometry, Geometry.new manifest.length = .ok geometry ∧
        manifest.entries.length = geometry.leaves ∧
        bytes = RecordKind.rootManifest.prefixOf ++ (toLe 8 manifest.length ++
          (manifest.payloadHash.toList ++ (toLe 4 geometry.parts ++ (toLe 2 geometry.leaves ++
            ([0, 0] ++ (manifest.profile.toList ++ encodeReferences manifest.entries)))))) := by
  simp only [encode, RootManifest.geometry, Except.bind_eq_ok, ensure_eq_ok, beq_iff_eq]
  constructor
  · rintro ⟨_, ⟨geometry, hgeometry, _, hleaves, hsame⟩, h⟩
    cases hsame
    cases h
    exact ⟨_, hgeometry, hleaves, rfl⟩
  · rintro ⟨geometry, hgeometry, hleaves, rfl⟩
    exact ⟨geometry, ⟨geometry, hgeometry, (), hleaves, rfl⟩, rfl⟩

/-- The valid records are the ones that encode. -/
theorem valid_iff : record.Valid ↔ ∃ bytes, record.encode = .ok bytes := by
  cases record with
  | data part =>
      constructor
      · intro h
        exact ⟨_, encode_data_eq_ok.mpr ⟨h, rfl⟩⟩
      · rintro ⟨bytes, h⟩
        exact (encode_data_eq_ok.mp h).1
  | leaf manifest =>
      constructor
      · intro h
        exact ⟨_, encode_leaf_eq_ok.mpr ⟨h, rfl⟩⟩
      · rintro ⟨bytes, h⟩
        exact (encode_leaf_eq_ok.mp h).1
  | root manifest =>
      constructor
      · rintro ⟨geometry, hgeometry, hleaves⟩
        exact ⟨_, encode_root_eq_ok.mpr ⟨geometry, hgeometry, hleaves, rfl⟩⟩
      · rintro ⟨bytes, h⟩
        obtain ⟨geometry, hgeometry, hleaves, _⟩ := encode_root_eq_ok.mp h
        exact ⟨geometry, hgeometry, hleaves⟩

/-! ## Decoding what was encoded -/

theorem decode_encode_data {part : DataPart} (h : (data part).encode = .ok bytes) :
    decode bytes = .ok (data part) := by
  obtain ⟨⟨hindex, hpayload⟩, hbytes⟩ := encode_data_eq_ok.mp h
  have hkind : RecordKind.parse bytes = .ok .dataPart := RecordKind.parse_eq_ok.mpr ⟨_, hbytes⟩
  have hlength : bytes.length = 12 + part.payload.length := by
    rw [hbytes]
    simp [Format.prefixBytes]
    omega
  have hindexSlice : slice bytes 8 12 = toLe 4 part.index :=
    slice_eq RecordKind.dataPart.prefixOf _ _ hbytes rfl (by simp)
  have hrest : bytes.drop 12 = part.payload := by
    rw [hbytes, ← List.append_assoc]
    exact List.drop_left' (by simp [Format.prefixBytes])
  have hread : fromLe (toLe 4 part.index) = part.index := by
    apply fromLe_toLe
    simp only [Geometry.maxParts] at hindex
    omega
  simp only [decode, decodeData, hkind, Except.ok_bind, hlength, hindexSlice, hrest, hread,
    Except.bind_eq_ok, ensure_eq_ok, decide_eq_true_eq]
  refine ⟨(), ?_, (), by omega, (), hindex, trivial⟩
  simp only [Geometry.recordBytes, Geometry.dataBytes] at *
  omega

theorem decode_encode_leaf {manifest : LeafManifest} (h : (leaf manifest).encode = .ok bytes) :
    decode bytes = .ok (leaf manifest) := by
  obtain ⟨⟨hindex, hcount⟩, hbytes⟩ := encode_leaf_eq_ok.mp h
  have hkind : RecordKind.parse bytes = .ok .leafManifest :=
    RecordKind.parse_eq_ok.mpr ⟨_, hbytes⟩
  have hlength : bytes.length = 16 + manifest.entries.length * 64 := by
    rw [hbytes]
    simp [Format.prefixBytes]
    omega
  have hindexSlice : slice bytes 8 10 = toLe 2 manifest.index :=
    slice_eq RecordKind.leafManifest.prefixOf _ _ hbytes rfl (by simp)
  have hcountSlice : slice bytes 10 12 = toLe 2 manifest.entries.length :=
    slice_eq (RecordKind.leafManifest.prefixOf ++ toLe 2 manifest.index) _
      (toLe 4 manifest.firstIndex ++ encodeReferences manifest.entries)
      (by rw [hbytes]; simp) (by simp [Format.prefixBytes]) (by simp)
  have hfirstSlice : slice bytes 12 16 = toLe 4 manifest.firstIndex :=
    slice_eq (RecordKind.leafManifest.prefixOf ++ (toLe 2 manifest.index ++
      toLe 2 manifest.entries.length)) _ (encodeReferences manifest.entries)
      (by rw [hbytes]; simp) (by simp [Format.prefixBytes]) (by simp)
  have hrest : bytes.drop 16 = encodeReferences manifest.entries := by
    rw [hbytes, ← List.append_assoc, ← List.append_assoc, ← List.append_assoc]
    exact List.drop_left' (by simp [Format.prefixBytes])
  simp only [Geometry.fanout] at hindex hcount
  have hindexRead : fromLe (toLe 2 manifest.index) = manifest.index := fromLe_toLe (by omega)
  have hcountRead : fromLe (toLe 2 manifest.entries.length) = manifest.entries.length :=
    fromLe_toLe (by omega)
  have hfirstRead : fromLe (toLe 4 manifest.firstIndex) = manifest.index * Geometry.fanout := by
    apply fromLe_toLe
    simp only [LeafManifest.firstIndex, Geometry.fanout]
    omega
  have hentries : decodeReferences (encodeReferences manifest.entries) manifest.entries.length =
      .ok manifest.entries :=
    decodeReferences_eq_ok.mpr ⟨hcount, rfl, rfl⟩
  simp only [decode, decodeLeaf, hkind, Except.ok_bind, hlength, hindexSlice, hcountSlice,
    hfirstSlice, hrest, hindexRead, hcountRead, hfirstRead, hentries, Except.bind_eq_ok,
    ensure_eq_ok, decide_eq_true_eq, Bool.and_eq_true, beq_self_eq_true]
  refine ⟨(), ?_, (), by omega, (), ⟨hindex, trivial⟩, trivial⟩
  simp only [Geometry.recordBytes]
  omega

theorem decode_encode_root {manifest : RootManifest} (h : (root manifest).encode = .ok bytes) :
    decode bytes = .ok (root manifest) := by
  obtain ⟨geometry, hgeometry, hleaves, hbytes⟩ := encode_root_eq_ok.mp h
  obtain ⟨hlength, hgeometryEq⟩ := Geometry.new_eq_ok.mp hgeometry
  have hpositive := (Geometry.new_pos hgeometry).2
  have hparts : geometry.parts ≤ Geometry.maxParts ∧ geometry.leaves ≤ 64 := by
    rw [hgeometryEq]
    simp only [Geometry.maxObjectBytes, Geometry.dataBytes, Geometry.maxParts,
      Geometry.fanout] at *
    omega
  have hkind : RecordKind.parse bytes = .ok .rootManifest :=
    RecordKind.parse_eq_ok.mpr ⟨_, hbytes⟩
  have htotal : bytes.length = 64 + geometry.leaves * 64 := by
    rw [hbytes]
    simp [Format.prefixBytes, hleaves]
    omega
  have hlengthSlice : slice bytes 8 16 = toLe 8 manifest.length :=
    slice_eq RecordKind.rootManifest.prefixOf _ _ hbytes rfl (by simp)
  have hhashSlice : slice bytes 16 48 = manifest.payloadHash.toList :=
    slice_eq (RecordKind.rootManifest.prefixOf ++ toLe 8 manifest.length) _
      (toLe 4 geometry.parts ++ (toLe 2 geometry.leaves ++ ([0, 0] ++ (manifest.profile.toList ++
        encodeReferences manifest.entries))))
      (by rw [hbytes]; simp) (by simp [Format.prefixBytes]) (by simp)
  have hpartsSlice : slice bytes 48 52 = toLe 4 geometry.parts :=
    slice_eq (RecordKind.rootManifest.prefixOf ++ (toLe 8 manifest.length ++
      manifest.payloadHash.toList)) _
      (toLe 2 geometry.leaves ++ ([0, 0] ++ (manifest.profile.toList ++
        encodeReferences manifest.entries)))
      (by rw [hbytes]; simp) (by simp [Format.prefixBytes]) (by simp)
  have hleavesSlice : slice bytes 52 54 = toLe 2 geometry.leaves :=
    slice_eq (RecordKind.rootManifest.prefixOf ++ (toLe 8 manifest.length ++
      (manifest.payloadHash.toList ++ toLe 4 geometry.parts))) _
      ([0, 0] ++ (manifest.profile.toList ++ encodeReferences manifest.entries))
      (by rw [hbytes]; simp) (by simp [Format.prefixBytes]) (by simp)
  have hreservedSlice : slice bytes 54 56 = [0, 0] :=
    slice_eq (RecordKind.rootManifest.prefixOf ++ (toLe 8 manifest.length ++
      (manifest.payloadHash.toList ++ (toLe 4 geometry.parts ++ toLe 2 geometry.leaves)))) _
      (manifest.profile.toList ++ encodeReferences manifest.entries)
      (by rw [hbytes]; simp) (by simp [Format.prefixBytes]) (by simp)
  have hprofileSlice : slice bytes 56 64 = manifest.profile.toList :=
    slice_eq (RecordKind.rootManifest.prefixOf ++ (toLe 8 manifest.length ++
      (manifest.payloadHash.toList ++ (toLe 4 geometry.parts ++ (toLe 2 geometry.leaves ++
        [0, 0]))))) _
      (encodeReferences manifest.entries)
      (by rw [hbytes]; simp) (by simp [Format.prefixBytes]) (by simp)
  have hrest : bytes.drop 64 = encodeReferences manifest.entries := by
    have hsplit : bytes = (RecordKind.rootManifest.prefixOf ++ (toLe 8 manifest.length ++
        (manifest.payloadHash.toList ++ (toLe 4 geometry.parts ++ (toLe 2 geometry.leaves ++
          ([0, 0] ++ manifest.profile.toList)))))) ++ encodeReferences manifest.entries := by
      rw [hbytes]
      simp
    rw [hsplit]
    exact List.drop_left' (by simp [Format.prefixBytes])
  have hlengthRead : fromLe (toLe 8 manifest.length) = manifest.length := by
    apply fromLe_toLe
    simp only [Geometry.maxObjectBytes] at hlength
    omega
  have hpartsRead : fromLe (toLe 4 geometry.parts) = geometry.parts := by
    apply fromLe_toLe
    simp only [Geometry.maxParts] at hparts
    omega
  have hleavesRead : fromLe (toLe 2 geometry.leaves) = geometry.leaves :=
    fromLe_toLe (by omega)
  have hentries : decodeReferences (encodeReferences manifest.entries) geometry.leaves =
      .ok manifest.entries := by
    apply decodeReferences_eq_ok.mpr
    refine ⟨?_, hleaves, rfl⟩
    simp only [Geometry.fanout]
    omega
  simp only [decode, decodeRoot, hkind, Except.ok_bind, htotal, hlengthSlice, hhashSlice,
    hpartsSlice, hleavesSlice, hreservedSlice, hprofileSlice, hrest, hlengthRead, hpartsRead,
    hleavesRead, hgeometry, hentries, tryInto_toList, Except.bind_eq_ok, ensure_eq_ok,
    decide_eq_true_eq, Bool.and_eq_true, beq_self_eq_true]
  refine ⟨(), ?_, (), by omega, (), ⟨trivial, trivial⟩, (), trivial, trivial⟩
  simp only [Geometry.recordBytes]
  omega

/-! ## Encoding what was decoded -/

theorem encode_decode_data {part : DataPart} (h : decode bytes = .ok (data part)) :
    (data part).encode = .ok bytes := by
  have hbounds := decode_data_bounds h
  obtain ⟨_, hkind, hdecoded⟩ := decode_eq_ok h
  simp only [decodeData, Except.bind_eq_ok, ensure_eq_ok, decide_eq_true_eq] at hdecoded
  obtain ⟨_, hlength, _, _, hpart⟩ := hdecoded
  cases hpart
  apply encode_data_eq_ok.mpr
  refine ⟨hbounds, ?_⟩
  rw [toLe_fromLe_slice rfl hlength, ← drop_eq_slice_append (by decide)]
  exact RecordKind.eq_prefixOf_append hkind

theorem encode_decode_leaf {manifest : LeafManifest} (h : decode bytes = .ok (leaf manifest)) :
    (leaf manifest).encode = .ok bytes ∧
      fromLe (slice bytes 12 16) = manifest.index * Geometry.fanout := by
  have hbounds := decode_leaf_bounds h
  obtain ⟨_, hkind, hdecoded⟩ := decode_eq_ok h
  simp only [decodeLeaf, Except.bind_eq_ok, ensure_eq_ok, decide_eq_true_eq, Bool.and_eq_true,
    beq_iff_eq, decodeReferences_eq_ok] at hdecoded
  obtain ⟨_, hlength, _, ⟨_, hfirst⟩, entries, ⟨_, hcount, hrest⟩, hmanifest⟩ := hdecoded
  cases hmanifest
  refine ⟨encode_leaf_eq_ok.mpr ⟨hbounds, ?_⟩, hfirst⟩
  simp only [LeafManifest.firstIndex]
  have hindex : toLe 2 (fromLe (slice bytes 8 10)) = slice bytes 8 10 :=
    toLe_fromLe_slice rfl (by omega)
  have hcountField : toLe 2 (fromLe (slice bytes 10 12)) = slice bytes 10 12 :=
    toLe_fromLe_slice rfl (by omega)
  have hfirstField : toLe 4 (fromLe (slice bytes 12 16)) = slice bytes 12 16 :=
    toLe_fromLe_slice rfl (by omega)
  rw [← hfirst, hcount, ← hrest, hindex, hcountField, hfirstField,
    ← drop_eq_slice_append (by decide), ← drop_eq_slice_append (by decide),
    ← drop_eq_slice_append (by decide)]
  exact RecordKind.eq_prefixOf_append hkind

theorem encode_decode_root {manifest : RootManifest} (h : decode bytes = .ok (root manifest)) :
    (root manifest).encode = .ok bytes ∧
      ∃ geometry, Geometry.new manifest.length = .ok geometry ∧
        fromLe (slice bytes 48 52) = geometry.parts ∧
        fromLe (slice bytes 52 54) = geometry.leaves := by
  obtain ⟨_, hkind, hdecoded⟩ := decode_eq_ok h
  simp only [decodeRoot, Except.bind_eq_ok, ensure_eq_ok, decide_eq_true_eq, Bool.and_eq_true,
    beq_iff_eq, decodeReferences_eq_ok, tryInto_eq_ok] at hdecoded
  obtain ⟨_, hlength, geometry, hgeometry, _, ⟨hparts, hleaves⟩, _, hreserved, payloadHash,
    hhash, profile, hprofile, entries, ⟨_, hcount, hrest⟩, hmanifest⟩ := hdecoded
  cases hmanifest
  refine ⟨encode_root_eq_ok.mpr ⟨geometry, hgeometry, hcount.trans hleaves, ?_⟩, geometry,
    hgeometry, hparts, hleaves⟩
  have hlengthField : toLe 8 (fromLe (slice bytes 8 16)) = slice bytes 8 16 :=
    toLe_fromLe_slice rfl (by omega)
  have hpartsField : toLe 4 (fromLe (slice bytes 48 52)) = slice bytes 48 52 :=
    toLe_fromLe_slice rfl (by omega)
  have hleavesField : toLe 2 (fromLe (slice bytes 52 54)) = slice bytes 52 54 :=
    toLe_fromLe_slice rfl (by omega)
  rw [← hparts, ← hleaves, ← hrest, ← hhash, ← hprofile, ← hreserved, hlengthField, hpartsField,
    hleavesField, ← drop_eq_slice_append (by decide), ← drop_eq_slice_append (by decide),
    ← drop_eq_slice_append (by decide),
    ← drop_eq_slice_append (by decide), ← drop_eq_slice_append (by decide),
    ← drop_eq_slice_append (by decide)]
  exact RecordKind.eq_prefixOf_append hkind

/-! ## The bijection -/

theorem decode_encode (h : record.encode = .ok bytes) : decode bytes = .ok record := by
  cases record with
  | data part => exact decode_encode_data h
  | leaf manifest => exact decode_encode_leaf h
  | root manifest => exact decode_encode_root h

theorem encode_decode (h : decode bytes = .ok record) :
    record.encode = .ok bytes ∧ record.Declares bytes := by
  cases record with
  | data part => exact ⟨encode_decode_data h, trivial⟩
  | leaf manifest => exact encode_decode_leaf h
  | root manifest =>
      obtain ⟨hencode, geometry, hgeometry, hparts, hleaves⟩ := encode_decode_root h
      refine ⟨hencode, ?_⟩
      intro other hother
      cases hgeometry.symm.trans hother
      exact ⟨hparts, hleaves⟩

/-- **The multipart codec is a bijection** between the valid records and the byte strings that
decode, and an accepted byte string declares the positions and counts of its record. -/
theorem multipart_codec_bijective :
    (∀ record : MultipartRecord, record.Valid →
      ∃ bytes, record.encode = .ok bytes ∧ decode bytes = .ok record) ∧
    ∀ (bytes : Bytes) (record : MultipartRecord), decode bytes = .ok record →
      record.encode = .ok bytes ∧ record.Valid ∧ record.Declares bytes := by
  constructor
  · intro record hvalid
    obtain ⟨bytes, hencode⟩ := valid_iff.mp hvalid
    exact ⟨bytes, hencode, decode_encode hencode⟩
  · intro bytes record hdecode
    obtain ⟨hencode, hdeclares⟩ := encode_decode hdecode
    exact ⟨hencode, valid_iff.mpr ⟨bytes, hencode⟩, hdeclares⟩

end MultipartRecord

end Urma
