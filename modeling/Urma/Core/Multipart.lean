import Urma.Core.Format

/-!
# Multipart records

`urma_core::multipart`: an object too large for one record is published as data parts, leaf
manifests that list the parts, and one root manifest that lists the leaves. Its geometry follows
from its length. A manifest names a record by its transaction and the hash of its bytes.
-/

namespace Urma

open Lib.Layout

/-! ## Geometry -/

/-- `multipart::Geometry`. -/
structure Geometry where
  length : ℕ
  parts : ℕ
  leaves : ℕ
  deriving DecidableEq

namespace Geometry

def recordBytes : ℕ := 262144
def dataBytes : ℕ := 262132
def fanout : ℕ := 511
def maxParts : ℕ := 32630
def maxObjectBytes : ℕ := 8553279476

/-- `Geometry::new`. -/
def new (length : ℕ) : Except Error Geometry := do
  ensure (length ≤ maxObjectBytes) "multipart length outside bounds"
  let parts ← tryU32 (max ((length + dataBytes - 1) / dataBytes) 1)
  let leaves ← tryU16 ((parts + fanout - 1) / fanout)
  .ok { length, parts, leaves }

/-- `Geometry::nodes`. -/
def nodes (geometry : Geometry) : ℕ :=
  geometry.parts + geometry.leaves + 1

/-- `Geometry::part_length`. The offset of a part never exceeds the length. -/
def partLength (geometry : Geometry) (index : ℕ) : Except Error ℕ := do
  ensure (index < geometry.parts) "part index outside object"
  .ok (min (geometry.length - index * dataBytes) dataBytes)

/-- `Geometry::leaf_entries`. -/
def leafEntries (geometry : Geometry) (index : ℕ) : Except Error ℕ := do
  ensure (index < geometry.leaves) "leaf index outside object"
  tryU16 (min (geometry.parts - index * fanout) fanout)

end Geometry

/-! ## References -/

/-- `ChildReference`. -/
structure ChildReference where
  txid : Txid
  recordHash : Bytes32
  deriving DecidableEq

/-- The 64 bytes of a reference. -/
def ChildReference.encode (reference : ChildReference) : Bytes :=
  reference.txid.bytes.toList ++ reference.recordHash.toList

/-- `encode_references`, on an empty buffer. -/
def encodeReferences (entries : List ChildReference) : Bytes :=
  (entries.map ChildReference.encode).flatten

/-- One step of the loop of `decode_references`. -/
def decodeReference (entry : Bytes) : Except Error ChildReference := do
  let txid ← tryInto 32 (entry.take 32)
  let recordHash ← tryInto 32 (entry.drop 32)
  .ok { txid := ⟨txid⟩, recordHash }

/-- `decode_references`. -/
def decodeReferences (bytes : Bytes) (count : ℕ) : Except Error (List ChildReference) := do
  ensure (1 ≤ count && count ≤ Geometry.fanout) "reference count outside bounds"
  ensure (bytes.length == count * 64) "incorrect reference bytes or trailing data"
  (asChunks 64 bytes).mapM decodeReference

/-! ## Records -/

/-- `DataPart`. -/
structure DataPart where
  index : ℕ
  payload : Bytes
  deriving DecidableEq

/-- `LeafManifest`. -/
structure LeafManifest where
  index : ℕ
  entries : List ChildReference
  deriving DecidableEq

/-- `LeafManifest::first_index`. -/
def LeafManifest.firstIndex (leaf : LeafManifest) : ℕ :=
  leaf.index * Geometry.fanout

/-- `LeafManifest::validate`. -/
def LeafManifest.validate (leaf : LeafManifest) : Except Error Unit := do
  ensure (leaf.index < Geometry.fanout) "leaf index outside bounds"
  ensure (1 ≤ leaf.entries.length && leaf.entries.length ≤ Geometry.fanout)
    "leaf entry count outside bounds"

/-- `RootManifest`. -/
structure RootManifest where
  length : ℕ
  payloadHash : Bytes32
  profile : Vector UInt8 8
  entries : List ChildReference
  deriving DecidableEq

/-- `RootManifest::geometry`. -/
def RootManifest.geometry (root : RootManifest) : Except Error Geometry := do
  let geometry ← Geometry.new root.length
  ensure (root.entries.length == geometry.leaves) "root leaf count disagrees with length"
  .ok geometry

/-- `MultipartRecord`. -/
inductive MultipartRecord where
  | data (part : DataPart)
  | leaf (manifest : LeafManifest)
  | root (manifest : RootManifest)
  deriving DecidableEq

namespace MultipartRecord

/-- `MultipartRecord::kind`. -/
def kind : MultipartRecord → RecordKind
  | data _ => .dataPart
  | leaf _ => .leafManifest
  | root _ => .rootManifest

/-- `MultipartRecord::encode`. -/
def encode : MultipartRecord → Except Error Bytes
  | data part => do
      ensure (part.index < Geometry.maxParts) "part index outside bounds"
      ensure (part.payload.length ≤ Geometry.dataBytes) "data record exceeds cap"
      .ok (RecordKind.dataPart.prefixOf ++ (toLe 4 part.index ++ part.payload))
  | leaf manifest => do
      manifest.validate
      let count ← tryU16 manifest.entries.length
      .ok (RecordKind.leafManifest.prefixOf ++ (toLe 2 manifest.index ++ (toLe 2 count ++
        (toLe 4 manifest.firstIndex ++ encodeReferences manifest.entries))))
  | root manifest => do
      let geometry ← manifest.geometry
      .ok (RecordKind.rootManifest.prefixOf ++ (toLe 8 manifest.length ++
        (manifest.payloadHash.toList ++ (toLe 4 geometry.parts ++ (toLe 2 geometry.leaves ++
          ([0, 0] ++ (manifest.profile.toList ++ encodeReferences manifest.entries)))))))

/-- `decode_data`. -/
def decodeData (bytes : Bytes) : Except Error MultipartRecord := do
  ensure (12 ≤ bytes.length) "truncated data part"
  let index := fromLe (slice bytes 8 12)
  ensure (index < Geometry.maxParts) "part index outside bounds"
  .ok (.data { index, payload := bytes.drop 12 })

/-- `decode_leaf`. -/
def decodeLeaf (bytes : Bytes) : Except Error MultipartRecord := do
  ensure (16 ≤ bytes.length) "truncated leaf manifest"
  let index := fromLe (slice bytes 8 10)
  let count := fromLe (slice bytes 10 12)
  let first := fromLe (slice bytes 12 16)
  ensure (index < Geometry.fanout && first == index * Geometry.fanout)
    "noncanonical leaf position"
  let entries ← decodeReferences (bytes.drop 16) count
  .ok (.leaf { index, entries })

/-- `decode_root`. -/
def decodeRoot (bytes : Bytes) : Except Error MultipartRecord := do
  ensure (64 ≤ bytes.length) "truncated root manifest"
  let length := fromLe (slice bytes 8 16)
  let geometry ← Geometry.new length
  let parts := fromLe (slice bytes 48 52)
  let leaves := fromLe (slice bytes 52 54)
  ensure (parts == geometry.parts && leaves == geometry.leaves) "noncanonical root geometry"
  ensure (slice bytes 54 56 == [0, 0]) "nonzero root reserved field"
  let payloadHash ← tryInto 32 (slice bytes 16 48)
  let profile ← tryInto 8 (slice bytes 56 64)
  let entries ← decodeReferences (bytes.drop 64) leaves
  .ok (.root { length, payloadHash, profile, entries })

/-- `MultipartRecord::decode`. -/
def decode (bytes : Bytes) : Except Error MultipartRecord := do
  let kind ← RecordKind.parse bytes
  ensure (bytes.length ≤ Geometry.recordBytes) "multipart record exceeds cap"
  match kind with
  | .dataPart => decodeData bytes
  | .leafManifest => decodeLeaf bytes
  | .rootManifest => decodeRoot bytes
  | _ => .error (.invalid "not a multipart record")

end MultipartRecord

/-! ## What geometry says -/

namespace Geometry

variable {geometry : Geometry} {length : ℕ}

/-- **The geometry of a length.** -/
theorem new_eq_ok :
    new length = .ok geometry ↔ length ≤ maxObjectBytes ∧
      geometry = ⟨length, max ((length + dataBytes - 1) / dataBytes) 1,
        (max ((length + dataBytes - 1) / dataBytes) 1 + fanout - 1) / fanout⟩ := by
  simp only [new, Except.bind_eq_ok, ensure_eq_ok, tryU32_eq_ok, tryU16_eq_ok,
    decide_eq_true_eq]
  constructor
  · rintro ⟨_, hlength, _, ⟨_, rfl⟩, _, ⟨_, rfl⟩, hgeometry⟩
    cases hgeometry
    exact ⟨hlength, rfl⟩
  · rintro ⟨hlength, rfl⟩
    refine ⟨(), hlength, _, ⟨?_, rfl⟩, _, ⟨?_, rfl⟩, rfl⟩
    · simp only [maxObjectBytes, dataBytes, u32Max] at *
      omega
    · simp only [maxObjectBytes, dataBytes, fanout, u16Max] at *
      omega

/-- An object has a part, and a leaf. -/
theorem new_pos (h : new length = .ok geometry) : 0 < geometry.parts ∧ 0 < geometry.leaves := by
  obtain ⟨_, rfl⟩ := new_eq_ok.mp h
  simp only [fanout]
  omega

end Geometry

/-! ## What decoding says -/

namespace ChildReference

@[simp] theorem encode_length (reference : ChildReference) : reference.encode.length = 64 := by
  rw [encode, List.length_append, Vector.length_toList, Vector.length_toList]

theorem encode_injective {a b : ChildReference} (h : a.encode = b.encode) : a = b := by
  obtain ⟨htxid, hhash⟩ := List.append_inj h (by simp)
  obtain ⟨⟨txid⟩, hash⟩ := a
  obtain ⟨⟨txid'⟩, hash'⟩ := b
  cases Vector.toList_inj.mp htxid
  cases Vector.toList_inj.mp hhash
  rfl

end ChildReference

theorem length_of_mem_encode {entries : List ChildReference} :
    ∀ entry ∈ entries.map ChildReference.encode, entry.length = 64 := by
  intro entry hmem
  obtain ⟨reference, _, rfl⟩ := List.mem_map.mp hmem
  exact reference.encode_length

/-- **References are told apart by their bytes.** -/
theorem encodeReferences_injective {a b : List ChildReference}
    (h : encodeReferences a = encodeReferences b) : a = b := by
  have ha := asChunks_flatten (by decide) (@length_of_mem_encode a)
  have hb := asChunks_flatten (by decide) (@length_of_mem_encode b)
  have hencoded : a.map ChildReference.encode = b.map ChildReference.encode := by
    rw [← ha, ← hb]
    exact congrArg (asChunks 64) h
  exact (List.map_inj_right (fun _ _ => ChildReference.encode_injective)).mp hencoded

theorem encodeReferences_append (a b : List ChildReference) :
    encodeReferences (a ++ b) = encodeReferences a ++ encodeReferences b := by
  rw [encodeReferences, encodeReferences, encodeReferences, List.map_append, List.flatten_append]

theorem decodeReferences_length {bytes : Bytes} {count : ℕ} {entries : List ChildReference}
    (h : decodeReferences bytes count = .ok entries) :
    entries.length = count ∧ 1 ≤ count ∧ count ≤ Geometry.fanout := by
  simp only [decodeReferences, Except.bind_eq_ok, ensure_eq_ok, Bool.and_eq_true,
    decide_eq_true_eq, beq_iff_eq] at h
  obtain ⟨_, hcount, _, hlength, hentries⟩ := h
  have hsame := Except.length_of_mapM_eq_ok hentries
  rw [asChunks, blocks_length, hlength, Nat.mul_div_cancel _ (by decide)] at hsame
  exact ⟨hsame, hcount⟩

namespace MultipartRecord

variable {bytes : Bytes}

/-- What each decoder is reached through. -/
theorem decode_eq_ok {record : MultipartRecord} (h : decode bytes = .ok record) :
    bytes.length ≤ Geometry.recordBytes ∧ RecordKind.parse bytes = .ok record.kind ∧
      match record with
      | .data part => decodeData bytes = .ok (.data part)
      | .leaf manifest => decodeLeaf bytes = .ok (.leaf manifest)
      | .root manifest => decodeRoot bytes = .ok (.root manifest) := by
  simp only [decode, Except.bind_eq_ok, ensure_eq_ok, decide_eq_true_eq] at h
  obtain ⟨kind, hkind, _, hlength, hrecord⟩ := h
  refine ⟨hlength, ?_⟩
  split at hrecord
  · have hdecoded := hrecord
    simp only [decodeData, Except.bind_eq_ok] at hrecord
    obtain ⟨_, _, _, _, hrecord⟩ := hrecord
    cases hrecord
    exact ⟨hkind, hdecoded⟩
  · have hdecoded := hrecord
    simp only [decodeLeaf, Except.bind_eq_ok] at hrecord
    obtain ⟨_, _, _, _, _, _, hrecord⟩ := hrecord
    cases hrecord
    exact ⟨hkind, hdecoded⟩
  · have hdecoded := hrecord
    simp only [decodeRoot, Except.bind_eq_ok] at hrecord
    obtain ⟨_, _, _, _, _, _, _, _, _, _, _, _, _, _, hrecord⟩ := hrecord
    cases hrecord
    exact ⟨hkind, hdecoded⟩
  · cases hrecord

/-- An accepted part has an index and a payload within bounds. -/
theorem decode_data_bounds {part : DataPart} (h : decode bytes = .ok (.data part)) :
    part.index < Geometry.maxParts ∧ part.payload.length ≤ Geometry.dataBytes := by
  obtain ⟨hlength, _, hdecoded⟩ := decode_eq_ok h
  simp only [decodeData, Except.bind_eq_ok, ensure_eq_ok, decide_eq_true_eq] at hdecoded
  obtain ⟨_, hheader, _, hindex, hpart⟩ := hdecoded
  cases hpart
  refine ⟨hindex, ?_⟩
  rw [List.length_drop]
  simp only [Geometry.recordBytes, Geometry.dataBytes] at *
  omega

/-- An accepted leaf lists between one and `fanout` references. -/
theorem decode_leaf_bounds {manifest : LeafManifest} (h : decode bytes = .ok (.leaf manifest)) :
    manifest.index < Geometry.fanout ∧ 1 ≤ manifest.entries.length ∧
      manifest.entries.length ≤ Geometry.fanout := by
  obtain ⟨_, _, hdecoded⟩ := decode_eq_ok h
  simp only [decodeLeaf, Except.bind_eq_ok, ensure_eq_ok, Bool.and_eq_true,
    decide_eq_true_eq] at hdecoded
  obtain ⟨_, _, _, hposition, entries, hentries, hmanifest⟩ := hdecoded
  cases hmanifest
  obtain ⟨hlength, hcount⟩ := decodeReferences_length hentries
  rw [hlength]
  exact ⟨hposition.1, hcount⟩

/-- An accepted root lists as many leaves as its length takes. -/
theorem decode_root_geometry {manifest : RootManifest}
    (h : decode bytes = .ok (.root manifest)) :
    ∃ geometry, Geometry.new manifest.length = .ok geometry ∧
      manifest.entries.length = geometry.leaves := by
  obtain ⟨_, _, hdecoded⟩ := decode_eq_ok h
  simp only [decodeRoot, Except.bind_eq_ok, ensure_eq_ok, Bool.and_eq_true, beq_iff_eq] at hdecoded
  obtain ⟨_, _, geometry, hgeometry, _, hcounts, _, _, _, _, _, _, entries, hentries, hmanifest⟩ :=
    hdecoded
  cases hmanifest
  refine ⟨geometry, hgeometry, ?_⟩
  rw [(decodeReferences_length hentries).1]
  exact hcounts.2

end MultipartRecord

end Urma
