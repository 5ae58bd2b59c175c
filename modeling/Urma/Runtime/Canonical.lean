import Mathlib.Data.List.Dedup
import Urma.Lib.Sha256
import Urma.Runtime.Acceptance

/-!
# Canonical objects

A publication that ends with a root of the right count is laid out by the geometry of the length
its root declares: every data part has the length of its position, every leaf lists the group at
its position, the root lists the leaves.
-/

namespace Urma.Runtime

open Lib.Layout MultipartConsistency

variable {sha256 : Bytes → Bytes32} {data leaves : List Item} {item : Item}

/-! ## Payload lengths -/

/-- All data parts but the last are full. -/
theorem DataValid.payloads_length (h : DataValid (data ++ [item])) :
    (payloads (data ++ [item])).length =
      data.length * Geometry.dataBytes + item.payload.length := by
  have hfull : ∀ part ∈ data, part.payload.length = Geometry.dataBytes := by
    intro part hmem
    obtain ⟨i, hi⟩ := List.mem_iff_getElem?.mp hmem
    have hbound := (List.getElem?_eq_some_iff.mp hi).1
    apply h.full i part
    · rw [List.length_append, List.length_singleton]
      omega
    · rw [List.getElem?_append_left hbound]
      exact hi
  have hblocks : ∀ block ∈ data.map Item.payload, block.length = Geometry.dataBytes := by
    intro block hmem
    obtain ⟨part, hpart, rfl⟩ := List.mem_map.mp hmem
    exact hfull part hpart
  rw [payloads_append, List.length_append, payloads, payloads, List.flatMap_singleton,
    List.flatMap_def, flatten_length_of_forall hblocks, List.length_map]

/-- **Every part has the length of its position.** -/
theorem DataValid.partLength (h : DataValid data) {geometry : Geometry}
    (hgeometry : Geometry.new (payloads data).length = .ok geometry)
    (hparts : data.length = geometry.parts) {i : ℕ} (hi : data[i]? = some item) :
    geometry.partLength i = .ok item.payload.length := by
  obtain ⟨_, rfl⟩ := Geometry.new_eq_ok.mp hgeometry
  have hbound := (List.getElem?_eq_some_iff.mp hi).1
  have hwithin : decide (i < max (((payloads data).length + Geometry.dataBytes - 1) /
      Geometry.dataBytes) 1) = true := by
    rw [decide_eq_true_eq]
    exact Nat.lt_of_lt_of_eq hbound hparts
  have hle := (MultipartRecord.decode_data_bounds (h.part i item hi)).2
  rw [Geometry.partLength, hwithin, ensure_true, Except.ok_bind]
  apply congrArg Except.ok
  cases data using List.reverseRecOn with
  | nil => cases hi
  | append_singleton data last _ =>
      have htotal := h.payloads_length
      have hlast := (MultipartRecord.decode_data_bounds
        (h.part data.length last List.getElem?_concat_length)).2
      rw [List.length_append, List.length_singleton] at hbound
      simp only at hle hlast ⊢
      rw [htotal]
      by_cases hfinal : i = data.length
      · rw [hfinal, List.getElem?_concat_length] at hi
        cases hi
        rw [hfinal, Nat.add_sub_cancel_left]
        exact Nat.min_eq_left hle
      · have hfull := h.full i item (by rw [List.length_append, List.length_singleton]; omega) hi
        have hroom : i * Geometry.dataBytes + Geometry.dataBytes ≤
            data.length * Geometry.dataBytes := by
          rw [← Nat.succ_mul]
          exact Nat.mul_le_mul_right _ (by omega)
        rw [hfull]
        apply Nat.min_eq_right
        apply Nat.le_sub_of_add_le
        rw [Nat.add_comm]
        exact Nat.le_add_right_of_le hroom

/-! ## Canonical records -/

/-- The records of an object, laid out by its geometry. -/
structure CanonicalAs (sha256 : Bytes → Bytes32) (records : List Item) (count : ℕ)
    (data leaves : List Item) (root : Item) (manifest : RootManifest) (geometry : Geometry) :
    Prop where
  layout : records = data ++ (leaves ++ [root])
  rootRecord : MultipartRecord.decode root.1 = .ok (.root manifest)
  rootGeometry : Geometry.new manifest.length = .ok geometry
  partCount : data.length = geometry.parts
  part : ∀ (i : ℕ) (item : Item), data[i]? = some item → ∃ payload,
    MultipartRecord.decode item.1 = .ok (.data ⟨i, payload⟩) ∧
      geometry.partLength i = .ok payload.length
  leafCount : leaves.length = geometry.leaves
  leaf : ∀ (j : ℕ) (item : Item), leaves[j]? = some item →
    MultipartRecord.decode item.1 = .ok (.leaf ⟨j,
      ((references sha256 data).drop (j * Geometry.fanout)).take Geometry.fanout⟩)
  payloadHash : manifest.payloadHash = sha256 (payloads data)
  entries : manifest.entries = references sha256 leaves
  nodes : count = geometry.nodes

variable {records : List Item} {count : ℕ} {root : Item} {manifest : RootManifest}
  {geometry : Geometry}

/-- Canonical data parts are valid, and their payloads have the length the root declares. -/
theorem CanonicalAs.dataValid
    (h : CanonicalAs sha256 records count data leaves root manifest geometry) :
    DataValid data ∧ (payloads data).length = manifest.length := by
  obtain ⟨_, hgeometry⟩ := Geometry.new_eq_ok.mp h.rootGeometry
  have hparts := h.partCount
  have hpart : ∀ (i : ℕ) (item : Item), data[i]? = some item →
      MultipartRecord.decode item.1 = .ok (.data ⟨i, item.payload⟩) ∧
        item.payload.length =
          min (manifest.length - i * Geometry.dataBytes) Geometry.dataBytes := by
    intro i item hi
    obtain ⟨payload, hdecode, hlength⟩ := h.part i item hi
    have hpayload : item.payload = payload := payload_of_decode hdecode
    simp only [Geometry.partLength, Except.bind_eq_ok] at hlength
    obtain ⟨_, _, hlength⟩ := hlength
    rw [hgeometry] at hlength
    rw [hpayload]
    exact ⟨hdecode, (Except.ok.inj hlength).symm⟩
  have hvalid : DataValid data := by
    constructor
    · intro i item hi
      exact (hpart i item hi).1
    · intro i item hnext hi
      rw [(hpart i item hi).2]
      rw [hparts, hgeometry] at hnext
      simp only [Geometry.dataBytes] at *
      omega
  refine ⟨hvalid, ?_⟩
  cases data using List.reverseRecOn with
  | nil =>
      rw [hgeometry] at hparts
      simp only [List.length_nil] at hparts
      omega
  | append_singleton data last _ =>
      have hlast := (hpart data.length last List.getElem?_concat_length).2
      rw [hvalid.payloads_length, hlast]
      rw [hgeometry, List.length_append, List.length_singleton] at hparts
      simp only [Geometry.dataBytes] at *
      omega

theorem CanonicalAs.leavesValid
    (h : CanonicalAs sha256 records count data leaves root manifest geometry) :
    LeavesValid sha256 data leaves := by
  obtain ⟨_, hgeometry⟩ := Geometry.new_eq_ok.mp h.rootGeometry
  constructor
  intro j item hj
  refine ⟨_, ?_, h.leaf j item hj⟩
  have hbound := (List.getElem?_eq_some_iff.mp hj).1
  have hparts := h.partCount
  have hleaves := h.leafCount
  have hwithin : j * Geometry.fanout < (references sha256 data).length := by
    rw [references_length, hparts]
    rw [hleaves] at hbound
    rw [hgeometry] at hbound ⊢
    simp only [Geometry.fanout] at *
    omega
  rw [groupsOf, chunks_getElem? (by decide), if_pos hwithin]

/-- **A valid publication with a root is canonical**, and nothing else is. -/
theorem canonical_iff :
    (∃ q : Publication, q.items = records ∧ q.Valid sha256 ∧
        (q.order sha256).finish count = .ok ()) ↔
      ∃ data leaves root manifest geometry,
        CanonicalAs sha256 records count data leaves root manifest geometry := by
  constructor
  · rintro ⟨⟨data, leaves, root⟩, rfl, hvalid, hfinish⟩
    simp only [Order.finish, validateCount, Except.bind_eq_ok, ensure_eq_ok,
      beq_iff_eq] at hfinish
    obtain ⟨_, hroot, geometry, hgeometry, hcount⟩ := hfinish
    cases root with
    | none => cases hroot
    | some root =>
        obtain ⟨manifest, geometry', hdecode, hgeometry', hpayload, hentries, hlength, hparts,
          hleaves⟩ := (hvalid.root root rfl).manifest
        have hgeometry : Geometry.new (payloads data).length = .ok geometry := hgeometry
        have hsame : geometry = geometry' := by
          rw [← hlength, hgeometry] at hgeometry'
          exact Except.ok.inj hgeometry'
        rw [← hsame] at hgeometry' hparts hleaves
        refine ⟨data, leaves, root, manifest, geometry, rfl, hdecode, hgeometry', hparts, ?_,
          hleaves, ?_, hpayload, hentries, hcount.symm⟩
        · intro i item hi
          exact ⟨item.payload, hvalid.data.part i item hi,
            hvalid.data.partLength hgeometry hparts hi⟩
        · intro j item hj
          obtain ⟨group, hgroup, hleaf⟩ := hvalid.leaves.leaf j item hj
          rw [hleaf, (groupsOf_getElem? hgroup).2.1]
  · rintro ⟨data, leaves, root, manifest, geometry, h⟩
    obtain ⟨hdata, hlength⟩ := h.dataValid
    refine ⟨⟨data, leaves, some root⟩, h.layout.symm, ⟨hdata, h.leavesValid, ?_⟩, ?_⟩
    · intro other hother
      cases hother
      exact ⟨⟨manifest, geometry, h.rootRecord, h.rootGeometry, h.payloadHash, h.entries, hlength,
        h.partCount, h.leafCount⟩⟩
    · have hgeometry : Geometry.new (payloads data).length = .ok geometry := by
        rw [hlength]
        exact h.rootGeometry
      simp only [Order.finish, validateCount, Except.bind_eq_ok, ensure_eq_ok, beq_iff_eq]
      exact ⟨(), rfl, geometry, hgeometry, h.nodes.symm⟩

/-- **The acceptor accepts exactly the canonical objects**, and the payloads of what it accepts
are the object its root names: they have its length and its hash, and every part but the last is
full. -/
theorem publish_canonical (sha256 : Bytes → Bytes32) (records : List Item) (count : ℕ)
    (hfree : Publication.CollisionFree sha256 records) :
    (Order.publish sha256 records count = .ok () ↔
      ∃ data leaves root manifest geometry,
        CanonicalAs sha256 records count data leaves root manifest geometry) ∧
    ∀ data leaves root manifest geometry,
      CanonicalAs sha256 records count data leaves root manifest geometry →
      (payloads data).length = manifest.length ∧ sha256 (payloads data) = manifest.payloadHash ∧
        ∀ (i : ℕ) (item : Item), i + 1 < data.length → data[i]? = some item →
          item.payload.length = Geometry.dataBytes := by
  constructor
  · rw [← canonical_iff, Order.publish, Except.bind_eq_ok]
    constructor
    · rintro ⟨order, hrun, hfinish⟩
      obtain ⟨q, hitems, hq, rfl⟩ := (Publication.run_new_eq_ok hfree).mp hrun
      exact ⟨q, hitems, hq, hfinish⟩
    · rintro ⟨q, hitems, hq, hfinish⟩
      exact ⟨q.order sha256, (Publication.run_new_eq_ok hfree).mpr ⟨q, hitems, hq, rfl⟩, hfinish⟩
  · intro data leaves root manifest geometry h
    obtain ⟨hdata, hlength⟩ := h.dataValid
    exact ⟨hlength, h.payloadHash.symm, hdata.full⟩

/-! ## A published object -/

namespace Sample

def payload : Bytes := [112, 97, 121, 108, 111, 97, 100]

/-- A record and the transaction that carries it. -/
def itemOf (record : MultipartRecord) (txid : UInt8) : Item :=
  (record.encode.toOption.getD [], ⟨Vector.replicate 32 txid⟩)

def dataItem : Item := itemOf (.data ⟨0, payload⟩) 1

def leafItem : Item := itemOf (.leaf ⟨0, references Lib.Sha256.hash [dataItem]⟩) 2

def rootItem : Item :=
  itemOf (.root ⟨7, Lib.Sha256.hash payload, #v[85, 82, 77, 65, 70, 73, 76, 48],
    references Lib.Sha256.hash [leafItem]⟩) 3

/-- The records of an object of one part. -/
def object : List Item := [dataItem, leafItem, rootItem]

theorem object_collisionFree : Publication.CollisionFree Lib.Sha256.hash object := by
  have hdistinct : ((Publication.comparedReferences Lib.Sha256.hash object).dedup.map
      (referencesHash Lib.Sha256.hash)).Nodup := by
    decide +kernel
  intro a ha b hb hhash
  exact List.inj_on_of_nodup_map hdistinct (List.mem_dedup.mpr ha) (List.mem_dedup.mpr hb) hhash

end Sample

theorem publish_canonical_object :
    Order.publish Lib.Sha256.hash Sample.object 3 = .ok () ∧
    ∃ data leaves root manifest geometry,
      CanonicalAs Lib.Sha256.hash Sample.object 3 data leaves root manifest geometry := by
  have haccepted : Order.publish Lib.Sha256.hash Sample.object 3 = .ok () := by decide +kernel
  exact ⟨haccepted, (publish_canonical Lib.Sha256.hash Sample.object 3
    Sample.object_collisionFree).1.mp haccepted⟩

end Urma.Runtime
