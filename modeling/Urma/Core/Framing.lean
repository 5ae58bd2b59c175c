import Urma.Core.Container

/-!
# The framing of a container

A container is a header, the number of its entries, and the entries: each record after its
length. `pack` writes this framing, `framed_records` and `framed_record` accept nothing else.
-/

namespace Urma.Container

open Std Lib.Layout Format

/-- A record after its length. -/
def entryOf (record : Bytes) : Bytes :=
  toLe 4 record.length ++ record

/-- The container of some records. -/
def frame (records : List Bytes) : Bytes :=
  RecordKind.container.prefixOf ++ (toLe 4 records.length ++ (records.map entryOf).flatten)

/-- Records a container can carry: some, not too many, each of the one length there is. What
their bytes are is not looked at. -/
structure Framable (records : List Bytes) : Prop where
  nonempty : 0 < records.length
  count : records.length ≤ u32Max
  length : ∀ record ∈ records, record.length = privateRecordBytes

variable {records : List Bytes} {bytes : Bytes}

theorem entryOf_length {record : Bytes} (h : record.length = privateRecordBytes) :
    (entryOf record).length = privateRecordBytes + 4 := by
  rw [entryOf, List.length_append, toLe_length, h, Nat.add_comm]

@[simp] theorem drop_entryOf (record : Bytes) : (entryOf record).drop 4 = record :=
  List.drop_left' (toLe_length 4 _)

theorem containerSize_eq {count : ℕ} (h : count ≤ u32Max) :
    containerSize count = .ok (count * (privateRecordBytes + 4) + containerHeaderBytes) := by
  have hu32 : u32Max = 4294967295 := rfl
  have hfits : count * (privateRecordBytes + 4) + containerHeaderBytes ≤ u64Max := by
    simp only [privateRecordBytes, containerHeaderBytes, u64Max]
    omega
  have hmul : checkedMul count (privateRecordBytes + 4) =
      some (count * (privateRecordBytes + 4)) :=
    checkedMul_eq_some.mpr ⟨Nat.le_trans (Nat.le_add_right _ _) hfits, rfl⟩
  have hadd : checkedAdd (count * (privateRecordBytes + 4)) containerHeaderBytes =
      some (count * (privateRecordBytes + 4) + containerHeaderBytes) :=
    checkedAdd_eq_some.mpr ⟨hfits, rfl⟩
  rw [containerSize, hmul]
  exact congrArg (context · "container size overflow") hadd

/-! ## Reading what was framed -/

theorem flatten_entries_length (h : ∀ record ∈ records, record.length = privateRecordBytes) :
    (records.map entryOf).flatten.length = records.length * (privateRecordBytes + 4) := by
  have hentries : ∀ entry ∈ records.map entryOf, entry.length = privateRecordBytes + 4 := by
    intro entry hmem
    obtain ⟨record, hrecord, rfl⟩ := List.mem_map.mp hmem
    exact entryOf_length (h record hrecord)
  rw [flatten_length_of_forall hentries, List.length_map]

/-- **The entries of a container are read back.** -/
theorem framedRecords_frame (h : Framable records) :
    framedRecords (frame records) = .ok (records.map entryOf) := by
  have hu32 : u32Max < 256 ^ 4 := by decide
  have hkind : RecordKind.parse (frame records) = .ok .container :=
    RecordKind.parse_eq_ok.mpr ⟨_, rfl⟩
  have hcount : slice (frame records) 8 12 = toLe 4 records.length :=
    slice_eq RecordKind.container.prefixOf _ _ rfl rfl (by simp)
  have hlength : (frame records).length =
      records.length * (privateRecordBytes + 4) + containerHeaderBytes := by
    rw [frame, List.length_append, List.length_append, RecordKind.prefixOf_length, toLe_length,
      flatten_entries_length h.length]
    simp only [prefixBytes, containerHeaderBytes]
    omega
  have hdrop : (frame records).drop containerHeaderBytes = (records.map entryOf).flatten := by
    rw [frame, ← List.append_assoc]
    exact List.drop_left' (by rw [List.length_append, toLe_length]; rfl)
  have hentries : ∀ entry ∈ records.map entryOf, entry.length = privateRecordBytes + 4 := by
    intro entry hmem
    obtain ⟨record, hrecord, rfl⟩ := List.mem_map.mp hmem
    exact entryOf_length (h.length record hrecord)
  have hheader : (decide (containerHeaderBytes ≤
      records.length * (privateRecordBytes + 4) + containerHeaderBytes)) = true := by
    rw [decide_eq_true_eq]
    exact Nat.le_add_left _ _
  have hread : fromLe (toLe 4 records.length) = records.length :=
    fromLe_toLe (by have := h.count; omega)
  have hpositive : decide (0 < records.length) = true := decide_eq_true h.nonempty
  simp only [framedRecords, hkind, hcount, hlength, hdrop, Except.ok_bind, beq_self_eq_true,
    ensure_true, hheader, hread, hpositive, containerSize_eq h.count]
  rw [asChunks_flatten (by decide) hentries]

theorem framedRecord_entryOf {record : Bytes} (h : record.length = privateRecordBytes) :
    framedRecord (entryOf record) = .ok record := by
  have htake : (entryOf record).take 4 = toLe 4 record.length :=
    List.take_left' (toLe_length 4 _)
  have hread : fromLe (toLe 4 record.length) = privateRecordBytes := by
    rw [h]
    exact fromLe_toLe (by decide)
  rw [framedRecord, htake, hread, drop_entryOf]
  rfl

/-! ## Nothing else is accepted -/

/-- An entry whose length field is right is a record after its length. -/
theorem eq_entryOf {entry record : Bytes} (hlength : entry.length = privateRecordBytes + 4)
    (h : framedRecord entry = .ok record) :
    entry = entryOf record ∧ record.length = privateRecordBytes := by
  simp only [framedRecord, Except.bind_eq_ok, ensure_eq_ok, beq_iff_eq] at h
  obtain ⟨_, hfield, hrecord⟩ := h
  cases hrecord
  have hrest : (entry.drop 4).length = privateRecordBytes := by
    rw [List.length_drop, hlength]
    rfl
  have hwidth : (entry.take 4).length = 4 := by
    rw [List.length_take, hlength]
    rfl
  have htake : entry.take 4 = toLe 4 privateRecordBytes := by
    rw [← hfield]
    have hwrite := toLe_fromLe (entry.take 4)
    rw [hwidth] at hwrite
    exact hwrite.symm
  refine ⟨?_, hrest⟩
  rw [entryOf, hrest, ← htake, List.take_append_drop]

/-- Entries whose length fields are right are records after their lengths. -/
theorem map_entryOf_drop {entries : List Bytes}
    (hlength : ∀ entry ∈ entries, entry.length = privateRecordBytes + 4)
    (h : ∀ entry ∈ entries, ∃ record, framedRecord entry = .ok record) :
    (entries.map (List.drop 4)).map entryOf = entries ∧
      ∀ record ∈ entries.map (List.drop 4), record.length = privateRecordBytes := by
  have hentry : ∀ entry ∈ entries,
      entry = entryOf (entry.drop 4) ∧ (entry.drop 4).length = privateRecordBytes := by
    intro entry hmem
    obtain ⟨record, hrecord⟩ := h entry hmem
    obtain ⟨heq, hrecordLength⟩ := eq_entryOf (hlength entry hmem) hrecord
    have hsame : entry.drop 4 = record := by rw [heq, drop_entryOf]
    rw [hsame]
    exact ⟨heq, hrecordLength⟩
  constructor
  · rw [List.map_map]
    calc entries.map (entryOf ∘ List.drop 4) = entries.map id :=
          List.map_congr_left (fun entry hmem => (hentry entry hmem).1.symm)
      _ = entries := List.map_id entries
  · intro record hmem
    obtain ⟨entry, hheld, rfl⟩ := List.mem_map.mp hmem
    exact (hentry entry hheld).2

/-- What the header of an accepted container says. -/
theorem framedRecords_eq_ok {entries : List Bytes} (h : framedRecords bytes = .ok entries) :
    ∃ count, 0 < count ∧ count ≤ u32Max ∧ entries.length = count ∧
      (∀ entry ∈ entries, entry.length = privateRecordBytes + 4) ∧
      bytes = RecordKind.container.prefixOf ++ (toLe 4 count ++ entries.flatten) := by
  simp only [framedRecords, Except.bind_eq_ok, ensure_eq_ok, beq_iff_eq, decide_eq_true_eq] at h
  obtain ⟨kind, hkind, _, hcontainer, _, hheader, _, hpositive, size, hsize, _, hlength,
    hresult⟩ := h
  have hheaderBytes : containerHeaderBytes = 12 := rfl
  rw [hcontainer] at hkind
  obtain ⟨rest, hbytes⟩ := RecordKind.parse_eq_ok.mp hkind
  have hrest : bytes.length = 8 + rest.length := by
    rw [hbytes, List.length_append]
    rfl
  have hwidth : (rest.take 4).length = 4 := by
    rw [List.length_take]
    omega
  have hfield : slice bytes 8 12 = rest.take 4 := by
    apply slice_eq RecordKind.container.prefixOf _ (rest.drop 4)
    · rw [List.take_append_drop]; exact hbytes
    · rfl
    · rw [hwidth]
  have hdrop : bytes.drop containerHeaderBytes = rest.drop 4 := by
    rw [hbytes, ← List.take_append_drop 4 rest, ← List.append_assoc, List.take_append_drop 4 rest]
    exact List.drop_left' (by rw [List.length_append, hwidth]; rfl)
  rw [hfield] at hpositive hsize
  rw [hdrop] at hresult
  -- the count field is the count, and the length of the whole leaves room for as many entries
  have hwrite := toLe_fromLe (rest.take 4)
  rw [hwidth] at hwrite
  have hcount : fromLe (rest.take 4) ≤ u32Max := by
    have hlt := fromLe_lt (rest.take 4)
    rw [hwidth] at hlt
    simp only [u32Max]
    omega
  rw [containerSize_eq hcount] at hsize
  cases hsize
  have hbody : (rest.drop 4).length = fromLe (rest.take 4) * (privateRecordBytes + 4) := by
    rw [List.length_drop]
    omega
  rw [asChunks, hbody, Nat.mul_div_cancel _ (by decide)] at hresult
  cases hresult
  refine ⟨fromLe (rest.take 4), hpositive, hcount, blocks_length _ _ _, ?_, ?_⟩
  · intro entry hmem
    exact length_of_mem_blocks (Nat.le_of_eq hbody.symm) hmem
  · rw [blocks_flatten, List.take_of_length_le (Nat.le_of_eq hbody), hwrite,
      List.take_append_drop]
    exact hbytes

/-- **What is accepted is well framed**: it is the container of the records it carries. -/
theorem eq_frame {entries : List Bytes} (h : framedRecords bytes = .ok entries)
    (hentries : ∀ entry ∈ entries, ∃ record, framedRecord entry = .ok record) :
    Framable (entries.map (List.drop 4)) ∧ bytes = frame (entries.map (List.drop 4)) := by
  obtain ⟨count, hpositive, hcount, hlength, hentryLength, hbytes⟩ := framedRecords_eq_ok h
  obtain ⟨hmap, hrecords⟩ := map_entryOf_drop hentryLength hentries
  have hsame : (entries.map (List.drop 4)).length = count := by rw [List.length_map, hlength]
  refine ⟨⟨by omega, by omega, hrecords⟩, ?_⟩
  rw [frame, hmap, hsame]
  exact hbytes

/-! ## Packing -/

/-- The records of one object, in its header and in every record. -/
structure OneObject (id : Bytes32) (records : List Bytes) : Prop where
  header : ∀ record ∈ records, ∃ header, inspectHeader record = .ok header ∧ header.id = id

theorem packEntries_eq_ok {first : Bytes32} :
    packEntries first records = .ok bytes ↔
      OneObject first records ∧ bytes = (records.map entryOf).flatten := by
  induction records generalizing bytes with
  | nil =>
      constructor
      · intro h
        cases h
        refine ⟨⟨?_⟩, rfl⟩
        intro record hmem
        cases hmem
      · rintro ⟨_, rfl⟩
        rfl
  | cons record records ih =>
      simp only [packEntries, Except.bind_eq_ok, ensure_eq_ok, beq_iff_eq, tryU32_eq_ok, ih]
      constructor
      · rintro ⟨header, hheader, _, hid, _, ⟨_, rfl⟩, entries, ⟨hrest, rfl⟩, hbytes⟩
        cases hbytes
        refine ⟨⟨?_⟩, ?_⟩
        · intro other hmem
          rcases List.mem_cons.mp hmem with rfl | hmem
          · exact ⟨header, hheader, hid⟩
          · exact hrest.header other hmem
        · rw [List.map_cons, List.flatten_cons, entryOf]
      · rintro ⟨hone, rfl⟩
        obtain ⟨header, hheader, hid⟩ := hone.header record List.mem_cons_self
        have hlength : record.length ≤ u32Max := by
          rw [(inspectHeader_bounds hheader).1]
          decide
        have hrest : OneObject first records :=
          ⟨fun other hmem => hone.header other (List.mem_cons_of_mem record hmem)⟩
        exact ⟨header, hheader, (), hid, record.length, ⟨hlength, rfl⟩, _, ⟨hrest, rfl⟩, rfl⟩

/-- **What `pack` writes**: the container of some records of one object. -/
theorem pack_eq_ok :
    pack records = .ok bytes ↔
      Framable records ∧ (∃ id, OneObject id records) ∧ bytes = frame records := by
  simp only [pack, Except.bind_eq_ok, tryU32_eq_ok, ensure_eq_ok, decide_eq_true_eq,
    packEntries_eq_ok]
  constructor
  · rintro ⟨_, ⟨hcount, rfl⟩, _, hpositive, first, _, _, _, _, ⟨hone, rfl⟩, hbytes⟩
    cases hbytes
    refine ⟨⟨hpositive, hcount, ?_⟩, ⟨first.id, hone⟩, rfl⟩
    intro record hmem
    obtain ⟨header, hheader, _⟩ := hone.header record hmem
    exact (inspectHeader_bounds hheader).1
  · rintro ⟨hframable, ⟨id, hone⟩, rfl⟩
    have hne : records ≠ [] := List.length_pos_iff.mp hframable.nonempty
    have hfirst : records.headD [] ∈ records := by
      cases records with
      | nil => exact absurd rfl hne
      | cons record rest => exact List.mem_cons_self
    obtain ⟨header, hheader, hid⟩ := hone.header _ hfirst
    exact ⟨_, ⟨hframable.count, rfl⟩, (), hframable.nonempty, header, hheader, _,
      containerSize_eq hframable.count, _, ⟨hid ▸ hone, rfl⟩, rfl⟩

end Urma.Container
