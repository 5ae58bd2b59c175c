import Mathlib.Data.List.Induction
import Urma.Runtime.DiskOrder

/-!
# Publications

Data parts at consecutive positions, leaves that list them in groups, a root that lists the
leaves: what makes a record the right one in its place. The state of the consistency check is a
function of the records so far, and each of its three branches accepts a record exactly when it
is the right one.
-/

namespace Urma.Runtime

open Lib.Layout MultipartConsistency

/-- A record's bytes and the transaction that carries them. -/
abbrev Item := Bytes × Txid

namespace Item

/-- How a manifest names a record. -/
def reference (sha256 : Bytes → Bytes32) (item : Item) : ChildReference where
  txid := item.2
  recordHash := sha256 item.1

/-- The payload of a data part, empty for any other record. -/
def payload (item : Item) : Bytes :=
  match MultipartRecord.decode item.1 with
  | .ok (.data part) => part.payload
  | _ => []

/-- The references of a manifest, none for any other record. -/
def entries (item : Item) : List ChildReference :=
  match MultipartRecord.decode item.1 with
  | .ok (.leaf manifest) => manifest.entries
  | .ok (.root manifest) => manifest.entries
  | _ => []

end Item

variable {sha256 : Bytes → Bytes32} {data leaves : List Item} {item : Item}

/-- The concatenated payloads. -/
def payloads (data : List Item) : Bytes :=
  data.flatMap Item.payload

/-- The references to some records. -/
def references (sha256 : Bytes → Bytes32) (items : List Item) : List ChildReference :=
  items.map (Item.reference sha256)

/-- What each leaf has to list: the references to the data parts, in groups. -/
def groupsOf (sha256 : Bytes → Bytes32) (data : List Item) : List (List ChildReference) :=
  chunks Geometry.fanout (references sha256 data)

@[simp] theorem references_length (items : List Item) :
    (references sha256 items).length = items.length :=
  List.length_map _

@[simp] theorem payloads_append (a b : List Item) : payloads (a ++ b) = payloads a ++ payloads b :=
  List.flatMap_append

@[simp] theorem references_append (a b : List Item) :
    references sha256 (a ++ b) = references sha256 a ++ references sha256 b :=
  List.map_append

/-! ## Canonical publications -/

/-- Data parts at consecutive positions, all but the last of them full. -/
structure DataValid (data : List Item) : Prop where
  part : ∀ (i : ℕ) (item : Item), data[i]? = some item →
    MultipartRecord.decode item.1 = .ok (.data ⟨i, item.payload⟩)
  full : ∀ (i : ℕ) (item : Item), i + 1 < data.length → data[i]? = some item →
    item.payload.length = Geometry.dataBytes

/-- Leaves at consecutive positions, each listing the group of data parts at its position. -/
structure LeavesValid (sha256 : Bytes → Bytes32) (data leaves : List Item) : Prop where
  leaf : ∀ (j : ℕ) (item : Item), leaves[j]? = some item → ∃ group,
    (groupsOf sha256 data)[j]? = some group ∧
      MultipartRecord.decode item.1 = .ok (.leaf ⟨j, group⟩)

/-- A root of these data parts and leaves: it lists the leaves, and its length and hash are those
of the payloads. -/
structure RootValid (sha256 : Bytes → Bytes32) (data leaves : List Item) (root : Item) : Prop where
  manifest : ∃ manifest geometry, MultipartRecord.decode root.1 = .ok (.root manifest) ∧
    Geometry.new manifest.length = .ok geometry ∧
    manifest.payloadHash = sha256 (payloads data) ∧
    manifest.entries = references sha256 leaves ∧
    (payloads data).length = manifest.length ∧
    data.length = geometry.parts ∧ leaves.length = geometry.leaves

/-- The acceptor's state after some data parts and leaves. While there is no leaf, the last group
is still open. -/
def consistencyOf (sha256 : Bytes → Bytes32) (data leaves : List Item) :
    MultipartConsistency where
  parts := data.length
  leaves := leaves.length
  length := (payloads data).length
  lastPartLength := (data.getLast?.map (·.payload.length)).getD 0
  lastLeafEntries := (leaves.getLast?.map (·.entries.length)).getD 0
  payloadHash := payloads data
  groupHash :=
    if leaves = [] then
      encodeReferences ((references sha256 data).drop
        (data.length / Geometry.fanout * Geometry.fanout))
    else []
  groups :=
    (if leaves = [] then
      blocks Geometry.fanout (data.length / Geometry.fanout) (references sha256 data)
    else groupsOf sha256 data).map (referencesHash sha256)
  leavesHash := encodeReferences (references sha256 leaves)

/-! ## Data parts -/

theorem payload_of_decode {part : DataPart}
    (h : MultipartRecord.decode item.1 = .ok (.data part)) : item.payload = part.payload := by
  rw [Item.payload, h]

theorem entries_of_decode_root {manifest : RootManifest}
    (h : MultipartRecord.decode item.1 = .ok (.root manifest)) :
    item.entries = manifest.entries := by
  rw [Item.entries, h]

theorem entries_of_decode {manifest : LeafManifest}
    (h : MultipartRecord.decode item.1 = .ok (.leaf manifest)) :
    item.entries = manifest.entries := by
  rw [Item.entries, h]

theorem DataValid.nil : DataValid [] := by
  constructor
  · intro i item h; cases h
  · intro i item _ h; cases h

/-- One data part more. -/
theorem dataValid_snoc :
    DataValid (data ++ [item]) ↔ DataValid data ∧
      MultipartRecord.decode item.1 = .ok (.data ⟨data.length, item.payload⟩) ∧
      (∀ last, data.getLast? = some last → last.payload.length = Geometry.dataBytes) := by
  constructor
  · intro h
    have hold : ∀ (i : ℕ) (other : Item), data[i]? = some other →
        (data ++ [item])[i]? = some other := by
      intro i other hother
      rw [List.getElem?_append_left (List.getElem?_eq_some_iff.mp hother).1]
      exact hother
    refine ⟨⟨?_, ?_⟩, ?_, ?_⟩
    · intro i other hother
      exact h.part i other (hold i other hother)
    · intro i other hi hother
      apply h.full i other _ (hold i other hother)
      rw [List.length_append]
      omega
    · exact h.part data.length item List.getElem?_concat_length
    · intro last hlast
      rw [List.getLast?_eq_getElem?] at hlast
      have hpos := (List.getElem?_eq_some_iff.mp hlast).1
      apply h.full (data.length - 1) last _ (hold _ last hlast)
      rw [List.length_append, List.length_singleton]
      omega
  · rintro ⟨hdata, hitem, hlast⟩
    constructor
    · intro i other hother
      by_cases hi : i < data.length
      · rw [List.getElem?_append_left hi] at hother
        exact hdata.part i other hother
      · have hbound := (List.getElem?_eq_some_iff.mp hother).1
        rw [List.length_append, List.length_singleton] at hbound
        have heq : i = data.length := by omega
        rw [heq, List.getElem?_concat_length] at hother
        cases hother
        rw [heq]
        exact hitem
    · intro i other hi hother
      rw [List.length_append, List.length_singleton] at hi
      have hbound : i < data.length := by omega
      rw [List.getElem?_append_left hbound] at hother
      by_cases hnext : i + 1 < data.length
      · exact hdata.full i other hnext hother
      · apply hlast
        rw [List.getLast?_eq_getElem?]
        have heq : data.length - 1 = i := by omega
        rw [heq]
        exact hother

/-- Positions are bounded by the format. -/
theorem DataValid.length_le (h : DataValid data) : data.length ≤ Geometry.maxParts := by
  by_cases hempty : data.length = 0
  · omega
  · have hbound : data.length - 1 < data.length := by omega
    have hdecode := h.part (data.length - 1) data[data.length - 1]
      (List.getElem?_eq_getElem hbound)
    have hindex := (MultipartRecord.decode_data_bounds hdecode).1
    simp only at hindex
    omega

/-- The payloads of valid data parts fit the largest object. -/
theorem DataValid.payloads_length_le (h : DataValid data) :
    (payloads data).length ≤ data.length * Geometry.dataBytes := by
  induction data using List.reverseRecOn with
  | nil => exact Nat.zero_le _
  | append_singleton data item ih =>
      obtain ⟨hdata, hitem, _⟩ := dataValid_snoc.mp h
      have hrest := ih hdata
      have hpart := (MultipartRecord.decode_data_bounds hitem).2
      simp only at hpart
      rw [payloads_append, List.length_append, List.length_append, List.length_singleton,
        Nat.succ_mul]
      have hsingle : (payloads [item]).length = item.payload.length := by
        rw [payloads, List.flatMap_singleton]
      omega

/-- The open group after one data part more. -/
theorem openGroup_snoc (data : List Item) (item : Item) :
    encodeReferences ((references sha256 (data ++ [item])).drop
        (data.length / Geometry.fanout * Geometry.fanout)) =
      encodeReferences ((references sha256 data).drop
        (data.length / Geometry.fanout * Geometry.fanout)) ++
        (item.reference sha256).encode := by
  have hle : data.length / Geometry.fanout * Geometry.fanout ≤
      (references sha256 data).length := by
    rw [references_length]
    exact Nat.div_mul_le_self _ _
  rw [references_append, List.drop_append_of_le_length hle, encodeReferences_append]
  congr 1
  simp only [references, encodeReferences, List.map_cons, List.map_nil, List.flatten_cons,
    List.flatten_nil, List.append_nil]

/-- **The state after one data part more.** A full group is closed. -/
theorem consistencyOf_data_snoc (data : List Item) (item : Item) :
    consistencyOf sha256 (data ++ [item]) [] =
      let state := { consistencyOf sha256 data [] with
        parts := data.length + 1
        length := (payloads data).length + item.payload.length
        lastPartLength := item.payload.length
        payloadHash := payloads data ++ item.payload }
      if (data.length + 1) % Geometry.fanout = 0 then
        { state with
          groups := state.groups ++ [sha256 (state.groupHash ++ (item.reference sha256).encode)]
          groupHash := [] }
      else
        { state with groupHash := state.groupHash ++ (item.reference sha256).encode } := by
  have hfanout : Geometry.fanout = 511 := rfl
  have hlength : (data ++ [item]).length = data.length + 1 := by
    rw [List.length_append, List.length_singleton]
  have hpayloads : payloads (data ++ [item]) = payloads data ++ item.payload := by
    rw [payloads_append]
    exact congrArg _ (List.flatMap_singleton _ _)
  have hlast : ((data ++ [item]).getLast?.map (·.payload.length)).getD 0 =
      item.payload.length := by
    rw [List.getLast?_concat]
    rfl
  have hfit : data.length / Geometry.fanout * Geometry.fanout ≤
      (references sha256 data).length := by
    rw [references_length]
    exact Nat.div_mul_le_self _ _
  by_cases hclosed : (data.length + 1) % Geometry.fanout = 0
  · have hnext : (data.length + 1) / Geometry.fanout = data.length / Geometry.fanout + 1 := by
      rw [hfanout] at hclosed ⊢
      omega
    have hall : (references sha256 (data ++ [item])).drop
        ((data.length + 1) / Geometry.fanout * Geometry.fanout) = [] := by
      apply List.drop_of_length_le
      rw [references_length, hlength, hfanout] at *
      omega
    -- the open group is complete: it is the block that is closed
    have hblock : ((references sha256 (data ++ [item])).drop
        (data.length / Geometry.fanout * Geometry.fanout)).take Geometry.fanout =
        (references sha256 (data ++ [item])).drop
          (data.length / Geometry.fanout * Geometry.fanout) := by
      apply List.take_of_length_le
      rw [List.length_drop, references_length, hlength, hfanout] at *
      omega
    simp only [consistencyOf, if_pos hclosed, hlength, hpayloads, hlast, hall, ite_true,
      List.length_append, List.length_nil]
    rw [hnext, blocks_succ, hblock, references_append, blocks_append _ hfit,
      ← references_append, List.map_append, List.map_singleton, referencesHash, openGroup_snoc]
    rfl
  · have hsame : (data.length + 1) / Geometry.fanout = data.length / Geometry.fanout := by
      rw [hfanout] at hclosed ⊢
      omega
    simp only [consistencyOf, if_neg hclosed, hlength, hpayloads, hlast, hsame, ite_true,
      List.length_append, List.length_nil, openGroup_snoc]
    rw [references_append, blocks_append _ hfit]

/-- **A data part is accepted** exactly when it continues the data parts. -/
theorem acceptData_eq_ok (h : DataValid data) {part : DataPart}
    (hpart : MultipartRecord.decode item.1 = .ok (.data part)) {state : MultipartConsistency} :
    acceptData sha256 (consistencyOf sha256 data []) part (item.reference sha256) = .ok state ↔
      DataValid (data ++ [item]) ∧ state = consistencyOf sha256 (data ++ [item]) [] := by
  have hpayload := payload_of_decode hpart
  have hbounds := MultipartRecord.decode_data_bounds hpart
  have hparts : (consistencyOf sha256 data []).parts = data.length := rfl
  have hlast : (!(0 < data.length) || (consistencyOf sha256 data []).lastPartLength ==
      Geometry.dataBytes : Bool) = true ↔
      ∀ last, data.getLast? = some last → last.payload.length = Geometry.dataBytes := by
    cases hdata : data.getLast? with
    | none =>
        rw [List.getLast?_eq_none_iff.mp hdata]
        simp
    | some last =>
        have hpos : 0 < data.length := by
          cases data with
          | nil => cases hdata
          | cons _ _ => exact Nat.succ_pos _
        simp [consistencyOf, hdata, hpos]
  have hlength : checkedAdd (payloads data).length part.payload.length =
      some ((payloads data).length + part.payload.length) := by
    have hle := h.payloads_length_le
    have hcount := h.length_le
    apply checkedAdd_eq_some.mpr ⟨_, rfl⟩
    simp only [Geometry.maxParts, Geometry.dataBytes, u64Max] at *
    omega
  have hcount : checkedAdd32 data.length 1 = some (data.length + 1) := by
    have hle := h.length_le
    rw [checkedAdd32, if_pos]
    simp only [Geometry.maxParts, u32Max] at *
    omega
  have hnext : (DataValid (data ++ [item]) ↔ part.index = data.length ∧
      ∀ last, data.getLast? = some last → last.payload.length = Geometry.dataBytes) := by
    rw [dataValid_snoc, hpart, hpayload]
    constructor
    · rintro ⟨_, hdecode, hfull⟩
      have hsame := MultipartRecord.data.inj (Except.ok.inj hdecode)
      exact ⟨congrArg DataPart.index hsame, hfull⟩
    · rintro ⟨hindex, hfull⟩
      refine ⟨h, ?_, hfull⟩
      rw [← hindex]
  -- past the checks, the new state is the one described above
  have hresult : (if (data.length + 1) % Geometry.fanout = 0 then
      (Except.ok { consistencyOf sha256 data [] with
        parts := data.length + 1
        length := (payloads data).length + part.payload.length
        lastPartLength := part.payload.length
        payloadHash := payloads data ++ part.payload
        groups := (consistencyOf sha256 data []).groups ++
          [sha256 ((consistencyOf sha256 data []).groupHash ++ (item.reference sha256).encode)]
        groupHash := [] } : Except Error MultipartConsistency)
    else .ok { consistencyOf sha256 data [] with
        parts := data.length + 1
        length := (payloads data).length + part.payload.length
        lastPartLength := part.payload.length
        payloadHash := payloads data ++ part.payload
        groupHash :=
          (consistencyOf sha256 data []).groupHash ++ (item.reference sha256).encode }) =
      .ok (consistencyOf sha256 (data ++ [item]) []) := by
    rw [consistencyOf_data_snoc, hpayload]
    split
    · rfl
    · rfl
  rw [hnext]
  constructor
  · intro haccept
    simp only [acceptData, Except.bind_eq_ok, ensure_eq_ok, beq_iff_eq, context_eq_ok] at haccept
    obtain ⟨_, hindex, _, hfull, length, hlen, parts, hcnt, hstate⟩ := haccept
    cases hlength.symm.trans hlen
    cases hcount.symm.trans hcnt
    refine ⟨⟨hindex, hlast.mp hfull⟩, ?_⟩
    exact Except.ok.inj (hstate.symm.trans hresult)
  · rintro ⟨⟨hindex, hfull⟩, rfl⟩
    simp only [acceptData, Except.bind_eq_ok, ensure_eq_ok, beq_iff_eq, context_eq_ok]
    exact ⟨(), hindex, (), hlast.mpr hfull, _, hlength, _, hcount, hresult⟩

/-! ## Leaves -/

theorem LeavesValid.nil : LeavesValid sha256 data [] := by
  constructor
  intro j item h
  cases h

/-- One leaf more. -/
theorem leavesValid_snoc :
    LeavesValid sha256 data (leaves ++ [item]) ↔ LeavesValid sha256 data leaves ∧
      ∃ group, (groupsOf sha256 data)[leaves.length]? = some group ∧
        MultipartRecord.decode item.1 = .ok (.leaf ⟨leaves.length, group⟩) := by
  constructor
  · intro h
    refine ⟨⟨?_⟩, h.leaf leaves.length item List.getElem?_concat_length⟩
    intro j other hother
    apply h.leaf j other
    rw [List.getElem?_append_left (List.getElem?_eq_some_iff.mp hother).1]
    exact hother
  · rintro ⟨hleaves, hitem⟩
    constructor
    intro j other hother
    by_cases hj : j < leaves.length
    · rw [List.getElem?_append_left hj] at hother
      exact hleaves.leaf j other hother
    · have hbound := (List.getElem?_eq_some_iff.mp hother).1
      rw [List.length_append, List.length_singleton] at hbound
      have heq : j = leaves.length := by omega
      rw [heq, List.getElem?_concat_length] at hother
      cases hother
      rw [heq]
      exact hitem

/-- The size of a group. -/
theorem groupsOf_getElem? {j : ℕ} {group : List ChildReference}
    (h : (groupsOf sha256 data)[j]? = some group) :
    j * Geometry.fanout < data.length ∧
      group = ((references sha256 data).drop (j * Geometry.fanout)).take Geometry.fanout ∧
      group.length = min (data.length - j * Geometry.fanout) Geometry.fanout := by
  rw [groupsOf, chunks_getElem? (by decide), references_length] at h
  split at h
  · next hj =>
      cases h
      refine ⟨hj, rfl, ?_⟩
      rw [List.length_take, List.length_drop, references_length, Nat.min_comm]
  · cases h

/-- The last leaf lists the last group seen. -/
theorem LeavesValid.lastLeafEntries (h : LeavesValid sha256 data leaves)
    (hpos : 0 < leaves.length) :
    (consistencyOf sha256 data leaves).lastLeafEntries =
      min (data.length - (leaves.length - 1) * Geometry.fanout) Geometry.fanout := by
  have hbound : leaves.length - 1 < leaves.length := by omega
  have hlast : leaves.getLast? = some leaves[leaves.length - 1] := by
    rw [List.getLast?_eq_getElem?]
    exact List.getElem?_eq_getElem hbound
  obtain ⟨group, hgroup, hdecode⟩ := h.leaf (leaves.length - 1) leaves[leaves.length - 1]
    (List.getElem?_eq_getElem hbound)
  have hentries := entries_of_decode hdecode
  have hsize := (groupsOf_getElem? hgroup).2.2
  rw [consistencyOf, hlast, Option.map_some, Option.getD_some, hentries]
  exact hsize

/-- Before a leaf is looked at, the groups are all closed. -/
theorem closeGroups_eq (sha256 : Bytes → Bytes32) (data leaves : List Item) :
    (if (consistencyOf sha256 data leaves).leaves = 0 ∧
        (consistencyOf sha256 data leaves).parts % Geometry.fanout ≠ 0 then
      { consistencyOf sha256 data leaves with
        groups := (consistencyOf sha256 data leaves).groups ++
          [sha256 (consistencyOf sha256 data leaves).groupHash]
        groupHash := [] }
    else consistencyOf sha256 data leaves) =
      { consistencyOf sha256 data leaves with
        groups := (groupsOf sha256 data).map (referencesHash sha256)
        groupHash := [] } := by
  have hchunks := @chunks_eq _ Geometry.fanout (by decide) (references sha256 data)
  rw [references_length] at hchunks
  by_cases hleaves : leaves = []
  · rw [hleaves]
    by_cases hwhole : data.length % Geometry.fanout = 0
    · -- no group is open
      have hnone : (references sha256 data).drop
          (data.length / Geometry.fanout * Geometry.fanout) = [] := by
        apply List.drop_of_length_le
        have hdiv := Nat.div_add_mod data.length Geometry.fanout
        rw [references_length, Nat.mul_comm]
        omega
      rw [if_pos hwhole, List.append_nil] at hchunks
      have hclosed : ¬ ((consistencyOf sha256 data []).leaves = 0 ∧
          (consistencyOf sha256 data []).parts % Geometry.fanout ≠ 0) := fun h => h.2 hwhole
      rw [if_neg hclosed]
      simp only [consistencyOf, ite_true, hnone, groupsOf, hchunks]
      rfl
    · rw [if_neg hwhole] at hchunks
      have hopen : (consistencyOf sha256 data []).leaves = 0 ∧
          (consistencyOf sha256 data []).parts % Geometry.fanout ≠ 0 := ⟨rfl, hwhole⟩
      rw [if_pos hopen]
      simp only [consistencyOf, ite_true, groupsOf, hchunks, List.map_append, List.map_singleton]
      rfl
  · have hsome : ¬ ((consistencyOf sha256 data leaves).leaves = 0 ∧
        (consistencyOf sha256 data leaves).parts % Geometry.fanout ≠ 0) := by
      intro h
      exact hleaves (List.length_eq_zero_iff.mp h.1)
    rw [if_neg hsome]
    simp only [consistencyOf, if_neg hleaves]

/-- The state after one leaf more. -/
theorem consistencyOf_leaf_snoc (data leaves : List Item) (item : Item) :
    consistencyOf sha256 data (leaves ++ [item]) =
      { consistencyOf sha256 data leaves with
        groups := (groupsOf sha256 data).map (referencesHash sha256)
        groupHash := []
        leavesHash := encodeReferences (references sha256 leaves) ++
          (item.reference sha256).encode
        lastLeafEntries := item.entries.length
        leaves := leaves.length + 1 } := by
  have hne : leaves ++ [item] ≠ [] := List.append_ne_nil_of_right_ne_nil _ (List.cons_ne_nil _ _)
  have hlast : ((leaves ++ [item]).getLast?.map (·.entries.length)).getD 0 =
      item.entries.length := by
    rw [List.getLast?_concat]
    rfl
  have hhash : encodeReferences (references sha256 (leaves ++ [item])) =
      encodeReferences (references sha256 leaves) ++ (item.reference sha256).encode := by
    rw [references_append, encodeReferences_append]
    congr 1
    simp only [references, encodeReferences, List.map_cons, List.map_nil, List.flatten_cons,
      List.flatten_nil, List.append_nil]
  simp only [consistencyOf, if_neg hne, hlast, hhash, List.length_append, List.length_singleton]

/-- **A leaf is accepted** exactly when it lists the group at its position. -/
theorem acceptLeaf_eq_ok (h : LeavesValid sha256 data leaves) {manifest : LeafManifest}
    (hmanifest : MultipartRecord.decode item.1 = .ok (.leaf manifest))
    (hfree : ∀ group ∈ groupsOf sha256 data,
      referencesHash sha256 manifest.entries = referencesHash sha256 group →
        manifest.entries = group) {state : MultipartConsistency} :
    acceptLeaf sha256 (consistencyOf sha256 data leaves) manifest (item.reference sha256) =
        .ok state ↔
      LeavesValid sha256 data (leaves ++ [item]) ∧
        state = consistencyOf sha256 data (leaves ++ [item]) := by
  have hentries := entries_of_decode hmanifest
  have hbounds := MultipartRecord.decode_leaf_bounds hmanifest
  have hnext : LeavesValid sha256 data (leaves ++ [item]) ↔
      manifest.index = leaves.length ∧
        (groupsOf sha256 data)[leaves.length]? = some manifest.entries := by
    rw [leavesValid_snoc, hmanifest]
    constructor
    · rintro ⟨_, group, hgroup, hdecode⟩
      have hsame := MultipartRecord.leaf.inj (Except.ok.inj hdecode)
      rw [hsame]
      exact ⟨rfl, hgroup⟩
    · rintro ⟨hindex, hgroup⟩
      refine ⟨h, manifest.entries, hgroup, ?_⟩
      rw [← hindex]
  have hcount : manifest.index = leaves.length →
      checkedAdd16 leaves.length 1 = some (leaves.length + 1) := by
    intro hindex
    rw [checkedAdd16, if_pos]
    have hfanout := hbounds.1
    simp only [Geometry.fanout, u16Max] at *
    omega
  -- past the checks, the new state is the one described above
  have hresult : (⟨data.length, leaves.length + 1, (payloads data).length,
      (consistencyOf sha256 data leaves).lastPartLength, manifest.entries.length, payloads data,
      [], (groupsOf sha256 data).map (referencesHash sha256),
      encodeReferences (references sha256 leaves) ++ (item.reference sha256).encode⟩ :
      MultipartConsistency) = consistencyOf sha256 data (leaves ++ [item]) := by
    rw [consistencyOf_leaf_snoc, hentries]
    rfl
  rw [hnext, acceptLeaf, closeGroups_eq]
  constructor
  · intro haccept
    simp only [Except.bind_eq_ok, ensure_eq_ok, beq_iff_eq, context_eq_ok, Bool.and_eq_true,
      decide_eq_true_eq] at haccept
    obtain ⟨_, ⟨_, hindex⟩, _, _, hash, hhash, _, hequal, count, hcnt, hstate⟩ := haccept
    have hindex : manifest.index = leaves.length := hindex
    have hhash : ((groupsOf sha256 data).map (referencesHash sha256))[leaves.length]? =
      some hash := hhash
    rw [List.getElem?_map, Option.map_eq_some_iff] at hhash
    obtain ⟨group, hgroup, rfl⟩ := hhash
    have hsame := hfree group (List.mem_of_getElem? hgroup) hequal
    refine ⟨⟨hindex, hsame ▸ hgroup⟩, ?_⟩
    cases (hcount hindex).symm.trans hcnt
    exact (Except.ok.inj hstate).symm.trans hresult
  · rintro ⟨⟨hindex, hgroup⟩, rfl⟩
    obtain ⟨hwithin, _, _⟩ := groupsOf_getElem? hgroup
    have hparts : 0 < data.length := by omega
    have hhash : ((groupsOf sha256 data).map (referencesHash sha256))[leaves.length]? =
        some (referencesHash sha256 manifest.entries) := by
      rw [List.getElem?_map, hgroup]
      rfl
    -- a group that follows another one follows a full one
    have hfull : (!(0 < leaves.length) || (consistencyOf sha256 data leaves).lastLeafEntries ==
        Geometry.fanout : Bool) = true := by
      by_cases hpos : 0 < leaves.length
      · have hlast := h.lastLeafEntries hpos
        have hsplit : leaves.length * Geometry.fanout =
            (leaves.length - 1) * Geometry.fanout + Geometry.fanout := by
          rw [← Nat.succ_mul]
          congr 1
          omega
        have hroom : (consistencyOf sha256 data leaves).lastLeafEntries = Geometry.fanout := by
          rw [hlast]
          omega
        rw [hroom, beq_self_eq_true, Bool.or_true]
      · rw [decide_eq_false hpos]
        rfl
    simp only [Except.bind_eq_ok, ensure_eq_ok, beq_iff_eq, context_eq_ok, Bool.and_eq_true,
      decide_eq_true_eq]
    exact ⟨(), ⟨hparts, hindex⟩, (), hfull, _, hhash, (), rfl, _, hcount hindex,
      congrArg Except.ok hresult⟩

/-! ## The root -/

/-- **A root is accepted** exactly when it is the root of the data parts and leaves before it. -/
theorem acceptRoot_eq_ok (h : LeavesValid sha256 data leaves) {manifest : RootManifest}
    (hmanifest : MultipartRecord.decode item.1 = .ok (.root manifest))
    (hfree : referencesHash sha256 manifest.entries =
      referencesHash sha256 (references sha256 leaves) →
        manifest.entries = references sha256 leaves) {u : Unit} :
    acceptRoot sha256 (consistencyOf sha256 data leaves) manifest = .ok u ↔
      RootValid sha256 data leaves item := by
  constructor
  · intro haccept
    simp only [acceptRoot, Except.bind_eq_ok, ensure_eq_ok, beq_iff_eq, Bool.and_eq_true] at haccept
    obtain ⟨_, hpayload, _, hentries, geometry, hgeometry, _, ⟨⟨hlength, hparts⟩, hleaves⟩, _⟩ :=
      haccept
    exact ⟨⟨manifest, geometry, hmanifest, hgeometry, hpayload, hfree hentries, hlength, hparts,
      hleaves⟩⟩
  · rintro ⟨manifest', geometry, hdecode, hgeometry, hpayload, hentries, hlength, hparts, hleaves⟩
    cases MultipartRecord.root.inj (Except.ok.inj (hmanifest.symm.trans hdecode))
    have hpos : 0 < leaves.length := by
      rw [hleaves]
      exact (Geometry.new_pos hgeometry).2
    have hlast := h.lastLeafEntries hpos
    have hsize : geometry.leafEntries (leaves.length - 1) =
        .ok (consistencyOf sha256 data leaves).lastLeafEntries := by
      have hwithin : decide (leaves.length - 1 < geometry.leaves) = true := by
        rw [decide_eq_true_eq]
        omega
      rw [Geometry.leafEntries, hwithin, ensure_true, Except.ok_bind, hlast, ← hparts]
      apply tryU16_eq_ok.mpr ⟨_, rfl⟩
      simp only [Geometry.fanout, u16Max]
      omega
    simp only [acceptRoot, Except.bind_eq_ok, ensure_eq_ok, beq_iff_eq, Bool.and_eq_true]
    refine ⟨(), hpayload, (), ?_, geometry, hgeometry, (), ⟨⟨hlength, hparts⟩, hleaves⟩, _, hsize,
      rfl⟩
    rw [hentries]
    rfl

end Urma.Runtime
