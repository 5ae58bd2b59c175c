import Urma.Runtime.RecoverySource

/-!
# Recovering an object

The manifests that have been gathered and the parts that have been assembled are each the records
served under the references that list them; where an honest source has served them, they are the
records of the object. Each loop of the recovery adds to one of the two.
-/

namespace Urma.Lib.Layout

/-- Lists as long as the blocks of `n` items are the blocks of their concatenation. -/
theorem eq_blocks_flatten {α : Type} {size n : ℕ} {xss : List (List α)}
    (h : ∀ (j : ℕ) (xs : List α), xss[j]? = some xs → xs.length = min (n - j * size) size) :
    xss = blocks size xss.length xss.flatten ∧ xss.flatten.length = min n (xss.length * size) := by
  induction xss generalizing n with
  | nil =>
      refine ⟨rfl, ?_⟩
      show 0 = min n (0 * size)
      rw [Nat.zero_mul, Nat.min_zero]
  | cons xs xss ih =>
      have hfirst := h 0 xs rfl
      rw [Nat.zero_mul, Nat.sub_zero] at hfirst
      have hrest : ∀ (j : ℕ) (ys : List α), xss[j]? = some ys →
          ys.length = min (n - size - j * size) size := by
        intro j ys hj
        have hlength := h (j + 1) ys hj
        rw [Nat.succ_mul] at hlength
        rw [hlength]
        congr 1
        omega
      obtain ⟨hblocks, hlength⟩ := ih hrest
      constructor
      · rw [List.length_cons, blocks, List.flatten_cons]
        by_cases hfull : size ≤ n
        · rw [Nat.min_eq_right hfull] at hfirst
          have htake : (xs ++ xss.flatten).take size = xs := by
            rw [← hfirst, List.take_left]
          have hdrop : (xs ++ xss.flatten).drop size = xss.flatten := by
            rw [← hfirst, List.drop_left]
          rw [htake, hdrop, ← hblocks]
        · -- the items run out in the first list
          have hempty : xss.flatten = [] := by
            apply List.eq_nil_of_length_eq_zero
            rw [hlength]
            omega
          rw [hempty] at hblocks
          rw [hempty, List.append_nil]
          have htake : xs.take size = xs := List.take_of_length_le (by omega)
          have hdrop : xs.drop size = [] := List.drop_eq_nil_of_le (by omega)
          rw [htake, hdrop, ← hblocks]
      · rw [List.flatten_cons, List.length_append, hfirst, hlength, List.length_cons, Nat.succ_mul]
        omega

end Urma.Lib.Layout

namespace Urma.Runtime.Reconstruct

open Lib Lib.Layout Program ManifestInventory

variable {sha256 : Bytes → Bytes32} {limits : RecoveryLimits} {root : VerifiedRecord sha256}
  {manifest : RootManifest} {geometry : Geometry} {calls calls' : Calls sha256}

/-! ## What has been gathered -/

/-- The references some leaves list. -/
def listed (leaves : List (VerifiedRecord sha256 × LeafManifest)) : List ChildReference :=
  leaves.flatMap fun leaf => leaf.2.entries

/-- The payloads of some parts. -/
def joined (parts : List (VerifiedRecord sha256 × DataPart)) : Bytes :=
  parts.flatMap fun part => part.2.payload

variable {leaves : List (VerifiedRecord sha256 × LeafManifest)}
  {parts : List (VerifiedRecord sha256 × DataPart)}

/-- The first leaves of an object: each was served under the reference the root lists for it, and
lists as many references as the geometry says; none of all these references is met twice. -/
structure Gathered (root : VerifiedRecord sha256) (manifest : RootManifest) (geometry : Geometry)
    (calls : Calls sha256) (leaves : List (VerifiedRecord sha256 × LeafManifest)) : Prop where
  leaf : ∀ (j : ℕ) (record : VerifiedRecord sha256) (leaf : LeafManifest),
    leaves[j]? = some (record, leaf) → ∃ reference, manifest.entries[j]? = some reference ∧
      Used calls root.author reference record ∧ record.decode = .ok (.leaf leaf) ∧
      leaf.index = j ∧ geometry.leafEntries j = .ok leaf.entries.length
  nodup : (root.txid :: txids manifest.entries ++ txids (listed leaves)).Nodup

/-- The first parts of an object: each was served under the reference listed for it, and has the
index and the length of its place. -/
structure Assembled (root : VerifiedRecord sha256) (geometry : Geometry) (calls : Calls sha256)
    (leaves : List (VerifiedRecord sha256 × LeafManifest))
    (parts : List (VerifiedRecord sha256 × DataPart)) : Prop where
  part : ∀ (i : ℕ) (record : VerifiedRecord sha256) (part : DataPart),
    parts[i]? = some (record, part) → ∃ reference, (listed leaves)[i]? = some reference ∧
      Used calls root.author reference record ∧ record.decode = .ok (.data part) ∧
      part.index = i ∧ geometry.partLength i = .ok part.payload.length

theorem Gathered.grow (h : Gathered root manifest geometry calls leaves)
    (hcalls : calls ⊆ calls') : Gathered root manifest geometry calls' leaves := by
  refine ⟨?_, h.nodup⟩
  intro j record leaf hj
  obtain ⟨reference, hreference, hused, hdecode, hindex, hentries⟩ := h.leaf j record leaf hj
  exact ⟨reference, hreference, hused.grow hcalls, hdecode, hindex, hentries⟩

theorem Assembled.grow (h : Assembled root geometry calls leaves parts)
    (hcalls : calls ⊆ calls') : Assembled root geometry calls' leaves parts := by
  constructor
  intro i record part hi
  obtain ⟨reference, hreference, hused, hdecode, hindex, hlength⟩ := h.part i record part hi
  exact ⟨reference, hreference, hused.grow hcalls, hdecode, hindex, hlength⟩

theorem listed_concat (record : VerifiedRecord sha256) (leaf : LeafManifest) :
    listed (leaves ++ [(record, leaf)]) = listed leaves ++ leaf.entries := by
  rw [listed, List.flatMap_append, List.flatMap_singleton]
  rfl

theorem joined_concat (record : VerifiedRecord sha256) (part : DataPart) :
    joined (parts ++ [(record, part)]) = joined parts ++ part.payload := by
  rw [joined, List.flatMap_append, List.flatMap_singleton]
  rfl

theorem leafEntries_eq_ok {index count : ℕ} (h : geometry.leafEntries index = .ok count) :
    count = min (geometry.parts - index * Geometry.fanout) Geometry.fanout := by
  simp only [Geometry.leafEntries, Except.bind_eq_ok, tryU16_eq_ok] at h
  obtain ⟨_, _, _, hcount⟩ := h
  exact hcount

theorem partLength_eq_ok {index length : ℕ} (h : geometry.partLength index = .ok length) :
    index < geometry.parts ∧
      length = min (geometry.length - index * Geometry.dataBytes) Geometry.dataBytes := by
  simp only [Geometry.partLength, Except.bind_eq_ok, ensure_eq_ok, decide_eq_true_eq] at h
  obtain ⟨_, hindex, hlength⟩ := h
  exact ⟨hindex, (Except.ok.inj hlength).symm⟩

/-- **The references of gathered leaves** are cut into the leaves as the geometry says. -/
theorem Gathered.blocks (h : Gathered root manifest geometry calls leaves) :
    leaves.map (fun leaf => leaf.2.entries) =
        Layout.blocks Geometry.fanout leaves.length (listed leaves) ∧
      (listed leaves).length = min geometry.parts (leaves.length * Geometry.fanout) := by
  have hlengths : ∀ (j : ℕ) (entries : List ChildReference),
      (leaves.map fun leaf => leaf.2.entries)[j]? = some entries →
        entries.length = min (geometry.parts - j * Geometry.fanout) Geometry.fanout := by
    intro j entries hj
    rw [List.getElem?_map, Option.map_eq_some_iff] at hj
    obtain ⟨⟨record, leaf⟩, hleaf, rfl⟩ := hj
    obtain ⟨_, _, _, _, _, hentries⟩ := h.leaf j record leaf hleaf
    exact leafEntries_eq_ok hentries
  have hflatten : (leaves.map fun leaf => leaf.2.entries).flatten = listed leaves := rfl
  have hblocks := eq_blocks_flatten hlengths
  rw [List.length_map, hflatten] at hblocks
  exact hblocks

/-! ## An honest source -/

variable {data items : List Item}

/-- There is one object below a root. -/
theorem Expected.manifest_eq {manifest' : RootManifest} {geometry' : Geometry}
    (h : Expected limits root data items manifest' geometry')
    (hroot : root.decode = .ok (.root manifest)) (hgeometry : manifest.geometry = .ok geometry) :
    manifest' = manifest ∧ geometry' = geometry := by
  have hmanifest := h.decode.symm.trans hroot
  cases hmanifest
  simp only [RootManifest.geometry, Except.bind_eq_ok] at hgeometry
  obtain ⟨other, hother, _, _, hsame⟩ := hgeometry
  cases hsame
  exact ⟨rfl, Except.ok.inj (h.rootGeometry.symm.trans hother)⟩

theorem Expected.entry (h : Expected limits root data items manifest geometry) {j : ℕ}
    {reference : ChildReference} (hreference : manifest.entries[j]? = some reference) :
    ∃ item, items[j]? = some item ∧ item ∈ items ++ data ∧ reference = item.reference sha256 := by
  rw [h.entries, references, List.getElem?_map, Option.map_eq_some_iff] at hreference
  obtain ⟨item, hitem, rfl⟩ := hreference
  exact ⟨item, hitem, List.mem_append_left _ (List.mem_of_getElem? hitem), rfl⟩

/-- A leaf that is served is the leaf of the object. -/
theorem Expected.leaf_eq (h : Expected limits root data items manifest geometry)
    (hhonest : Honest limits (items ++ data) root.author calls) {j : ℕ}
    {reference : ChildReference} (hreference : manifest.entries[j]? = some reference)
    {record : VerifiedRecord sha256} (hused : Used calls root.author reference record) :
    record.decode = .ok (.leaf ⟨j,
      ((references sha256 data).drop (j * Geometry.fanout)).take Geometry.fanout⟩) := by
  obtain ⟨item, hitem, hmem, hitemRef⟩ := h.entry hreference
  have htxid : record.txid = reference.txid := congrArg ChildReference.txid hused.reference
  obtain ⟨hrecord, _⟩ := hhonest.record_eq hmem hitemRef hused.served htxid
  rw [VerifiedRecord.decode, hrecord]
  exact h.leaf j item hitem

/-- The references gathered so far are the first of the object. -/
theorem Gathered.listed_eq (hgathered : Gathered root manifest geometry calls leaves)
    (h : Expected limits root data items manifest geometry)
    (hhonest : Honest limits (items ++ data) root.author calls) :
    listed leaves = (references sha256 data).take (leaves.length * Geometry.fanout) := by
  have hblocks : leaves.map (fun leaf => leaf.2.entries) =
      Layout.blocks Geometry.fanout leaves.length (references sha256 data) := by
    apply List.ext_getElem?
    intro j
    by_cases hj : j < leaves.length
    · rw [blocks_getElem? hj, List.getElem?_map, List.getElem?_eq_getElem hj]
      obtain ⟨reference, hreference, hused, hdecode, _⟩ :=
        hgathered.leaf j leaves[j].1 leaves[j].2 (List.getElem?_eq_getElem hj)
      have hleaf := hdecode.symm.trans (h.leaf_eq hhonest hreference hused)
      rw [Option.map_some, MultipartRecord.leaf.inj (Except.ok.inj hleaf)]
    · rw [List.getElem?_eq_none (by rw [List.length_map]; omega),
        List.getElem?_eq_none (by rw [blocks_length]; omega)]
  have hflatten : (leaves.map fun leaf => leaf.2.entries).flatten = listed leaves := rfl
  rw [← hflatten, hblocks, blocks_flatten]

/-- What is listed at a position names the data part there. -/
theorem Gathered.part_entry (hgathered : Gathered root manifest geometry calls leaves)
    (h : Expected limits root data items manifest geometry)
    (hhonest : Honest limits (items ++ data) root.author calls) {i : ℕ}
    {reference : ChildReference} (hreference : (listed leaves)[i]? = some reference) :
    ∃ item, data[i]? = some item ∧ item ∈ items ++ data ∧ reference = item.reference sha256 := by
  rw [hgathered.listed_eq h hhonest] at hreference
  have hlt := (List.getElem?_eq_some_iff.mp hreference).1
  rw [List.length_take] at hlt
  rw [List.getElem?_take_of_lt (by omega), references, List.getElem?_map,
    Option.map_eq_some_iff] at hreference
  obtain ⟨item, hitem, rfl⟩ := hreference
  exact ⟨item, hitem, List.mem_append_right _ (List.mem_of_getElem? hitem), rfl⟩

/-- A part that is served is the part of the object. -/
theorem Gathered.part_eq (hgathered : Gathered root manifest geometry calls leaves)
    (h : Expected limits root data items manifest geometry)
    (hhonest : Honest limits (items ++ data) root.author calls) {i : ℕ}
    {reference : ChildReference} (hreference : (listed leaves)[i]? = some reference)
    {record : VerifiedRecord sha256} (hused : Used calls root.author reference record) :
    ∃ item, data[i]? = some item ∧ record.decode = .ok (.data ⟨i, item.payload⟩) ∧
      geometry.partLength i = .ok item.payload.length := by
  obtain ⟨item, hitem, hmem, hitemRef⟩ := hgathered.part_entry h hhonest hreference
  have htxid : record.txid = reference.txid := congrArg ChildReference.txid hused.reference
  obtain ⟨hrecord, _⟩ := hhonest.record_eq hmem hitemRef hused.served htxid
  obtain ⟨payload, hdecode, hlength⟩ := h.part i item hitem
  have hpayload : item.payload = payload := payload_of_decode hdecode
  refine ⟨item, hitem, ?_, ?_⟩
  · rw [VerifiedRecord.decode, hrecord, hpayload]
    exact hdecode
  · rw [hpayload]
    exact hlength

/-- The payloads assembled are the first of the object. -/
theorem Assembled.joined_eq (hassembled : Assembled root geometry calls leaves parts)
    (hgathered : Gathered root manifest geometry calls leaves)
    (h : Expected limits root data items manifest geometry)
    (hhonest : Honest limits (items ++ data) root.author calls) :
    joined parts = payloads (data.take parts.length) := by
  have hmap : parts.map (fun part => part.2.payload) =
      (data.take parts.length).map Item.payload := by
    apply List.ext_getElem?
    intro i
    rw [List.getElem?_map, List.getElem?_map]
    by_cases hi : i < parts.length
    · rw [List.getElem?_eq_getElem hi, List.getElem?_take_of_lt hi]
      obtain ⟨reference, hreference, hused, hdecode, _⟩ :=
        hassembled.part i parts[i].1 parts[i].2 (List.getElem?_eq_getElem hi)
      obtain ⟨item, hitem, hdecode', _⟩ := hgathered.part_eq h hhonest hreference hused
      have hpart := MultipartRecord.data.inj (Except.ok.inj (hdecode.symm.trans hdecode'))
      rw [hitem, Option.map_some, Option.map_some, hpart]
    · rw [List.getElem?_eq_none (by omega),
        List.getElem?_eq_none (by rw [List.length_take]; omega)]
      rfl
  exact congrArg List.flatten hmap

end Urma.Runtime.Reconstruct
