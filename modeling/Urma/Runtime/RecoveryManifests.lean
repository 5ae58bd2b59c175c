import Urma.Runtime.RecoverySound

/-!
# Reading the manifests

Each pass of the loops of `inventory` adds one leaf to those gathered: what it fetches was not
asked for before, the inventory grows by the transactions the leaf lists, and the scratch file by
their references. Under an honest source no pass fails.
-/

namespace Urma.Runtime.Reconstruct

open Lib Lib.Layout Program ManifestInventory

variable {sha256 : Bytes → Bytes32} {limits : RecoveryLimits} {root : VerifiedRecord sha256}
  {manifest : RootManifest} {geometry : Geometry} {calls calls' : Calls sha256}
  {leaves : List (VerifiedRecord sha256 × LeafManifest)}
  {inventory : ManifestInventory} {file : Bytes}

/-! ## What may fail -/

/-- A fallible step, which an honest source does not let fail. -/
theorem orInvalid_recovers {α : Type} {result : Except Error α}
    (hfault : ∀ error, result = .error error → Fault limits root calls) :
    Recovers limits root calls (liftM (orInvalid result)) fun calls' value =>
      calls = calls' ∧ result = .ok value := by
  apply holds_lift.mpr
  cases result with
  | ok value => exact ⟨rfl, rfl⟩
  | error error => exact hfault error rfl

/-- A step that an honest source sees succeed. -/
theorem fault_of_ok {α : Type} {result : Except Error α} {error : Error}
    (herror : result = .error error)
    (hok : ∀ data items, Expected limits root data items manifest geometry →
      Honest limits (items ++ data) root.author calls → ∃ value, result = .ok value)
    (hroot : root.decode = .ok (.root manifest)) (hgeometry : manifest.geometry = .ok geometry) :
    Fault limits root calls := by
  intro data items manifest' geometry' hexpected hhonest
  obtain ⟨rfl, rfl⟩ := hexpected.manifest_eq hroot hgeometry
  obtain ⟨value, hvalue⟩ := hok data items hexpected hhonest
  rw [herror] at hvalue
  cases hvalue

/-! ## The inventory -/

/-- What the loops keep: the leaves that are gathered are those the inventory has accepted and the
scratch file lists, and no other record was asked for. -/
structure Listing (root : VerifiedRecord sha256) (manifest : RootManifest) (geometry : Geometry)
    (calls : Calls sha256) (inventory : ManifestInventory) (file : Bytes)
    (leaves : List (VerifiedRecord sha256 × LeafManifest)) : Prop where
  gathered : Gathered root manifest geometry calls leaves
  inventory : inventory =
    ⟨geometry, leaves.length, root.txid :: txids manifest.entries ++ txids (listed leaves)⟩
  file : file = encodeReferences (listed leaves)
  fresh : ∀ txid, txid ∉ txids (manifest.entries.take leaves.length) → fetchesOf txid calls = 0

theorem Listing.nodup_entries (h : Listing root manifest geometry calls inventory file leaves) :
    (txids manifest.entries).Nodup := by
  have hnodup := (List.nodup_append.mp h.gathered.nodup).1
  exact (List.nodup_cons.mp hnodup).2

theorem txids_append (a b : List ChildReference) : txids (a ++ b) = txids a ++ txids b :=
  List.map_append

theorem txids_references (items : List Item) :
    txids (references sha256 items) = items.map Prod.snd := by
  rw [txids, references, List.map_map]
  rfl

theorem take_succ_of_getElem? {entries : List ChildReference} {n : ℕ}
    {reference : ChildReference} (hn : entries[n]? = some reference) :
    entries.take (n + 1) = entries.take n ++ [reference] := by
  rw [List.take_add_one, hn]
  rfl

/-- The next reference is none of those before it. -/
theorem not_mem_txids_take {entries : List ChildReference} {n : ℕ} {reference : ChildReference}
    (hnodup : (txids entries).Nodup) (hn : entries[n]? = some reference) :
    reference.txid ∉ txids (entries.take n) := by
  intro hmem
  have htake : (txids (entries.take (n + 1))).Nodup := by
    rw [txids, List.map_take]
    exact hnodup.sublist (List.take_sublist _ _)
  rw [take_succ_of_getElem? hn, txids_append] at htake
  exact (List.nodup_append.mp htake).2.2 _ hmem _ List.mem_cons_self rfl

variable {batch : List ChildReference} {entry : ChildReference}

/-- The reference that follows the gathered leaves. -/
theorem Listing.next_fresh (h : Listing root manifest geometry calls inventory file leaves)
    (hnext : manifest.entries[leaves.length]? = some entry) : fetchesOf entry.txid calls = 0 :=
  h.fresh entry.txid (not_mem_txids_take h.nodup_entries hnext)

theorem refers_entry {j : ℕ} (hroot : root.decode = .ok (.root manifest))
    (hgeometry : manifest.geometry = .ok geometry) (hentry : manifest.entries[j]? = some entry) :
    Refers limits root calls entry := by
  intro data items manifest' geometry' hexpected _
  obtain ⟨rfl, rfl⟩ := hexpected.manifest_eq hroot hgeometry
  obtain ⟨item, _, hmem, hreference⟩ := hexpected.entry hentry
  exact ⟨item, hmem, hreference⟩

theorem leafEntries_of_lt {index : ℕ}
    (hindex : index < geometry.leaves) : geometry.leafEntries index =
      .ok (min (geometry.parts - index * Geometry.fanout) Geometry.fanout) := by
  have hfits : min (geometry.parts - index * Geometry.fanout) Geometry.fanout ≤ u16Max :=
    le_trans (Nat.min_le_right _ _) (by decide)
  rw [Geometry.leafEntries, Except.bind_eq_ok]
  exact ⟨(), ensure_eq_ok.mpr (decide_eq_true hindex), tryU16_eq_ok.mpr ⟨hfits, rfl⟩⟩

/-- **An honest leaf is accepted.** -/
theorem Gathered.accepts (h : Gathered root manifest geometry calls leaves)
    {data items : List Item} (hexpected : Expected limits root data items manifest geometry)
    (hhonest : Honest limits (items ++ data) root.author calls) {bytes : Bytes}
    {leaf : LeafManifest} (hdecode : MultipartRecord.decode bytes = .ok (.leaf leaf))
    (hleaf : leaf = ⟨leaves.length, ((references sha256 data).drop
      (leaves.length * Geometry.fanout)).take Geometry.fanout⟩)
    (hindex : leaves.length < geometry.leaves)
    (hinventory : inventory =
      ⟨geometry, leaves.length, root.txid :: txids manifest.entries ++ txids (listed leaves)⟩) :
    ∃ inventory', inventory.acceptLeaf leaf = .ok inventory' := by
  rw [hinventory]
  refine ⟨_, (ManifestInventory.acceptLeaf_eq_ok h.nodup).mpr ⟨?_, ?_, ?_, ?_, rfl⟩⟩
  · obtain ⟨hbound, hpos, hle⟩ := MultipartRecord.decode_leaf_bounds hdecode
    simp only [LeafManifest.validate, Except.bind_eq_ok, ensure_eq_ok, Bool.and_eq_true,
      decide_eq_true_eq]
    exact ⟨(), hbound, hpos, hle⟩
  · rw [hleaf]
  · show geometry.leafEntries leaves.length = _
    rw [leafEntries_of_lt hindex, hleaf]
    show _ = Except.ok (List.length _)
    rw [List.length_take, List.length_drop, references_length, hexpected.partCount, Nat.min_comm]
  · -- the leaf continues the references gathered so far
    have hlisted : listed leaves ++ leaf.entries =
        (references sha256 data).take ((leaves.length + 1) * Geometry.fanout) := by
      rw [h.listed_eq hexpected hhonest, hleaf, Nat.succ_mul, ← List.take_add]
    show (root.txid :: txids manifest.entries ++ txids (listed leaves) ++
      txids leaf.entries).Nodup
    rw [List.append_assoc, ← txids_append, hlisted, hexpected.entries, txids_references, txids,
      List.map_take, ← txids, txids_references]
    have hpart : (root.txid :: (items.map Prod.snd ++ (data.map Prod.snd).take
        ((leaves.length + 1) * Geometry.fanout))).Sublist
          (root.txid :: (items.map Prod.snd ++ data.map Prod.snd)) :=
      List.Sublist.cons_cons _ ((List.take_sublist _ _).append_left _)
    exact hpart.nodup hexpected.distinct

/-! ## One leaf -/

theorem writeReferences_recovers (references : List ChildReference) (file : Bytes) :
    Recovers limits root calls (writeReferences sha256 references file) fun calls' file' =>
      Asks (fun _ => False) calls calls' ∧ file' = file ++ encodeReferences references := by
  induction references generalizing calls file with
  | nil => exact ⟨Asks.refl calls, (List.append_nil file).symm⟩
  | cons reference references ih =>
      rw [writeReferences]
      apply Holds.andThen storage_recovers
      intro calls₁ _ hfirst
      apply Holds.andThen storage_recovers
      intro calls₂ _ hsecond
      apply (ih _).imp
      rintro calls' file' ⟨hrest, rfl⟩
      refine ⟨hfirst.trans (hsecond.trans hrest), ?_⟩
      rw [List.append_assoc]
      rfl

/-- What adds one leaf. -/
theorem Listing.push (h : Listing root manifest geometry calls inventory file leaves)
    (hnext : manifest.entries[leaves.length]? = some entry) {record : VerifiedRecord sha256}
    {leaf : LeafManifest} {inventory' : ManifestInventory} (hcalls : Asks (· = entry.txid) calls calls')
    (hused : Used calls' root.author entry record) (hdecode : record.decode = .ok (.leaf leaf))
    (haccept : inventory.acceptLeaf leaf = .ok inventory') :
    Listing root manifest geometry calls' inventory' (file ++ encodeReferences leaf.entries)
      (leaves ++ [(record, leaf)]) := by
  have hseen : inventory.seen.Nodup := by
    rw [h.inventory]
    exact h.gathered.nodup
  obtain ⟨_, hindex, hentries, hnodup, hinventory⟩ := (ManifestInventory.acceptLeaf_eq_ok hseen).mp haccept
  rw [h.inventory] at hindex hentries hnodup hinventory
  have hseen' : root.txid :: txids manifest.entries ++ txids (listed leaves) ++ txids leaf.entries =
      root.txid :: txids manifest.entries ++ txids (listed (leaves ++ [(record, leaf)])) := by
    rw [listed_concat, txids_append, List.append_assoc]
  refine ⟨⟨?_, ?_⟩, ?_, ?_, ?_⟩
  · intro j other manifest' hj
    by_cases hold : j < leaves.length
    · rw [List.getElem?_append_left hold] at hj
      exact (h.gathered.grow hcalls.subset).leaf j other manifest' hj
    · obtain ⟨hlt, _⟩ := List.getElem?_eq_some_iff.mp hj
      rw [List.length_append, List.length_singleton] at hlt
      obtain rfl : j = leaves.length := by omega
      rw [List.getElem?_concat_length] at hj
      cases hj
      exact ⟨entry, hnext, hused, hdecode, hindex, hentries⟩
  · rw [← hseen']
    exact hnodup
  · rw [hinventory, List.length_append, List.length_singleton, ← hseen']
  · rw [listed_concat, encodeReferences_append, h.file]
  · intro txid htxid
    rw [List.length_append, List.length_singleton, take_succ_of_getElem? hnext, txids_append,
      List.mem_append, not_or] at htxid
    have hne : txid ≠ entry.txid := by
      intro heq
      apply htxid.2
      rw [heq]
      exact List.mem_cons_self
    rw [hcalls.fetchesOf_eq hne]
    exact h.fresh txid htxid.1

theorem Listing.grow (h : Listing root manifest geometry calls inventory file leaves)
    (hcalls : Asks (fun _ => False) calls calls') :
    Listing root manifest geometry calls' inventory file leaves := by
  refine ⟨h.gathered.grow hcalls.subset, h.inventory, h.file, ?_⟩
  intro txid htxid
  rw [hcalls.fetchesOf_eq id]
  exact h.fresh txid htxid

theorem Listing.length_le (h : Listing root manifest geometry calls inventory file leaves) :
    leaves.length ≤ manifest.entries.length := by
  rcases Nat.eq_zero_or_pos leaves.length with hzero | hpos
  · omega
  · have hlast : leaves[leaves.length - 1]? = some leaves[leaves.length - 1] :=
      List.getElem?_eq_getElem _
    obtain ⟨reference, hreference, _⟩ := h.gathered.leaf _ _ _ hlast
    have hlt := (List.getElem?_eq_some_iff.mp hreference).1
    omega

/-- **One batch** of leaves is gathered. -/
theorem inventoryBatch_recovers (hroot : root.decode = .ok (.root manifest))
    (hgeometry : manifest.geometry = .ok geometry)
    (h : Listing root manifest geometry calls inventory file leaves) {rest : List ChildReference}
    (hbatch : manifest.entries.drop leaves.length = batch ++ rest) :
    Recovers limits root calls (inventoryBatch sha256 root.author limits batch inventory file)
      fun calls' result => ∃ leaves', leaves'.length = leaves.length + batch.length ∧
        Listing root manifest geometry calls' result.1 result.2 leaves' := by
  induction batch generalizing calls inventory file leaves with
  | nil => exact ⟨leaves, rfl, h⟩
  | cons entry batch ih =>
      have hnext : manifest.entries[leaves.length]? = some entry := by
        have hhead := congrArg List.head? hbatch
        rw [List.head?_drop] at hhead
        exact hhead
      have hindex : leaves.length < geometry.leaves := by
        have hlt := (List.getElem?_eq_some_iff.mp hnext).1
        simp only [RootManifest.geometry, Except.bind_eq_ok, ensure_eq_ok, beq_iff_eq] at hgeometry
        obtain ⟨other, _, _, hcount, hsame⟩ := hgeometry
        cases hsame
        omega
      have hdrop : manifest.entries.drop (leaves.length + 1) = batch ++ rest := by
        rw [← List.drop_drop, hbatch]
        rfl
      rw [inventoryBatch]
      apply Holds.andThen
        (fetch_recovers (h.next_fresh hnext) (refers_entry hroot hgeometry hnext))
      rintro calls₁ record ⟨hused, hasks⟩
      have hgathered := h.gathered.grow hasks.subset
      have hdecoded : ∀ data items, Expected limits root data items manifest geometry →
          Honest limits (items ++ data) root.author calls₁ → record.decode = .ok (.leaf ⟨leaves.length,
            ((references sha256 data).drop (leaves.length * Geometry.fanout)).take
              Geometry.fanout⟩) :=
        fun data items hexpected hhonest => hexpected.leaf_eq hhonest hnext hused
      apply Holds.andThen (orInvalid_recovers fun error herror => fault_of_ok herror
        (fun data items hexpected hhonest => ⟨_, hdecoded data items hexpected hhonest⟩)
        hroot hgeometry)
      rintro _ decoded ⟨rfl, hdecode⟩
      -- an honest source serves a leaf under a reference of the root
      have hkind : (∀ leaf, decoded ≠ .leaf leaf) → Fault limits root calls₁ := by
        intro hother data items manifest' geometry' hexpected hhonest
        obtain ⟨rfl, rfl⟩ := hexpected.manifest_eq hroot hgeometry
        have hleaf := hdecode.symm.trans (hdecoded data items hexpected hhonest)
        exact hother _ (Except.ok.inj hleaf)
      cases decoded with
      | data part => exact hkind fun leaf => MultipartRecord.noConfusion
      | root other => exact hkind fun leaf => MultipartRecord.noConfusion
      | leaf leaf =>
          apply Holds.andThen (orInvalid_recovers fun error herror => fault_of_ok herror
            (fun data items hexpected hhonest => ?_) hroot hgeometry)
          · rintro _ inventory' ⟨rfl, haccept⟩
            apply Holds.andThen (writeReferences_recovers leaf.entries file)
            rintro calls₂ file' ⟨hwrites, rfl⟩
            have hpushed := h.push hnext (hasks.trans (hwrites.weaken fun _ hno => hno.elim))
              (hused.grow hwrites.subset) hdecode haccept
            apply (ih hpushed ?_).imp
            · rintro calls' result ⟨leaves', hlength, hresult⟩
              refine ⟨leaves', ?_, hresult⟩
              rw [hlength, List.length_append, List.length_singleton, List.length_cons]
              omega
            · rw [List.length_append, List.length_singleton]
              exact hdrop
          · obtain hleaf := hdecode.symm.trans (hdecoded data items hexpected hhonest)
            exact hgathered.accepts hexpected hhonest hdecode
              (MultipartRecord.leaf.inj (Except.ok.inj hleaf)) hindex h.inventory

/-! ## All the leaves -/

theorem inventoryBatches_recovers (hroot : root.decode = .ok (.root manifest))
    (hgeometry : manifest.geometry = .ok geometry) {batches : List (List ChildReference)}
    (h : Listing root manifest geometry calls inventory file leaves)
    (hbatches : manifest.entries.drop leaves.length = batches.flatten) :
    Recovers limits root calls
      (inventoryBatches sha256 root.author limits batches inventory file)
      fun calls' result => ∃ leaves', leaves'.length = manifest.entries.length ∧
        Listing root manifest geometry calls' result.1 result.2 leaves' := by
  induction batches generalizing calls inventory file leaves with
  | nil =>
      refine ⟨leaves, ?_, h⟩
      have hend := congrArg List.length hbatches
      rw [List.length_drop, List.flatten_nil, List.length_nil] at hend
      have hwithin := h.length_le
      omega
  | cons batch batches ih =>
      rw [inventoryBatches]
      apply holds_bind.mpr
      apply holds_call.mpr
      refine ⟨trivial, ?_⟩
      intro answer _
      show Recovers limits root _ _ _
      have hasks : Asks (fun _ => False) calls
          (calls ++ [⟨.prefetch (batch.map RecordRequest.mk), answer⟩]) := asks_other fun _ => rfl
      apply Holds.andThen (inventoryBatch_recovers hroot hgeometry (h.grow hasks) hbatches)
      rintro calls₁ ⟨inventory₁, file₁⟩ ⟨leaves₁, hlength, hlisting⟩
      apply ih hlisting
      rw [hlength, ← List.drop_drop, hbatches, List.flatten_cons, List.drop_left]

/-- **The inventory** gathers the leaves of the root; their references are in the file. -/
theorem inventory_recovers (hroot : root.decode = .ok (.root manifest))
    (hgeometry : manifest.geometry = .ok geometry) (hnone : ∀ txid, fetchesOf txid calls = 0) :
    Recovers limits root calls (Reconstruct.inventory sha256 root manifest limits)
      fun calls' file => ∃ inventory leaves, leaves.length = manifest.entries.length ∧
        Listing root manifest geometry calls' inventory file leaves := by
  rw [Reconstruct.inventory]
  apply Holds.andThen (orInvalid_recovers fun error herror => fault_of_ok herror
    (fun data items hexpected _ => ?_) hroot hgeometry)
  · rintro _ inventory ⟨rfl, hnew⟩
    obtain ⟨geometry', hgeometry', hnodup, rfl⟩ := new_eq_ok.mp hnew
    obtain rfl : geometry' = geometry := Except.ok.inj (hgeometry'.symm.trans hgeometry)
    have hempty : Listing root manifest geometry' calls
        ⟨geometry', 0, root.txid :: txids manifest.entries⟩ [] [] := by
      refine ⟨⟨?_, ?_⟩, ?_, rfl, fun txid _ => hnone txid⟩
      · intro j record leaf hj
        cases hj
      · show (root.txid :: txids manifest.entries ++ []).Nodup
        rw [List.append_nil]
        exact hnodup
      · show _ = ManifestInventory.mk geometry' 0 (root.txid :: txids manifest.entries ++ [])
        rw [List.append_nil]
    apply Holds.andThen (inventoryBatches_recovers hroot hgeometry hempty
      (chunks_flatten (by decide) manifest.entries).symm)
    rintro calls₁ ⟨inventory₁, file⟩ ⟨leaves, hlength, hlisting⟩
    apply Holds.andThen storage_recovers
    intro calls₂ _ hasks
    exact ⟨inventory₁, leaves, hlength, hlisting.grow hasks⟩
  · refine ⟨_, new_eq_ok.mpr ⟨geometry, hgeometry, ?_, rfl⟩⟩
    rw [hexpected.entries, txids_references]
    exact (List.Sublist.cons_cons _ (List.sublist_append_left _ _)).nodup hexpected.distinct

end Urma.Runtime.Reconstruct
