import Urma.Runtime.RecoveryManifests

/-!
# Reading the data parts

Each pass of the loops of `reconstruct_parts` adds one part to those assembled. The references come
back out of the scratch file in the order the leaves list them, eight at a time, and no record is
asked for twice: the references of an object are all different.
-/

namespace Urma.Runtime.Reconstruct

open Lib Lib.Layout Program ManifestInventory

variable {sha256 : Bytes → Bytes32} {limits : RecoveryLimits} {root : VerifiedRecord sha256}
  {manifest : RootManifest} {geometry : Geometry} {calls calls' : Calls sha256}
  {leaves : List (VerifiedRecord sha256 × LeafManifest)}
  {parts : List (VerifiedRecord sha256 × DataPart)}

/-! ## The scratch file -/

/-- **The requests** are read back as the references were written. -/
theorem readRequests_recovers {count : ℕ} {references : List ChildReference}
    (hcount : count ≤ references.length) :
    Recovers limits root calls (readRequests sha256 count (encodeReferences references))
      fun calls' result => Asks (fun _ => False) calls calls' ∧
        result = ((references.take count).map RecordRequest.mk,
          encodeReferences (references.drop count)) := by
  induction count generalizing calls references with
  | zero => exact ⟨Asks.refl calls, rfl⟩
  | succ count ih =>
      obtain ⟨reference, references, rfl⟩ : ∃ first rest, references = first :: rest :=
        List.exists_cons_of_length_pos (by omega)
      have hfile : encodeReferences (reference :: references) =
          reference.txid.bytes.toList ++ (reference.recordHash.toList ++
            encodeReferences references) := by
        show (reference.txid.bytes.toList ++ reference.recordHash.toList) ++ _ = _
        rw [List.append_assoc]
        rfl
      have htxid : (encodeReferences (reference :: references)).take 32 =
          reference.txid.bytes.toList := by
        rw [hfile, List.take_left' Vector.length_toList]
      have hhash : ((encodeReferences (reference :: references)).drop 32).take 32 =
          reference.recordHash.toList := by
        rw [hfile, List.drop_left' Vector.length_toList,
          List.take_left' Vector.length_toList]
      have hrest : (encodeReferences (reference :: references)).drop 64 =
          encodeReferences references :=
        List.drop_left' reference.encode_length
      rw [readRequests, htxid, hhash, hrest, tryInto_toList, tryInto_toList]
      apply Holds.andThen storage_recovers
      intro calls₁ _ hfirst
      apply Holds.andThen storage_recovers
      intro calls₂ _ hsecond
      apply Holds.andThen (ih (Nat.le_of_succ_le_succ hcount))
      rintro calls₃ ⟨requests, rest⟩ ⟨hasks, hresult⟩
      cases hresult
      exact ⟨hfirst.trans (hsecond.trans hasks), rfl⟩

/-! ## One part -/

/-- What the loops keep: the parts that are assembled are those whose payloads were written, and
besides the leaves only their records were asked for. -/
structure Building (root : VerifiedRecord sha256) (manifest : RootManifest) (geometry : Geometry)
    (calls : Calls sha256) (leaves : List (VerifiedRecord sha256 × LeafManifest)) (length : ℕ)
    (payload : Bytes) (parts : List (VerifiedRecord sha256 × DataPart)) : Prop where
  gathered : Gathered root manifest geometry calls leaves
  assembled : Assembled root geometry calls leaves parts
  length : length = payload.length
  payload : payload = joined parts
  fresh : ∀ txid, txid ∉ txids manifest.entries → txid ∉ txids ((listed leaves).take parts.length) →
    fetchesOf txid calls = 0

variable {length : ℕ} {payload : Bytes} {entry : ChildReference}

theorem Building.grow (h : Building root manifest geometry calls leaves length payload parts)
    (hcalls : Asks (fun _ => False) calls calls') :
    Building root manifest geometry calls' leaves length payload parts := by
  refine ⟨h.gathered.grow hcalls.subset, h.assembled.grow hcalls.subset, h.length, h.payload, ?_⟩
  intro txid hentry hlisted
  rw [hcalls.fetchesOf_eq id]
  exact h.fresh txid hentry hlisted

theorem Building.next_fresh
    (h : Building root manifest geometry calls leaves length payload parts)
    (hnext : (listed leaves)[parts.length]? = some entry) : fetchesOf entry.txid calls = 0 := by
  obtain ⟨_, hlisted, happart⟩ := List.nodup_append.mp h.gathered.nodup
  have hmem : entry.txid ∈ txids (listed leaves) :=
    List.mem_map_of_mem (List.mem_of_getElem? hnext)
  apply h.fresh
  · intro hentry
    exact happart _ (List.mem_cons_of_mem _ hentry) _ hmem rfl
  · exact not_mem_txids_take hlisted hnext

theorem refers_listed (hroot : root.decode = .ok (.root manifest))
    (hgeometry : manifest.geometry = .ok geometry)
    (hgathered : Gathered root manifest geometry calls leaves) {i : ℕ}
    (hentry : (listed leaves)[i]? = some entry) : Refers limits root calls entry := by
  intro data items manifest' geometry' hexpected hhonest
  obtain ⟨rfl, rfl⟩ := hexpected.manifest_eq hroot hgeometry
  obtain ⟨item, _, hmem, hreference⟩ := hgathered.part_entry hexpected hhonest hentry
  exact ⟨item, hmem, hreference⟩

/-- What adds one part. -/
theorem Building.push (h : Building root manifest geometry calls leaves length payload parts)
    (hnext : (listed leaves)[parts.length]? = some entry) {record : VerifiedRecord sha256}
    {part : DataPart} (hcalls : Asks (· = entry.txid) calls calls')
    (hused : Used calls' root.author entry record) (hdecode : record.decode = .ok (.data part))
    (hindex : part.index = parts.length)
    (hlength : geometry.partLength parts.length = .ok part.payload.length) :
    Building root manifest geometry calls' leaves (length + part.payload.length)
      (payload ++ part.payload) (parts ++ [(record, part)]) := by
  refine ⟨h.gathered.grow hcalls.subset, ⟨?_⟩, ?_, ?_, ?_⟩
  · intro i other part' hi
    by_cases hold : i < parts.length
    · rw [List.getElem?_append_left hold] at hi
      exact (h.assembled.grow hcalls.subset).part i other part' hi
    · obtain ⟨hlt, _⟩ := List.getElem?_eq_some_iff.mp hi
      rw [List.length_append, List.length_singleton] at hlt
      obtain rfl : i = parts.length := by omega
      rw [List.getElem?_concat_length] at hi
      cases hi
      exact ⟨entry, hnext, hused, hdecode, hindex, hlength⟩
  · rw [List.length_append, h.length]
  · rw [joined_concat, h.payload]
  · intro txid hentry hlisted
    rw [List.length_append, List.length_singleton, take_succ_of_getElem? hnext, txids_append,
      List.mem_append, not_or] at hlisted
    have hne : txid ≠ entry.txid := by
      intro heq
      apply hlisted.2
      rw [heq]
      exact List.mem_cons_self
    rw [hcalls.fetchesOf_eq hne]
    exact h.fresh txid hentry hlisted.1

theorem payloads_take_succ {data : List Item} {n : ℕ} {item : Item} (h : data[n]? = some item) :
    payloads (data.take (n + 1)) = payloads (data.take n) ++ item.payload := by
  rw [List.take_add_one, h, payloads_append]
  congr 1
  exact List.append_nil _

theorem payloads_take_le (data : List Item) (n : ℕ) :
    (payloads (data.take n)).length ≤ (payloads data).length := by
  have hsplit := congrArg payloads (List.take_append_drop n data)
  rw [payloads_append] at hsplit
  rw [← hsplit, List.length_append]
  exact Nat.le_add_right _ _

/-- **One batch** of parts is assembled. -/
theorem partsBatch_recovers (hroot : root.decode = .ok (.root manifest))
    (hgeometry : manifest.geometry = .ok geometry) {batch rest : List ChildReference}
    (h : Building root manifest geometry calls leaves length payload parts)
    (hbatch : (listed leaves).drop parts.length = batch ++ rest) :
    Recovers limits root calls (partsBatch sha256 root.author geometry limits
      (batch.map RecordRequest.mk) parts.length length payload)
      fun calls' result => ∃ parts', parts'.length = parts.length + batch.length ∧
        Building root manifest geometry calls' leaves result.1 result.2 parts' := by
  induction batch generalizing calls length payload parts with
  | nil => exact ⟨parts, rfl, h⟩
  | cons entry batch ih =>
      have hnext : (listed leaves)[parts.length]? = some entry := by
        have hhead := congrArg List.head? hbatch
        rw [List.head?_drop] at hhead
        exact hhead
      have hdrop : (listed leaves).drop (parts.length + 1) = batch ++ rest := by
        rw [← List.drop_drop, hbatch]
        rfl
      rw [List.map_cons, partsBatch]
      apply Holds.andThen
        (fetch_recovers (h.next_fresh hnext) (refers_listed hroot hgeometry h.gathered hnext))
      rintro calls₁ record ⟨hused, hasks⟩
      have hgathered := h.gathered.grow hasks.subset
      have hassembled := h.assembled.grow hasks.subset
      have hpart : ∀ data items, Expected limits root data items manifest geometry →
          Honest limits (items ++ data) root.author calls₁ → ∃ item, data[parts.length]? = some item ∧
            record.decode = .ok (.data ⟨parts.length, item.payload⟩) ∧
              geometry.partLength parts.length = .ok item.payload.length :=
        fun data items hexpected hhonest => hgathered.part_eq hexpected hhonest hnext hused
      apply Holds.andThen (orInvalid_recovers fun error herror => fault_of_ok herror
        (fun data items hexpected hhonest => ?_) hroot hgeometry)
      · rintro _ decoded ⟨rfl, hdecode⟩
        -- an honest source serves a part of the right place and length under the reference
        have hfault : (∀ expected, decoded = .data ⟨parts.length, expected⟩ →
            geometry.partLength parts.length = .ok expected.length →
              length + expected.length ≤ u64Max → False) → Fault limits root calls₁ := by
          intro hother data items manifest' geometry' hexpected hhonest
          obtain ⟨rfl, rfl⟩ := hexpected.manifest_eq hroot hgeometry
          obtain ⟨item, hitem, hdata, hlength⟩ := hpart data items hexpected hhonest
          refine hother item.payload (Except.ok.inj (hdecode.symm.trans hdata)) hlength ?_
          have hwritten := hassembled.joined_eq hgathered hexpected hhonest
          have hle := payloads_take_le data (parts.length + 1)
          have hbound := (Geometry.new_eq_ok.mp hexpected.rootGeometry).1
          rw [payloads_take_succ hitem, List.length_append, ← hwritten, ← h.payload, ← h.length,
            hexpected.length] at hle
          simp only [Geometry.maxObjectBytes, u64Max] at *
          omega
        cases decoded with
        | leaf leaf => exact hfault fun _ hkind _ _ => MultipartRecord.noConfusion hkind
        | root other => exact hfault fun _ hkind _ _ => MultipartRecord.noConfusion hkind
        | data part =>
            apply Holds.andThen (orInvalid_recovers fun error herror => fault_of_ok herror
              (fun data items hexpected hhonest => ?_) hroot hgeometry)
            · rintro _ expected ⟨rfl, hexpected⟩
              show Recovers limits root _ (if _ then _ else _) _
              split
              · next hmismatch =>
                  refine hfault fun payload' hkind hlength _ => ?_
                  cases hkind
                  rw [hexpected] at hlength
                  rcases hmismatch with hindex | hne
                  · exact hindex rfl
                  · exact hne (Except.ok.inj hlength).symm
              · next hmatch =>
                  rw [not_or, not_not, not_not] at hmatch
                  obtain ⟨hindex, hlength⟩ := hmatch
                  rw [← hlength] at hexpected
                  cases hsum : checkedAdd length part.payload.length with
                  | none =>
                      refine hfault fun payload' hkind _ hbound => ?_
                      cases hkind
                      have hsome := checkedAdd_eq_some.mpr ⟨hbound, rfl⟩
                      rw [hsum] at hsome
                      cases hsome
                  | some total =>
                      obtain ⟨_, rfl⟩ := checkedAdd_eq_some.mp hsum
                      apply Holds.andThen storage_recovers
                      intro calls₂ _ hstored
                      have hpushed := h.push hnext (hasks.trans (hstored.weaken fun _ hno => hno.elim))
                        (hused.grow hstored.subset) hdecode hindex hexpected
                      have hlast : (parts ++ [(record, part)]).length = parts.length + 1 :=
                        List.length_append
                      rw [← hlast]
                      apply (ih hpushed ?_).imp
                      · rintro calls' result ⟨parts', hparts, hresult⟩
                        refine ⟨parts', ?_, hresult⟩
                        rw [hparts, hlast, List.length_cons]
                        omega
                      · rw [hlast]
                        exact hdrop
            · obtain ⟨item, _, _, hlength⟩ := hpart data items hexpected hhonest
              exact ⟨_, hlength⟩
      · obtain ⟨item, _, hdata, _⟩ := hpart data items hexpected hhonest
        exact ⟨_, hdata⟩

/-! ## All the parts -/

/-- **The batches**, from the `first`-th on. -/
theorem partsBatches_recovers (hroot : root.decode = .ok (.root manifest))
    (hgeometry : manifest.geometry = .ok geometry) {first count : ℕ}
    (h : Building root manifest geometry calls leaves length payload parts)
    (hlisted : (listed leaves).length = geometry.parts)
    (hparts : parts.length = min geometry.parts (first * 8))
    (hcount : first + count = (geometry.parts + 7) / 8) :
    Recovers limits root calls (partsBatches sha256 root.author geometry limits
      ((List.range' first count).map (· * 8)) (encodeReferences ((listed leaves).drop parts.length))
      length payload)
      fun calls' result => ∃ parts', parts'.length = geometry.parts ∧
        Building root manifest geometry calls' leaves result.1 result.2 parts' := by
  induction count generalizing calls length payload parts first with
  | zero =>
      refine ⟨parts, ?_, h⟩
      omega
  | succ count ih =>
      have hstart : first * 8 = parts.length := by omega
      have hsize : min (geometry.parts - parts.length) 8 ≤
          ((listed leaves).drop parts.length).length := by
        rw [List.length_drop, hlisted]
        exact Nat.min_le_left _ _
      rw [List.range'_succ, List.map_cons, partsBatches, hstart]
      apply Holds.andThen (readRequests_recovers hsize)
      rintro calls₁ ⟨requests, rest⟩ ⟨hread, hresult⟩
      cases hresult
      apply holds_bind.mpr
      apply holds_call.mpr
      refine ⟨trivial, ?_⟩
      intro answer _
      show Recovers limits root _ _ _
      have hasks := hread.trans (@asks_other sha256 calls₁ (fun _ => False) (.prefetch _) answer
        fun _ => rfl)
      apply Holds.andThen (partsBatch_recovers hroot hgeometry (h.grow hasks)
        (List.take_append_drop _ _).symm)
      rintro calls₂ ⟨length₂, payload₂⟩ ⟨parts₂, hlength, hbuilding⟩
      rw [List.length_take, List.length_drop, hlisted] at hlength
      have hrest : ((listed leaves).drop parts.length).drop (min (geometry.parts - parts.length) 8) =
          (listed leaves).drop parts₂.length := by
        rw [List.drop_drop]
        congr 1
        omega
      rw [hrest]
      exact ih hbuilding (by omega) (by omega)

/-- **The payload** is what the parts hold, with the length and the hash of the root. -/
theorem reconstructParts_recovers (hroot : root.decode = .ok (.root manifest))
    (hgeometry : manifest.geometry = .ok geometry)
    (h : Building root manifest geometry calls leaves 0 [] [])
    (hlisted : (listed leaves).length = geometry.parts) :
    Recovers limits root calls (reconstructParts sha256 root.author manifest geometry limits
      (encodeReferences (listed leaves)))
      fun calls' payload => payload.length = manifest.length ∧
        sha256 payload = manifest.payloadHash ∧ ∃ parts, parts.length = geometry.parts ∧
          Building root manifest geometry calls' leaves payload.length payload parts := by
  rw [reconstructParts, starts, List.range_eq_range']
  apply Holds.andThen (partsBatches_recovers hroot hgeometry h hlisted (Nat.min_zero _).symm
    (Nat.zero_add _))
  rintro calls₁ ⟨length, payload⟩ ⟨parts, hparts, hbuilding⟩
  show Recovers limits root _ (if _ then _ else _) _
  split
  · next hmismatch =>
      intro data items manifest' geometry' hexpected hhonest
      obtain ⟨rfl, rfl⟩ := hexpected.manifest_eq hroot hgeometry
      have hwritten := hbuilding.assembled.joined_eq hbuilding.gathered hexpected hhonest
      rw [hparts, ← hexpected.partCount, List.take_length] at hwritten
      have hpayload : payload = payloads data := hbuilding.payload.trans hwritten
      have hlength : length = payload.length := hbuilding.length
      rcases hmismatch with hlong | hhash
      · apply hlong
        rw [hlength, hpayload, hexpected.length]
      · apply hhash
        rw [hpayload, hexpected.payloadHash]
  · next hmatch =>
      rw [not_or, not_not, not_not] at hmatch
      have hlength : length = payload.length := hbuilding.length
      apply Holds.andThen storage_recovers
      intro calls₂ _ hasks
      have hgrown := hbuilding.grow hasks
      rw [hlength] at hgrown hmatch
      exact ⟨hmatch.1, hmatch.2, parts, hparts, hgrown⟩

/-! ## The object -/

/-- What a recovered object is: the records it was read from were all served under the references
that list them, by the author of the root, none of them twice; the payload is that of the data
parts in their order, and has the length and the hash the root declares. -/
structure RecoveredFrom (root : VerifiedRecord sha256) (calls : Calls sha256)
    (object : RecoveredObject) (geometry : Geometry)
    (leaves : List (VerifiedRecord sha256 × LeafManifest))
    (parts : List (VerifiedRecord sha256 × DataPart)) : Prop where
  decode : root.decode = .ok (.root object.manifest)
  rootGeometry : object.manifest.geometry = .ok geometry
  root_eq : object.root = root.txid
  author_eq : object.author = root.author
  leafCount : leaves.length = geometry.leaves
  gathered : Gathered root object.manifest geometry calls leaves
  partCount : parts.length = geometry.parts
  assembled : Assembled root geometry calls leaves parts
  payload : object.payload = joined parts
  length : object.payload.length = object.manifest.length
  payloadHash : sha256 object.payload = object.manifest.payloadHash

theorem Expected.geometry_eq {data items : List Item}
    (h : Expected limits root data items manifest geometry) : manifest.geometry = .ok geometry := by
  rw [RootManifest.geometry, Except.bind_eq_ok]
  refine ⟨geometry, h.rootGeometry, ?_⟩
  rw [Except.bind_eq_ok]
  refine ⟨(), ensure_eq_ok.mpr ?_, rfl⟩
  rw [h.entries, references_length, h.leafCount]
  exact beq_self_eq_true _

/-- The leaves of a root list all its parts. -/
theorem Gathered.listed_length (h : Gathered root manifest geometry calls leaves)
    (hgeometry : manifest.geometry = .ok geometry) (hleaves : leaves.length = geometry.leaves) :
    (listed leaves).length = geometry.parts := by
  simp only [RootManifest.geometry, Except.bind_eq_ok] at hgeometry
  obtain ⟨other, hnew, _, _, hsame⟩ := hgeometry
  cases hsame
  obtain ⟨_, hlisted⟩ := h.blocks
  rw [hlisted, hleaves]
  obtain ⟨_, rfl⟩ := Geometry.new_eq_ok.mp hnew
  simp only [Geometry.fanout]
  omega

/-- **A recovery** asks for every record at most as often as the budget says, and what it returns
was recovered; where it fails, no honest source answered. -/
theorem reconstruct_recovers :
    Recovers limits root [] (reconstruct sha256 root limits) fun calls object =>
      ∃ geometry leaves parts, RecoveredFrom root calls object geometry leaves parts := by
  rw [reconstruct]
  apply Holds.andThen (orInvalid_recovers fun error herror => ?_)
  · rintro _ decoded ⟨rfl, hdecode⟩
    have hkind : (∀ manifest, decoded ≠ .root manifest) → Fault limits root [] := by
      intro hother data items manifest geometry hexpected _
      exact hother _ (Except.ok.inj (hdecode.symm.trans hexpected.decode))
    cases decoded with
    | data part => exact hkind fun manifest => MultipartRecord.noConfusion
    | leaf leaf => exact hkind fun manifest => MultipartRecord.noConfusion
    | root manifest =>
        apply Holds.andThen (orInvalid_recovers fun error herror => ?_)
        · rintro _ geometry ⟨rfl, hgeometry⟩
          show Recovers limits root _ (if _ then _ else _) _
          split
          · next hlarge =>
              intro data items manifest' geometry' hexpected _
              obtain ⟨rfl, rfl⟩ := hexpected.manifest_eq hdecode hgeometry
              have hbytes := hexpected.bytes
              have hnodes := hexpected.nodes
              omega
          · apply Holds.andThen storage_recovers
            intro calls₁ _ hcreated
            have hnone : ∀ txid, fetchesOf txid calls₁ = 0 :=
              fun txid => hcreated.fetchesOf_eq id
            apply Holds.andThen (inventory_recovers hdecode hgeometry hnone)
            rintro calls₂ file ⟨inventory, leaves, hcount, hlisting⟩
            apply Holds.andThen storage_recovers
            intro calls₃ _ hasks
            have hgrown := hlisting.grow hasks
            have hleaves : leaves.length = geometry.leaves := by
              rw [hcount]
              simp only [RootManifest.geometry, Except.bind_eq_ok, ensure_eq_ok,
                beq_iff_eq] at hgeometry
              obtain ⟨other, _, _, hentries, hsame⟩ := hgeometry
              cases hsame
              exact hentries
            have hbuilding : Building root manifest geometry calls₃ leaves 0 [] [] := by
              refine ⟨hgrown.gathered, ⟨fun i record part hi => ?_⟩, rfl, rfl, ?_⟩
              · cases hi
              · intro txid hentry _
                apply hgrown.fresh
                rw [hcount, List.take_length]
                exact hentry
            have hlisted := hgrown.gathered.listed_length hgeometry hleaves
            rw [hgrown.file]
            apply Holds.andThen (reconstructParts_recovers hdecode hgeometry hbuilding hlisted)
            rintro calls₄ payload ⟨hlength, hhash, parts, hparts, hbuilt⟩
            exact ⟨geometry, leaves, parts, hdecode, hgeometry, rfl, rfl, hleaves, hbuilt.gathered,
              hparts, hbuilt.assembled, hbuilt.payload, hlength, hhash⟩
        · intro data items manifest' geometry' hexpected _
          cases hdecode.symm.trans hexpected.decode
          rw [hexpected.geometry_eq] at herror
          cases herror
  · intro data items manifest geometry hexpected _
    rw [hexpected.decode] at herror
    cases herror

end Urma.Runtime.Reconstruct
