import Urma.Core.MultipartCodec
import Urma.Core.ScriptSize
import Urma.Runtime.PrepareExact
import Urma.Runtime.Quote

/-!
# The records a quote stands for

The records of a payload are as long as the samples of its quote. The scripts are too, but for the
last data part, whose script may be one byte shorter. So a quote is the sum of what its samples
cost with one input each.
-/

namespace Urma.Runtime

open Chain Lib Lib.Layout

/-! ## Lengths -/

namespace Quote

/-- The length of the data part at an index. -/
def partSize (geometry : Geometry) (index : ℕ) : ℕ :=
  min (geometry.length - index * Geometry.dataBytes) Geometry.dataBytes

/-- The number of references of a leaf. -/
def leafSize (geometry : Geometry) (leaf : ℕ) : ℕ :=
  min (geometry.parts - leaf * Geometry.fanout) Geometry.fanout

/-- The length of a record by its index. -/
def recordLength (geometry : Geometry) (index : ℕ) : ℕ :=
  if index < geometry.parts then 12 + partSize geometry index
  else if index - geometry.parts < geometry.leaves then
    16 + 64 * leafSize geometry (index - geometry.parts)
  else 64 + 64 * geometry.leaves

/-- A record at an index: as long as it is quoted, and with a script of full size unless it is the
last data part. -/
structure IsAt (geometry : Geometry) (index : ℕ) (record : Bytes) : Prop where
  length : record.length = recordLength geometry index
  saved : index + 1 ≠ geometry.parts → Envelope.saved record = 0

end Quote

open Quote

variable {geometry : Geometry} {record bytes : Bytes}

theorem encode_data_length {index : ℕ} {payload : Bytes}
    (h : (MultipartRecord.data ⟨index, payload⟩).encode = .ok bytes) :
    bytes.length = 12 + payload.length := by
  obtain ⟨_, rfl⟩ := MultipartRecord.encode_data_eq_ok.mp h
  simp only [List.length_append, RecordKind.prefixOf_length, Format.prefixBytes, toLe_length]
  omega

theorem encode_leaf_length {manifest : LeafManifest}
    (h : (MultipartRecord.leaf manifest).encode = .ok bytes) :
    bytes.length = 16 + 64 * manifest.entries.length := by
  obtain ⟨_, rfl⟩ := MultipartRecord.encode_leaf_eq_ok.mp h
  simp only [List.length_append, RecordKind.prefixOf_length, Format.prefixBytes, toLe_length,
    encodeReferences_length]
  omega

theorem encode_root_length {manifest : RootManifest}
    (h : (MultipartRecord.root manifest).encode = .ok bytes) :
    bytes.length = 64 + 64 * manifest.entries.length := by
  obtain ⟨_, _, _, rfl⟩ := MultipartRecord.encode_root_eq_ok.mp h
  simp only [List.length_append, RecordKind.prefixOf_length, Format.prefixBytes, toLe_length,
    encodeReferences_length, Vector.length_toList, List.length_cons, List.length_nil]
  omega

/-- A manifest has an even number of bytes, so no single byte remains of it. -/
theorem saved_manifest {count : ℕ} (h : record.length = 16 + 64 * count) :
    Envelope.saved record = 0 := by
  apply Envelope.saved_of_length
  omega

/-! ## Parts of a payload -/

/-- Every part but the last is full. -/
theorem partSize_full {length : ℕ} (h : Geometry.new length = .ok geometry) {index : ℕ}
    (hindex : index + 1 < geometry.parts) : partSize geometry index = Geometry.dataBytes := by
  obtain ⟨_, rfl⟩ := Geometry.new_eq_ok.mp h
  simp only [partSize, Geometry.dataBytes] at hindex ⊢
  omega

/-- The part at an index, of the payload or of the sample. -/
theorem isAt_data {length index position : ℕ} (h : Geometry.new length = .ok geometry)
    (hindex : index < geometry.parts) {payload : Bytes}
    (hlength : payload.length = partSize geometry index)
    (hencode : (MultipartRecord.data ⟨position, payload⟩).encode = .ok bytes) :
    IsAt geometry index bytes := by
  have hbytes := encode_data_length hencode
  refine ⟨?_, ?_⟩
  · rw [recordLength, if_pos hindex, hbytes, hlength]
  · intro hlast
    apply Envelope.saved_of_length
    rw [hbytes, hlength, partSize_full h (by omega), Geometry.dataBytes]
    decide

theorem isAt_leaf {leaf : ℕ} (hleaf : leaf < geometry.leaves) {manifest : LeafManifest}
    (hcount : manifest.entries.length = leafSize geometry leaf)
    (hencode : (MultipartRecord.leaf manifest).encode = .ok bytes) :
    IsAt geometry (geometry.parts + leaf) bytes := by
  have hbytes := encode_leaf_length hencode
  refine ⟨?_, fun _ => saved_manifest hbytes⟩
  rw [recordLength, if_neg (by omega), Nat.add_sub_cancel_left, if_pos hleaf, hbytes, hcount]

theorem isAt_root {manifest : RootManifest} (hcount : manifest.entries.length = geometry.leaves)
    (hencode : (MultipartRecord.root manifest).encode = .ok bytes) :
    IsAt geometry (geometry.parts + geometry.leaves) bytes := by
  have hbytes := encode_root_length hencode
  refine ⟨?_, fun _ => ?_⟩
  · rw [recordLength, if_neg (by omega), Nat.add_sub_cancel_left, if_neg (Nat.lt_irrefl _), hbytes,
      hcount]
  · apply Envelope.saved_of_length
    omega

/-! ## Samples -/

namespace Quote

@[simp] theorem references_length (count : ℕ) : (references count).length = count := by
  rw [references, List.length_map, List.length_range]

/-- A sample part ends with a zero byte, which no opcode stands for. -/
theorem saved_zeros {length : ℕ}
    (h : (MultipartRecord.data ⟨0, List.replicate length 0⟩).encode = .ok bytes) :
    Envelope.saved bytes = 0 := by
  have hlength := encode_data_length h
  rw [List.length_replicate] at hlength
  by_cases hone : bytes.length % 520 = 1
  · have hremainder : Envelope.remainder bytes = [0] := by
      obtain ⟨_, rfl⟩ := MultipartRecord.encode_data_eq_ok.mp h
      rw [Envelope.remainder, hlength, ← List.append_assoc,
        show (12 + length) / 520 * 520 = 12 + (length - 1) by omega, ← List.drop_drop,
        List.drop_left' (by
          rw [List.length_append, RecordKind.prefixOf_length, toLe_length]
          rfl), List.drop_replicate, show length - (length - 1) = 1 by omega]
      rfl
    rw [Envelope.saved, hremainder]
    rfl
  · exact Envelope.saved_of_length hone

/-- **The sample of a record** is as long as the record, and has a script of full size. -/
theorem sample_isAt {index : ℕ} (hindex : index < geometry.nodes) {sampled : MultipartRecord}
    (hsample : sample geometry index = .ok sampled) (hencode : sampled.encode = .ok bytes) :
    IsAt geometry index bytes ∧ Envelope.saved bytes = 0 := by
  rw [sample] at hsample
  split at hsample
  · next hpart =>
      simp only [Geometry.partLength, Except.bind_eq_ok, ensure_eq_ok, Except.ok.injEq] at hsample
      obtain ⟨_, ⟨_, _, rfl⟩, rfl⟩ := hsample
      have hsaved := saved_zeros hencode
      refine ⟨⟨?_, fun _ => hsaved⟩, hsaved⟩
      rw [recordLength, if_pos hpart, encode_data_length hencode, List.length_replicate, partSize]
  · next hpart =>
      split at hsample
      · next hleaf =>
          simp only [Geometry.leafEntries, Except.bind_eq_ok, ensure_eq_ok, tryU16_eq_ok,
            Except.ok.injEq] at hsample
          obtain ⟨_, ⟨_, rfl⟩, _, ⟨_, _, _, rfl⟩, rfl⟩ := hsample
          have hat := isAt_leaf hleaf (by rw [references_length, leafSize]) hencode
          rw [show geometry.parts + (index - geometry.parts) = index by omega] at hat
          exact ⟨hat, hat.saved (by omega)⟩
      · next hleaf =>
          cases hsample
          have hat := isAt_root (references_length _) hencode
          rw [Geometry.nodes] at hindex
          rw [show geometry.parts + geometry.leaves = index by omega] at hat
          exact ⟨hat, hat.saved (by omega)⟩

/-! ## The sum -/

/-- What a record is quoted at. -/
def price (geometry : Geometry) (rate index : ℕ) : ℕ :=
  pairFee 1 (Envelope.scriptSize (recordLength geometry index)) rate

variable {crates : PrepareCrates} {author : XOnlyPublicKey} {script : Bytes} {rate fee : ℕ}

theorem quoteRecord_eq_ok (h : crates.Lawful) (hkey : crates.reveal.script.IsKey author)
    (hok : quoteRecord crates record author script rate = .ok fee) :
    (1 ≤ rate ∧ rate ≤ 100) ∧
      fee = pairFee 1 (Envelope.recordScript crates.reveal.script record author).length rate := by
  simp only [quoteRecord, Except.bind_eq_ok, ensureService_eq_ok, contextService_eq_ok,
    Bool.and_eq_true, decide_eq_true_eq, checkedAdd_eq_some, checkedMul_eq_some] at hok
  obtain ⟨_, hrate, _, hscript, draft, hdraft, _, ⟨_, rfl⟩, _, rfl⟩ := hok
  have hlength : (⟨1000, script⟩ : TxOut).scriptPubkey.length = 22 := h.p2wpkh_length _ hscript
  obtain ⟨control, hdraftOf⟩ := draft_eq_ok h hkey hlength hdraft
  refine ⟨hrate, ?_⟩
  rw [signedVsize_commitOf h (List.cons_ne_nil _ _) (by decide)
    (hdraftOf.newP2trTweaked_length h) hlength, hdraftOf.vsize_reveal h hlength, hdraftOf.script,
    pairFee, Nat.add_mul]
  rfl

/-- Every fee that is cached is the price of a sample of its length. -/
def Priced (rate : ℕ) (fees : List (ℕ × ℕ)) : Prop :=
  ∀ length fee, fees.lookup length = some fee → fee = pairFee 1 (Envelope.scriptSize length) rate

theorem cached_eq_ok (h : crates.Lawful) (hkey : crates.reveal.script.IsKey author)
    {fees next : List (ℕ × ℕ)} (hfees : Priced rate fees)
    (hsaved : Envelope.saved record = 0)
    (hok : cached crates author script rate fees record = .ok (fee, next)) :
    fee = pairFee 1 (Envelope.scriptSize record.length) rate ∧ Priced rate next := by
  rw [cached] at hok
  split at hok
  · next found hfound =>
      cases hok
      exact ⟨hfees _ _ hfound, hfees⟩
  · simp only [Except.bind_eq_ok] at hok
    obtain ⟨quoted, hquoted, hnext⟩ := hok
    cases hnext
    have hsize := Envelope.recordScript_size h.builder record author
    rw [hsaved, Nat.add_zero] at hsize
    have hfee := (quoteRecord_eq_ok h hkey hquoted).2
    rw [hsize] at hfee
    refine ⟨hfee, ?_⟩
    intro length other hlookup
    rw [List.lookup_cons] at hlookup
    split at hlookup
    · next hsame =>
        cases hlookup
        rw [hfee, ← beq_iff_eq.mp hsame]
    · exact hfees _ _ hlookup

/-- The loop sums up the prices of its samples. -/
theorem total_eq_ok (h : crates.Lawful) (hkey : crates.reveal.script.IsKey author)
    {indices : List ℕ}
    (hindices : ∀ index ∈ indices, index < geometry.nodes) {fees : List (ℕ × ℕ)}
    (hfees : Priced rate fees) {sum result : ℕ}
    (hok : total crates geometry author script rate indices fees sum = .ok result) :
    result = sum + (indices.map (price geometry rate)).sum := by
  induction indices generalizing fees sum with
  | nil =>
      cases hok
      rfl
  | cons index rest ih =>
      simp only [total, Except.bind_eq_ok, PlanCrates.protocol_eq_ok, contextService_eq_ok,
        checkedAdd_eq_some] at hok
      obtain ⟨sampled, hsample, record, hencode, ⟨fee, next⟩, hcached, _, ⟨_, rfl⟩, hrest⟩ := hok
      obtain ⟨hat, hsaved⟩ := sample_isAt (hindices index List.mem_cons_self) hsample
        hencode
      obtain ⟨hfee, hnext⟩ := cached_eq_ok h hkey hfees hsaved hcached
      have hprice : fee = price geometry rate index := by rw [hfee, hat.length, price]
      rw [ih (fun other hmem => hindices other (List.mem_cons_of_mem _ hmem)) hnext hrest, hprice,
        List.map_cons, List.sum_cons, Nat.add_assoc]

/-- **A quote is the sum of the prices** of its samples. -/
theorem multipart_eq_ok (h : crates.Lawful) (hkey : crates.reveal.script.IsKey author) {length : ℕ}
    {funder : Account crates.PrivateKey} {quote : Quote}
    (hok : multipart crates length author funder rate = .ok quote) :
    ∃ geometry, Geometry.new length = .ok geometry ∧
      quote.maximumFee = ((List.range geometry.nodes).map (price geometry rate)).sum := by
  simp only [multipart, Except.bind_eq_ok, PlanCrates.protocol_eq_ok] at hok
  obtain ⟨geometry, hgeometry, script, _, result, htotal, funding, _, hquote⟩ := hok
  cases hquote
  have hsum := total_eq_ok h hkey (fun index hmem => List.mem_range.mp hmem)
    (fun _ _ hlookup => by cases hlookup) htotal
  exact ⟨geometry, hgeometry, by rw [hsum, Nat.zero_add]⟩

end Quote

end Urma.Runtime
