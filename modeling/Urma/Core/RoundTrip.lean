import Urma.Core.Recovery
import Urma.Core.Sealing

/-!
# The sealed container round trip

The records of a sealed plaintext hold its chunks, one each. So any list in which each of them
occurs assembles to the plaintext, whichever way it is reassembled, and a list in which one does
not occur is never complete.
-/

namespace Urma.Container

open Std Lib.Layout Lib.Assembly Format

variable {crypto : Crypto} {root : Bytes32} {plaintext : Bytes} {contentType : ContentType}
  {sealing : Sealing} {records : List Bytes}

/-! ## The chunks of the records -/

/-- Every record of a sealed plaintext authenticates, as the chunk at its position. -/
theorem Sealed.authenticated (hlawful : crypto.Lawful)
    (h : Sealed crypto root plaintext contentType sealing records) {i : ℕ} {record : Bytes}
    (hrecord : records[i]? = some record) :
    authenticatedChunk crypto root record =
      some (sealing.chunk crypto i (chunkAt plaintext i) record) := by
  have hi : i < sealing.count := by
    have hbound := (List.getElem?_eq_some_iff.mp hrecord).1
    rw [h.length] at hbound
    exact hbound
  have hlength : (chunkAt plaintext i).length =
      min (sealing.total - i * chunkBytes) chunkBytes := by
    rw [chunkAt_length, h.total]
  exact authenticatedChunk_eq_some.mpr
    (Sealing.openRecord_record hlawful h.sound hi hlength (h.seals i record hrecord))

/-- A chunk authenticated from some of the records is the chunk of one of them. -/
theorem Sealed.chunk_of_mem (hlawful : crypto.Lawful)
    (h : Sealed crypto root plaintext contentType sealing records) {arranged : List Bytes}
    (hsub : ∀ record ∈ arranged, record ∈ records) {chunk : PrivateChunk}
    (hchunk : chunk ∈ authenticatedChunks crypto root arranged) :
    ∃ i record, record ∈ arranged ∧ records[i]? = some record ∧
      chunk = sealing.chunk crypto i (chunkAt plaintext i) record := by
  obtain ⟨record, hmem, hauthenticated⟩ := mem_authenticatedChunks.mp hchunk
  obtain ⟨i, hi⟩ := List.mem_iff_getElem?.mp (hsub record hmem)
  rw [h.authenticated hlawful hi] at hauthenticated
  exact ⟨i, record, hmem, hi, (Option.some.inj hauthenticated).symm⟩

/-- No two chunks of the records claim one place, so they are coherent. -/
theorem Sealed.coherent (hlawful : crypto.Lawful)
    (h : Sealed crypto root plaintext contentType sealing records) {arranged : List Bytes}
    (hsub : ∀ record ∈ arranged, record ∈ records) :
    objectScheme.Coherent (authenticatedChunks crypto root arranged) := by
  constructor
  · intro a ha b hb
    obtain ⟨i, record, _, _, rfl⟩ := h.chunk_of_mem hlawful hsub ha
    obtain ⟨j, other, _, _, rfl⟩ := h.chunk_of_mem hlawful hsub hb
    rfl
  · intro a ha b hb hplace
    obtain ⟨i, record, _, hi, rfl⟩ := h.chunk_of_mem hlawful hsub ha
    obtain ⟨j, other, _, hj, rfl⟩ := h.chunk_of_mem hlawful hsub hb
    have hsame : i = j := hplace
    rw [← hsame, hi] at hj
    rw [← hsame, Option.some.inj hj]

theorem Sealed.discerning (hlawful : crypto.Lawful)
    (h : Sealed crypto root plaintext contentType sealing records) {arranged : List Bytes}
    (hsub : ∀ record ∈ arranged, record ∈ records) :
    objectScheme.Discerning (authenticatedChunks crypto root arranged) where
  refl a _ := beq_self_eq_true a.recordDigest
  eq a ha b hb hplace _ := (h.coherent hlawful hsub).place a ha b hb hplace

/-! ## All the records -/

/-- The chunks of a plaintext put together are the plaintext. -/
theorem flatMap_chunkAt (plaintext : Bytes) :
    (List.range ((plaintext.length + chunkBytes - 1) / chunkBytes)).flatMap
      (chunkAt plaintext) = plaintext := by
  have hchunks : (chunks chunkBytes plaintext).flatten = plaintext :=
    chunks_flatten (by decide) plaintext
  rw [chunks, blocks_eq_map] at hchunks
  rw [List.flatMap_def]
  exact hchunks

/-- **A list with all the records assembles to the plaintext.** -/
theorem Sealed.assembles (hlawful : crypto.Lawful)
    (h : Sealed crypto root plaintext contentType sealing records) {arranged : List Bytes}
    (hset : ∀ record, record ∈ arranged ↔ record ∈ records) :
    ∃ whole, objectScheme.assemble (authenticatedChunks crypto root arranged) = some whole ∧
      whole.header = ⟨sealing.id, sealing.count, sealing.total, sealing.digest,
        sealing.contentType⟩ ∧
      (PrivateObject.ofWhole whole).finish crypto = .ok plaintext := by
  have hsub : ∀ record ∈ arranged, record ∈ records := fun record => (hset record).mp
  have hcount := chunkCount_bounds h.sound.counted
  have hceil := (chunkCount_eq_ok.mp h.sound.counted).2.2
  -- the chunk at each position is among those that authenticate
  have hpresent : ∀ i < sealing.count, ∃ record,
      sealing.chunk crypto i (chunkAt plaintext i) record ∈
        authenticatedChunks crypto root arranged := by
    intro i hi
    have hbound : i < records.length := by rw [h.length]; exact hi
    have hrecord : records[i]? = some records[i] := List.getElem?_eq_getElem hbound
    refine ⟨records[i], mem_authenticatedChunks.mpr ⟨records[i], ?_, ?_⟩⟩
    · exact (hset _).mpr (List.getElem_mem hbound)
    · exact h.authenticated hlawful hrecord
  obtain ⟨first, hfirst⟩ := hpresent 0 hcount.1
  have hne : authenticatedChunks crypto root arranged ≠ [] := List.ne_nil_of_mem hfirst
  have hdiscerning := h.discerning hlawful hsub
  obtain ⟨whole, hwhole⟩ := Scheme.exists_assemble hne (h.coherent hlawful hsub) hdiscerning
  have hgathered := Scheme.assemble_gathered hdiscerning hwhole
  have hheader : whole.header = ⟨sealing.id, sealing.count, sealing.total, sealing.digest,
      sealing.contentType⟩ := hgathered.header _ hfirst
  have hsize : whole.parts.size = sealing.count := by
    have hkeys : ∀ k, k ∈ whole.parts ↔ k ∈ List.range sealing.count := by
      intro k
      rw [List.mem_range, ExtTreeMap.mem_iff_isSome_getElem?, Option.isSome_iff_exists]
      constructor
      · rintro ⟨chunk, hheld⟩
        obtain ⟨hmem, rfl⟩ := (hgathered.parts k chunk).mp hheld
        obtain ⟨i, record, _, hi, rfl⟩ := h.chunk_of_mem hlawful hsub hmem
        have hbound := (List.getElem?_eq_some_iff.mp hi).1
        rw [h.length] at hbound
        exact hbound
      · intro hk
        obtain ⟨record, hmem⟩ := hpresent k hk
        exact ⟨_, (hgathered.parts k _).mpr ⟨hmem, rfl⟩⟩
    rw [size_eq_length List.nodup_range hkeys, List.length_range]
  have hcollect : (PrivateObject.ofWhole whole).collect = .ok plaintext := by
    have hpieces : ∀ i < (PrivateObject.ofWhole whole).count, ∃ chunk : PrivateChunk,
        (PrivateObject.ofWhole whole).chunks[i]? = some chunk ∧
          chunk.bytes = chunkAt plaintext i := by
      intro i hi
      have hi : i < sealing.count := by
        rw [PrivateObject.ofWhole, hheader] at hi
        exact hi
      obtain ⟨record, hmem⟩ := hpresent i hi
      exact ⟨_, (hgathered.parts i _).mpr ⟨hmem, rfl⟩, rfl⟩
    have hcollected := PrivateObject.collect_eq hpieces
    have hcountEq : (PrivateObject.ofWhole whole).count =
        (plaintext.length + chunkBytes - 1) / chunkBytes := by
      rw [PrivateObject.ofWhole, hheader, hceil, h.total]
    rw [hcountEq, flatMap_chunkAt] at hcollected
    exact hcollected
  refine ⟨whole, hwhole, hheader, PrivateObject.finish_eq_ok.mpr ⟨⟨?_, ?_⟩, hcollect, ?_, ?_⟩⟩
  · rw [hsize]; exact hcount.2
  · rw [hsize, hheader]
  · rw [hheader, h.total]
  · rw [hheader, h.digest]

/-! ## One record missing -/

/-- **A list without one of the records never finishes.** -/
theorem Sealed.incomplete (hlawful : crypto.Lawful)
    (h : Sealed crypto root plaintext contentType sealing records) {arranged : List Bytes}
    (hsub : ∀ record ∈ arranged, record ∈ records) {missing : Bytes} (hmissing : missing ∈ records)
    (habsent : missing ∉ arranged) {whole : Whole PrivateChunk ObjectHeader ℕ}
    (hwhole : objectScheme.assemble (authenticatedChunks crypto root arranged) = some whole)
    (bytes : Bytes) : (PrivateObject.ofWhole whole).finish crypto ≠ .ok bytes := by
  intro hfinish
  have hdiscerning := h.discerning hlawful hsub
  obtain ⟨hne, hgathered⟩ := (Scheme.assemble_eq_some hdiscerning).mp hwhole
  obtain ⟨first, hfirst⟩ := List.exists_mem_of_ne_nil _ hne
  obtain ⟨_, hcollect, _, _⟩ := PrivateObject.finish_eq_ok.mp hfinish
  -- the position of the missing record is below the count of the object
  obtain ⟨i, hi⟩ := List.mem_iff_getElem?.mp hmissing
  have hbound : i < (PrivateObject.ofWhole whole).count := by
    obtain ⟨j, record, _, _, rfl⟩ := h.chunk_of_mem hlawful hsub hfirst
    have hcount : (PrivateObject.ofWhole whole).count = sealing.count :=
      congrArg ObjectHeader.count (hgathered.header _ hfirst)
    rw [hcount, ← h.length]
    exact (List.getElem?_eq_some_iff.mp hi).1
  obtain ⟨chunk, hheld⟩ := PrivateObject.collect_present hcollect i hbound
  obtain ⟨hmem, hplace⟩ := (hgathered.parts i chunk).mp hheld
  obtain ⟨j, record, harranged, hj, rfl⟩ := h.chunk_of_mem hlawful hsub hmem
  have hsame : j = i := hplace
  rw [hsame, hi] at hj
  rw [← Option.some.inj hj] at harranged
  exact habsent harranged

/-! ## The round trip -/

/-- The records of a sealed plaintext are of one object, and of the one length there is. -/
theorem Sealed.framable (hlawful : crypto.Lawful)
    (h : Sealed crypto root plaintext contentType sealing records) {arranged : List Bytes}
    (hsub : ∀ record ∈ arranged, record ∈ records) (hpositive : 0 < arranged.length)
    (hcount : arranged.length ≤ u32Max) :
    Framable arranged ∧ OneObject sealing.id arranged := by
  have hheader : ∀ record ∈ arranged, ∃ header, inspectHeader record = .ok header ∧
      header.id = sealing.id := by
    intro record hmem
    obtain ⟨i, hi⟩ := List.mem_iff_getElem?.mp (hsub record hmem)
    have hbound : i < sealing.count := by
      rw [← h.length]
      exact (List.getElem?_eq_some_iff.mp hi).1
    have hlength : (chunkAt plaintext i).length ≤ chunkBytes := by
      rw [chunkAt_length]
      omega
    exact ⟨_, (h.seals i record hi).inspectHeader hlawful h.sound hbound hlength, rfl⟩
  refine ⟨⟨hpositive, hcount, ?_⟩, ⟨hheader⟩⟩
  intro record hmem
  obtain ⟨header, hheader, _⟩ := hheader record hmem
  exact (inspectHeader_bounds hheader).1

/-- **Sealing and opening.** However the records of a sealed plaintext are arranged and repeated,
`open` gives the plaintext back, and so does the recovery from their container, which `pack`
writes whenever they are few enough to be counted; with all copies of one record taken away both
fail. -/
theorem seal_round_trip {R : Type} (crypto : Crypto) (hlawful : crypto.Lawful) (root : Bytes32)
    (plaintext : Bytes) (contentType : ContentType) (source : Rng R) (rng rng' : R)
    (records : List Bytes)
    (hseal : sealRecords crypto root plaintext contentType source rng = .ok (records, rng')) :
    records.length ≤ u32Max ∧
    (∀ arranged : List Bytes, (∀ record, record ∈ arranged ↔ record ∈ records) →
      openRecords crypto root arranged = .ok plaintext ∧
      (arranged.length ≤ u32Max → ∃ container, pack arranged = .ok container ∧
        ∃ report, recoverContainer crypto root container = .ok report ∧
          report.bytes = plaintext ∧ report.contentType = contentType)) ∧
    (∀ (arranged : List Bytes) (missing : Bytes), (∀ record ∈ arranged, record ∈ records) →
      missing ∈ records → missing ∉ arranged →
      (∀ bytes, openRecords crypto root arranged ≠ .ok bytes) ∧
      (∀ container report, pack arranged = .ok container →
        recoverContainer crypto root container ≠ .ok report)) := by
  obtain ⟨sealing, hsealed⟩ := sealRecords_sealed hseal
  have hcount := chunkCount_bounds hsealed.sound.counted
  refine ⟨?_, ?_, ?_⟩
  · rw [hsealed.length]
    exact hcount.2
  · intro arranged hset
    have hsub : ∀ record ∈ arranged, record ∈ records := fun record => (hset record).mp
    obtain ⟨whole, hwhole, hheader, hfinish⟩ := hsealed.assembles hlawful hset
    constructor
    · apply openRecords_eq_ok.mpr
      refine ⟨?_, whole, hwhole, hfinish⟩
      intro record hmem
      obtain ⟨i, hi⟩ := List.mem_iff_getElem?.mp (hsub record hmem)
      exact ⟨_, hsealed.authenticated hlawful hi⟩
    · intro hlength
      have hpositive : 0 < arranged.length := by
        have hrecords : 0 < records.length := by rw [hsealed.length]; exact hcount.1
        exact List.length_pos_of_mem ((hset _).mpr (List.getElem_mem hrecords))
      obtain ⟨hframable, hone⟩ := hsealed.framable hlawful hsub hpositive hlength
      refine ⟨frame arranged, pack_eq_ok.mpr ⟨hframable, ⟨_, hone⟩, rfl⟩, ?_⟩
      refine ⟨_, (recoverContainer_frame hlawful hframable).mpr
        ⟨whole, hwhole, plaintext, hfinish, rfl⟩, rfl, ?_⟩
      rw [recoveryOf, hheader]
      exact hsealed.contentType
  · intro arranged missing hsub hmissing habsent
    constructor
    · intro bytes hopen
      obtain ⟨_, whole, hwhole, hfinish⟩ := openRecords_eq_ok.mp hopen
      exact hsealed.incomplete hlawful hsub hmissing habsent hwhole bytes hfinish
    · intro container report hpack hrecover
      obtain ⟨hframable, _, rfl⟩ := pack_eq_ok.mp hpack
      obtain ⟨whole, hwhole, bytes, hfinish, _⟩ :=
        (recoverContainer_frame hlawful hframable).mp hrecover
      exact hsealed.incomplete hlawful hsub hmissing habsent hwhole bytes hfinish

/-! Files sealed with the standard primitives. -/

namespace Sample

def rootKey : Bytes32 := Vector.replicate 32 9

/-- A random source that delivers zeros. -/
def zeros : Rng Unit := ⟨fun _ n => .ok (Vector.replicate n 0, ())⟩

/-- The records of a sealing, if it succeeded. -/
def recordsOf : Except Error (List Bytes × Unit) → List Bytes
  | .ok (records, _) => records
  | .error _ => []

def sealedRecords (plaintext : Bytes) : List Bytes :=
  recordsOf (sealRecords Crypto.standard rootKey plaintext .text zeros ())

theorem sealedRecords_eq {plaintext : Bytes} (hpositive : 1 ≤ plaintext.length)
    (hlength : plaintext.length ≤ maxPrivateBytes) :
    sealRecords Crypto.standard rootKey plaintext .text zeros () =
      .ok (sealedRecords plaintext, ()) := by
  have hsource : ∀ rng n, ∃ output, zeros.tryFillBytes rng n = .ok output := fun _ n => ⟨_, rfl⟩
  have hseal : ∃ output, sealRecords Crypto.standard rootKey plaintext .text zeros () =
      .ok output := exists_sealRecords Crypto.standard_lawful hsource hpositive hlength .text ()
  obtain ⟨⟨records, rng⟩, hseal⟩ := hseal
  rw [sealedRecords, hseal]
  rfl

/-- A file of two chunks. -/
def file : Bytes := List.replicate 40000 167

theorem file_length : file.length = 40000 := List.length_replicate

/-- A file of four bytes. -/
def note : Bytes := [102, 111, 117, 114]

end Sample

theorem seal_round_trip_file :
    openRecords Crypto.standard Sample.rootKey ((Sample.sealedRecords Sample.file).reverse ++
      Sample.sealedRecords Sample.file) = .ok Sample.file ∧
    ∃ container, pack (Sample.sealedRecords Sample.file) = .ok container ∧
      ∃ report, recoverContainer Crypto.standard Sample.rootKey container = .ok report ∧
        report.bytes = Sample.file ∧ report.contentType = .text := by
  have hlength := Sample.file_length
  have hmax : maxPrivateBytes = 140737488322560 := rfl
  obtain ⟨hcount, harranged, _⟩ := seal_round_trip Crypto.standard Crypto.standard_lawful
    Sample.rootKey Sample.file .text Sample.zeros () () (Sample.sealedRecords Sample.file)
    (Sample.sealedRecords_eq (by omega) (by omega))
  constructor
  · apply (harranged _ ?_).1
    intro record
    rw [List.mem_append, List.mem_reverse, or_self]
  · exact (harranged _ (fun _ => Iff.rfl)).2 hcount

end Urma.Container
