import Urma.Core.RoundTrip

/-!
# Recovery does not depend on the order

Two containers with the same authenticated records recover the same object, or neither recovers
one: the order of the records, their repetition, and whatever else fills the other slots change
the counters at most. The records are told apart by their digests, so the hash must not collide on
the ones that authenticate.
-/

namespace Urma.Container

open Std Lib.Layout Lib.Assembly Format

variable {crypto : Crypto} {root : Bytes32} {records others : List Bytes}

/-- The hash does not collide on the records that authenticate. -/
def Distinguished (crypto : Crypto) (root : Bytes32) (records : List Bytes) : Prop :=
  ∀ a ∈ records, ∀ b ∈ records, (authenticatedChunk crypto root a).isSome →
    (authenticatedChunk crypto root b).isSome → crypto.sha256 a = crypto.sha256 b → a = b

/-- Two records authenticate but describe different objects, or are different records of one
chunk. -/
def Conflicting (crypto : Crypto) (root : Bytes32) (a b : Bytes) : Prop :=
  ∃ x y, authenticatedChunk crypto root a = some x ∧ authenticatedChunk crypto root b = some y ∧
    (x.header ≠ y.header ∨ (x.index = y.index ∧ a ≠ b))

/-- What a recovery returns, its counters left out: the object and its bytes, or nothing. -/
def recovered (result : Except Error ContainerRecovery) : Option (ObjectHeader × Bytes) :=
  match result with
  | .ok report =>
      some (⟨report.id, report.count, report.total, report.digest, report.contentType⟩,
        report.bytes)
  | .error _ => none

/-! ## Telling records apart -/

/-- An opened chunk carries the digest of its record. -/
theorem authenticatedChunk_recordDigest {record : Bytes} {chunk : PrivateChunk}
    (h : authenticatedChunk crypto root record = some chunk) :
    chunk.recordDigest = crypto.sha256 record := by
  have hopen := authenticatedChunk_eq_some.mp h
  rw [openRecord] at hopen
  split at hopen
  · obtain ⟨kind, _, hopen⟩ := Except.bind_eq_ok.mp hopen
    split at hopen
    · obtain ⟨header, _, hopen⟩ := Except.bind_eq_ok.mp hopen
      obtain ⟨tag, _, hopen⟩ := Except.bind_eq_ok.mp hopen
      split at hopen
      · simp only [openBody, Except.bind_eq_ok] at hopen
        obtain ⟨_, _, _, _, _, _, _, _, _, _, _, _, _, _, _, _, _, _, _, _, hchunk⟩ := hopen
        cases hchunk
        rfl
      · cases hopen
    · cases hopen
  · cases hopen

theorem Distinguished.discerning (h : Distinguished crypto root records) :
    objectScheme.Discerning (authenticatedChunks crypto root records) := by
  constructor
  · intro a _
    exact beq_self_eq_true a.recordDigest
  · intro a ha b hb _ hagrees
    obtain ⟨record, hrecord, hauth⟩ := mem_authenticatedChunks.mp ha
    obtain ⟨other, hother, hauth'⟩ := mem_authenticatedChunks.mp hb
    have hdigest : a.recordDigest = b.recordDigest := beq_iff_eq.mp hagrees
    rw [authenticatedChunk_recordDigest hauth, authenticatedChunk_recordDigest hauth'] at hdigest
    have hsame := h record hrecord other hother (by rw [hauth]; rfl) (by rw [hauth']; rfl) hdigest
    rw [hsame, hauth'] at hauth
    exact (Option.some.inj hauth).symm

/-- Records that conflict do not assemble. -/
theorem Conflicting.not_coherent (hdistinguished : Distinguished crypto root records)
    {a b : Bytes} (ha : a ∈ records) (hb : b ∈ records) (h : Conflicting crypto root a b) :
    ¬ objectScheme.Coherent (authenticatedChunks crypto root records) := by
  intro hcoherent
  obtain ⟨x, y, hx, hy, hconflict⟩ := h
  have hxmem := mem_authenticatedChunks.mpr ⟨a, ha, hx⟩
  have hymem := mem_authenticatedChunks.mpr ⟨b, hb, hy⟩
  rcases hconflict with hheader | ⟨hindex, hne⟩
  · exact hheader (hcoherent.header x hxmem y hymem)
  · have hsame : x = y := hcoherent.place x hxmem y hymem hindex
    have hdigest : crypto.sha256 a = crypto.sha256 b := by
      rw [← authenticatedChunk_recordDigest hx, ← authenticatedChunk_recordDigest hy, hsame]
    exact hne (hdistinguished a ha b hb (by rw [hx]; rfl) (by rw [hy]; rfl) hdigest)

/-! ## The counters -/

/-- A slot that does not authenticate is either skipped or rejected. -/
theorem counters_add (crypto : Crypto) (root : Bytes32) (records : List Bytes) :
    records.countP (isUnrelated crypto root) + records.countP (isRejected crypto root) =
      records.countP (fun record => (authenticatedChunk crypto root record).isNone) := by
  induction records with
  | nil => rfl
  | cons record records ih =>
      rw [List.countP_cons, List.countP_cons, List.countP_cons, ← ih]
      have hone : (if isUnrelated crypto root record then 1 else 0) +
          (if isRejected crypto root record then 1 else 0) =
          if (authenticatedChunk crypto root record).isNone then 1 else 0 := by
        rw [isUnrelated, isRejected, authenticatedChunk]
        cases openRecord crypto root record with
        | error _ => rfl
        | ok found =>
            cases found with
            | unrelated => rfl
            | authenticated _ => rfl
      omega

/-! ## The recovery -/

/-- The object a container recovers, from the assembly of its authenticated chunks. -/
theorem recovered_frame (hlawful : crypto.Lawful) (hframable : Framable records) :
    recovered (recoverContainer crypto root (frame records)) =
      (objectScheme.assemble (authenticatedChunks crypto root records)).bind fun whole =>
        ((PrivateObject.ofWhole whole).finish crypto).toOption.map (whole.header, ·) := by
  cases hresult : recoverContainer crypto root (frame records) with
  | ok report =>
      obtain ⟨whole, hwhole, bytes, hfinish, rfl⟩ :=
        (recoverContainer_frame hlawful hframable).mp hresult
      rw [hwhole, Option.bind_some, hfinish]
      rfl
  | error error =>
      cases hwhole : objectScheme.assemble (authenticatedChunks crypto root records) with
      | none => rfl
      | some whole =>
          rw [Option.bind_some]
          cases hfinish : (PrivateObject.ofWhole whole).finish crypto with
          | error _ => rfl
          | ok bytes =>
              have hok := (recoverContainer_frame hlawful hframable).mpr
                ⟨whole, hwhole, bytes, hfinish, rfl⟩
              rw [hresult] at hok
              cases hok

/-- **Whatever is recovered is whole.** It comes from a container, and has the length and the
digest that every record authenticated there declares; each of the other slots was counted. -/
theorem recovered_whole (hlawful : crypto.Lawful) {bytes : Bytes} {report : ContainerRecovery}
    (h : recoverContainer crypto root bytes = .ok report) :
    ∃ slots, Framable slots ∧ bytes = frame slots ∧
      crypto.sha256 report.bytes = report.digest ∧ report.bytes.length = report.total ∧
      (∃ record ∈ slots, (authenticatedChunk crypto root record).isSome) ∧
      (∀ record ∈ slots, ∀ chunk, authenticatedChunk crypto root record = some chunk →
        chunk.digest = report.digest ∧ chunk.total = report.total) ∧
      report.skippedUnrelated + report.rejectedRecords =
        slots.countP (fun record => (authenticatedChunk crypto root record).isNone) := by
  obtain ⟨slots, hframable, rfl⟩ := recoverContainer_framable h
  obtain ⟨whole, hwhole, plaintext, hfinish, rfl⟩ :=
    (recoverContainer_frame hlawful hframable).mp h
  obtain ⟨_, _, hlength, hdigest⟩ := PrivateObject.finish_eq_ok.mp hfinish
  have hheader := Scheme.assemble_header hwhole
  refine ⟨slots, hframable, rfl, hdigest, hlength, ?_, ?_, counters_add crypto root slots⟩
  · cases hchunks : authenticatedChunks crypto root slots with
    | nil =>
        rw [hchunks] at hwhole
        cases hwhole
    | cons chunk rest =>
        have hmem : chunk ∈ authenticatedChunks crypto root slots := by
          rw [hchunks]
          exact List.mem_cons_self
        obtain ⟨record, hrecord, hauth⟩ := mem_authenticatedChunks.mp hmem
        refine ⟨record, hrecord, ?_⟩
        rw [hauth]
        rfl
  · intro record hmem chunk hauth
    have hsame := hheader chunk (mem_authenticatedChunks.mpr ⟨record, hmem, hauth⟩)
    exact ⟨congrArg ObjectHeader.digest hsame, congrArg ObjectHeader.total hsame⟩

/-- **Recovery is robust.** Containers with the same authenticated records, in any order, repeated
or not, among any other slots, recover the same object or none. If two of the records conflict it
is none. And whatever any container recovers is whole. -/
theorem recovery_robust (crypto : Crypto) (hlawful : crypto.Lawful) (root : Bytes32)
    (records others : List Bytes) (hframable : Framable records) (hframable' : Framable others)
    (hdistinguished : Distinguished crypto root records)
    (hsame : ∀ record, (authenticatedChunk crypto root record).isSome →
      (record ∈ others ↔ record ∈ records)) :
    recovered (recoverContainer crypto root (frame others)) =
      recovered (recoverContainer crypto root (frame records)) ∧
    ((∃ a ∈ records, ∃ b ∈ records, Conflicting crypto root a b) →
      recovered (recoverContainer crypto root (frame others)) = none) ∧
    (∀ (bytes : Bytes) (report : ContainerRecovery),
      recoverContainer crypto root bytes = .ok report →
      ∃ slots, Framable slots ∧ bytes = frame slots ∧
        crypto.sha256 report.bytes = report.digest ∧ report.bytes.length = report.total ∧
        (∃ record ∈ slots, (authenticatedChunk crypto root record).isSome) ∧
        (∀ record ∈ slots, ∀ chunk, authenticatedChunk crypto root record = some chunk →
          chunk.digest = report.digest ∧ chunk.total = report.total) ∧
        report.skippedUnrelated + report.rejectedRecords =
          slots.countP (fun record => (authenticatedChunk crypto root record).isNone)) := by
  have hset : ∀ chunk, chunk ∈ authenticatedChunks crypto root others ↔
      chunk ∈ authenticatedChunks crypto root records := by
    apply authenticatedChunks_congr
    intro record chunk hauth
    exact hsame record (by rw [hauth]; rfl)
  have hassemble := Scheme.assemble_congr hdistinguished.discerning hset
  have hequal : recovered (recoverContainer crypto root (frame others)) =
      recovered (recoverContainer crypto root (frame records)) := by
    rw [recovered_frame hlawful hframable', recovered_frame hlawful hframable, hassemble]
  refine ⟨hequal, ?_, fun _ _ h => recovered_whole hlawful h⟩
  rintro ⟨a, ha, b, hb, hconflict⟩
  have hnone : objectScheme.assemble (authenticatedChunks crypto root records) = none := by
    cases hwhole : objectScheme.assemble (authenticatedChunks crypto root records) with
    | none => rfl
    | some whole =>
        have hgathered := Scheme.assemble_gathered hdistinguished.discerning hwhole
        exact absurd hgathered.coherent (hconflict.not_coherent hdistinguished ha hb)
  rw [hequal, recovered_frame hlawful hframable, hnone]
  rfl

/-! The record of a small file, twice, after a slot of zeros. -/

theorem zeros_unauthenticated (crypto : Crypto) (root : Bytes32) :
    authenticatedChunk crypto root (List.replicate privateRecordBytes 0) = none := by
  have hmagic : (List.replicate privateRecordBytes (0 : UInt8)).take 4 ≠ magic := by
    rw [List.take_replicate]
    decide
  rw [authenticatedChunk, openRecord, if_neg hmagic]

theorem recovery_robust_note :
    ∃ record header, Sample.sealedRecords Sample.note = [record] ∧
      recovered (recoverContainer Crypto.standard Sample.rootKey
        (frame [List.replicate privateRecordBytes 0, record, record])) =
        some (header, Sample.note) := by
  have hlawful := Crypto.standard_lawful
  have hseal : sealRecords Crypto.standard Sample.rootKey Sample.note .text Sample.zeros () =
      .ok (Sample.sealedRecords Sample.note, ()) :=
    Sample.sealedRecords_eq (by decide) (by decide)
  obtain ⟨sealing, hsealed⟩ := sealRecords_sealed hseal
  have hcount : sealing.count = 1 := by
    have hceil := (chunkCount_eq_ok.mp hsealed.sound.counted).2.2
    rw [hceil, hsealed.total]
    rfl
  obtain ⟨record, hrecords⟩ : ∃ record, Sample.sealedRecords Sample.note = [record] :=
    List.length_eq_one_iff.mp (by rw [hsealed.length, hcount])
  rw [hrecords] at hsealed
  have hframable : Framable [record] :=
    (hsealed.framable hlawful (fun _ h => h) (by simp) (by simp [u32Max])).1
  have hslots : Framable [List.replicate privateRecordBytes 0, record, record] := by
    refine ⟨by simp, by simp [u32Max], ?_⟩
    intro slot hmem
    rcases List.mem_cons.mp hmem with rfl | hmem
    · exact List.length_replicate
    · apply hframable.length
      simpa using hmem
  have hrobust := recovery_robust Crypto.standard hlawful Sample.rootKey [record]
    [List.replicate privateRecordBytes 0, record, record] hframable hslots ?_ ?_
  · obtain ⟨whole, hwhole, _, hfinish⟩ := hsealed.assembles hlawful (fun _ => Iff.rfl)
    refine ⟨record, whole.header, hrecords, ?_⟩
    rw [hrobust.1, recovered_frame hlawful hframable, hwhole, Option.bind_some, hfinish]
    rfl
  · intro a ha b hb _ _ _
    rw [List.mem_singleton.mp ha, List.mem_singleton.mp hb]
  · intro slot hauth
    constructor
    · intro hmem
      rcases List.mem_cons.mp hmem with rfl | hmem
      · rw [zeros_unauthenticated] at hauth
        cases hauth
      · simpa using hmem
    · intro hmem
      exact List.mem_cons_of_mem _ (List.mem_cons_of_mem _ hmem)

end Urma.Container
