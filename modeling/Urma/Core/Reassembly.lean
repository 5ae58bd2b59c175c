import Urma.Core.Container
import Urma.Lib.Assembly

/-!
# Reassembling an object

A `PrivateObject` that has met no conflict is a whole being put together from its chunks, and
`PrivateObject::insert` takes a chunk exactly when the whole does. Both ways of reassembling, the
strict one and the recovery from a container, therefore assemble the chunks that authenticate.
-/

namespace Urma.Container

open Std Lib.Layout Lib.Assembly Format

variable {crypto : Crypto} {root : Bytes32}

/-! ## An object as a whole -/

/-- What every chunk of an object says about the object. -/
structure ObjectHeader where
  id : Bytes32
  count : ℕ
  total : ℕ
  digest : Bytes32
  contentType : ContentType
  deriving DecidableEq

def PrivateChunk.header (chunk : PrivateChunk) : ObjectHeader where
  id := chunk.id
  count := chunk.count
  total := chunk.total
  digest := chunk.digest
  contentType := chunk.contentType

/-- Chunks as parts: placed by their index, told apart by the digest of their record. -/
def objectScheme : Scheme PrivateChunk ObjectHeader ℕ where
  header := PrivateChunk.header
  place := PrivateChunk.index
  agrees a b := a.recordDigest == b.recordDigest

/-- An object that has met no conflict. -/
def PrivateObject.ofWhole (whole : Whole PrivateChunk ObjectHeader ℕ) : PrivateObject where
  id := whole.header.id
  count := whole.header.count
  total := whole.header.total
  contentType := whole.header.contentType
  digest := whole.header.digest
  chunks := whole.parts
  conflict := false

variable {whole whole' : Whole PrivateChunk ObjectHeader ℕ} {chunk : PrivateChunk}

theorem PrivateObject.new_eq (chunk : PrivateChunk) :
    PrivateObject.new chunk = .ofWhole (objectScheme.start chunk) := rfl

/-- The metadata comparison of `insert` compares headers. -/
theorem PrivateObject.header_ne_iff :
    ((ofWhole whole).id ≠ chunk.id ∨ (ofWhole whole).count ≠ chunk.count ∨
      (ofWhole whole).total ≠ chunk.total ∨ (ofWhole whole).digest ≠ chunk.digest ∨
      (ofWhole whole).contentType ≠ chunk.contentType) ↔ whole.header ≠ chunk.header := by
  obtain ⟨⟨id, count, total, digest, contentType⟩, parts⟩ := whole
  simp only [ofWhole, PrivateChunk.header, ne_eq, ObjectHeader.mk.injEq]
  tauto

/-- A chunk the whole takes is inserted. -/
theorem PrivateObject.insert_of_put (h : objectScheme.put whole chunk = some whole') :
    (ofWhole whole).insert chunk = (ofWhole whole', .ok ()) := by
  rw [Scheme.put] at h
  split at h
  · next hheader =>
      have hsame : ¬ whole.header ≠ chunk.header := fun hne => hne hheader
      rw [insert, if_neg (fun hne => hsame (header_ne_iff.mp hne))]
      split at h
      · next held hheld =>
          split at h
          · next hagrees =>
              cases h
              have hheld : (ofWhole whole).chunks[chunk.index]? = some held := hheld
              have heq : held.recordDigest = chunk.recordDigest := beq_iff_eq.mp hagrees
              rw [hheld]
              exact if_neg (fun hne => hne heq)
          · cases h
      · next hfree =>
          cases h
          have hfree : (ofWhole whole).chunks[chunk.index]? = none := hfree
          rw [hfree]
          rfl
  · cases h

/-- A chunk the whole refuses is refused. -/
theorem PrivateObject.insert_of_put_none (h : objectScheme.put whole chunk = none) :
    ∃ error, ((ofWhole whole).insert chunk).2 = .error error := by
  rw [Scheme.put] at h
  split at h
  · next hheader =>
      have hsame : ¬ whole.header ≠ chunk.header := fun hne => hne hheader
      rw [insert, if_neg (fun hne => hsame (header_ne_iff.mp hne))]
      split at h
      · next held hheld =>
          split at h
          · cases h
          · next hdiffers =>
              have hheld : (ofWhole whole).chunks[chunk.index]? = some held := hheld
              have hne : held.recordDigest ≠ chunk.recordDigest :=
                fun heq => hdiffers (beq_iff_eq.mpr heq)
              rw [hheld]
              exact ⟨_, congrArg Prod.snd (if_pos hne)⟩
      · cases h
  · next hheader =>
      rw [insert, if_pos (header_ne_iff.mpr hheader)]
      exact ⟨_, rfl⟩

/-! ## The chunks that authenticate -/

/-- The chunk of a record that authenticates under the root key. -/
def authenticatedChunk (crypto : Crypto) (root : Bytes32) (record : Bytes) :
    Option PrivateChunk :=
  match openRecord crypto root record with
  | .ok (.authenticated chunk) => some chunk
  | _ => none

theorem authenticatedChunk_eq_some {record : Bytes} :
    authenticatedChunk crypto root record = some chunk ↔
      openRecord crypto root record = .ok (.authenticated chunk) := by
  rw [authenticatedChunk]
  split
  · next found h =>
      rw [h]
      constructor
      · intro heq; cases heq; rfl
      · intro heq; cases heq; rfl
  · next h =>
      constructor
      · intro heq; cases heq
      · intro heq; exact absurd heq (h chunk)

theorem requiredChunk_eq_ok {record : Bytes} :
    requiredChunk crypto root record = .ok chunk ↔
      authenticatedChunk crypto root record = some chunk := by
  rw [requiredChunk, authenticatedChunk]
  cases openRecord crypto root record with
  | error error =>
      constructor
      · intro h; cases h
      · intro h; cases h
  | ok found =>
      cases found with
      | unrelated =>
          constructor
          · intro h; cases h
          · intro h; cases h
      | authenticated held =>
          constructor
          · intro h; cases h; rfl
          · intro h; cases h; rfl

/-- The chunks among some records that authenticate, in their order. -/
def authenticatedChunks (crypto : Crypto) (root : Bytes32) (records : List Bytes) :
    List PrivateChunk :=
  records.filterMap (authenticatedChunk crypto root)

theorem mem_authenticatedChunks {records : List Bytes} :
    chunk ∈ authenticatedChunks crypto root records ↔
      ∃ record ∈ records, authenticatedChunk crypto root record = some chunk :=
  List.mem_filterMap

/-- The chunks depend on the set of records that authenticate only. -/
theorem authenticatedChunks_congr {records others : List Bytes}
    (h : ∀ record chunk, authenticatedChunk crypto root record = some chunk →
      (record ∈ others ↔ record ∈ records)) (chunk : PrivateChunk) :
    chunk ∈ authenticatedChunks crypto root others ↔
      chunk ∈ authenticatedChunks crypto root records := by
  rw [mem_authenticatedChunks, mem_authenticatedChunks]
  constructor
  · rintro ⟨record, hmem, hchunk⟩
    exact ⟨record, (h record chunk hchunk).mp hmem, hchunk⟩
  · rintro ⟨record, hmem, hchunk⟩
    exact ⟨record, (h record chunk hchunk).mpr hmem, hchunk⟩

/-! ## Finishing -/

/-- The loop of `finish` concatenates what the chunks hold, when none is missing. -/
theorem PrivateObject.collect_eq {object : PrivateObject} {piece : ℕ → Bytes}
    (h : ∀ i < object.count, ∃ chunk : PrivateChunk,
      object.chunks[i]? = some chunk ∧ chunk.bytes = piece i) :
    object.collect = .ok ((List.range object.count).flatMap piece) := by
  have hloop : ∀ (indices : List ℕ) (bytes : Bytes), (∀ i ∈ indices, i < object.count) →
      indices.foldlM (fun bytes index => do
        let chunk ← context object.chunks[index]? "missing chunk"
        .ok (bytes ++ chunk.bytes)) bytes = .ok (bytes ++ indices.flatMap piece) := by
    intro indices
    induction indices with
    | nil =>
        intro bytes _
        rw [List.foldlM_nil, List.flatMap_nil, List.append_nil]
        rfl
    | cons index indices ih =>
        intro bytes hbound
        obtain ⟨chunk, hheld, hpiece⟩ := h index (hbound index List.mem_cons_self)
        rw [List.foldlM_cons, hheld, context_some, Except.ok_bind, Except.ok_bind, hpiece,
          ih _ (fun i hi => hbound i (List.mem_cons_of_mem index hi)), List.flatMap_cons,
          List.append_assoc]
  rw [collect, hloop _ [] (fun i hi => List.mem_range.mp hi), List.nil_append]

/-- No chunk is missing from an object whose chunks were collected. -/
theorem PrivateObject.collect_present {object : PrivateObject} {bytes : Bytes}
    (h : object.collect = .ok bytes) :
    ∀ i < object.count, ∃ chunk : PrivateChunk, object.chunks[i]? = some chunk := by
  have hloop : ∀ (indices : List ℕ) (bytes result : Bytes),
      indices.foldlM (fun bytes index => do
        let chunk ← context object.chunks[index]? "missing chunk"
        .ok (bytes ++ chunk.bytes)) bytes = (.ok result : Except Error Bytes) →
      ∀ i ∈ indices, ∃ chunk : PrivateChunk, object.chunks[i]? = some chunk := by
    intro indices
    induction indices with
    | nil =>
        intro _ _ _ i hi
        cases hi
    | cons index indices ih =>
        intro bytes result hfold i hi
        simp only [List.foldlM_cons, Except.bind_eq_ok, context_eq_ok] at hfold
        obtain ⟨_, ⟨chunk, hheld, _⟩, hrest⟩ := hfold
        rcases List.mem_cons.mp hi with rfl | hi
        · exact ⟨chunk, hheld⟩
        · exact ih _ _ hrest i hi
  intro i hi
  exact hloop _ [] bytes h i (List.mem_range.mpr hi)

/-- **When an object finishes**: no chunk is missing, and the bytes have the length and the
digest the chunks declare. -/
theorem PrivateObject.finish_eq_ok {bytes : Bytes} :
    (ofWhole whole).finish crypto = .ok bytes ↔
      (whole.parts.size ≤ u32Max ∧ whole.parts.size = whole.header.count) ∧
        (ofWhole whole).collect = .ok bytes ∧
          bytes.length = whole.header.total ∧ crypto.sha256 bytes = whole.header.digest := by
  simp only [finish, Except.bind_eq_ok, ensure_eq_ok, tryU32_eq_ok, beq_iff_eq,
    Bool.and_eq_true]
  constructor
  · rintro ⟨_, _, _, ⟨hu32, rfl⟩, _, hsize, _, hcollect, _, ⟨hlength, hdigest⟩, hbytes⟩
    cases hbytes
    exact ⟨⟨hu32, hsize⟩, hcollect, hlength, hdigest⟩
  · rintro ⟨⟨hu32, hsize⟩, hcollect, hlength, hdigest⟩
    exact ⟨(), rfl, _, ⟨hu32, rfl⟩, (), hsize, bytes, hcollect, (), ⟨hlength, hdigest⟩, rfl⟩

/-! ## Strict opening -/

/-- The loop of `open` puts every record into the whole. -/
theorem openRest_eq_ok {records : List Bytes} {object : PrivateObject} :
    openRest crypto root (.ofWhole whole) records = .ok object ↔
      (∀ record ∈ records, ∃ chunk, authenticatedChunk crypto root record = some chunk) ∧
        ∃ whole', (authenticatedChunks crypto root records).foldlM objectScheme.put whole =
          some whole' ∧ object = .ofWhole whole' := by
  induction records generalizing whole with
  | nil =>
      constructor
      · intro h
        cases h
        refine ⟨?_, whole, rfl, rfl⟩
        intro record hmem
        cases hmem
      · rintro ⟨-, whole', hfold, rfl⟩
        cases hfold
        rfl
  | cons record records ih =>
      simp only [openRest, Except.bind_eq_ok, requiredChunk_eq_ok]
      constructor
      · rintro ⟨chunk, hchunk, _, hinserted, hrest⟩
        cases hput : objectScheme.put whole chunk with
        | none =>
            obtain ⟨error, herror⟩ := PrivateObject.insert_of_put_none hput
            rw [herror] at hinserted
            cases hinserted
        | some next =>
            rw [PrivateObject.insert_of_put hput] at hrest
            obtain ⟨hall, whole', hfold, hobject⟩ := ih.mp hrest
            refine ⟨?_, whole', ?_, hobject⟩
            · intro other hmem
              rcases List.mem_cons.mp hmem with rfl | hmem
              · exact ⟨chunk, hchunk⟩
              · exact hall other hmem
            · rw [authenticatedChunks, List.filterMap_cons_some hchunk, List.foldlM_cons, hput]
              exact hfold
      · rintro ⟨hall, whole', hfold, hobject⟩
        obtain ⟨chunk, hchunk⟩ := hall record List.mem_cons_self
        rw [authenticatedChunks, List.filterMap_cons_some hchunk, List.foldlM_cons] at hfold
        cases hput : objectScheme.put whole chunk with
        | none =>
            rw [hput] at hfold
            cases hfold
        | some next =>
            rw [hput] at hfold
            have hrest := fun other hmem => hall other (List.mem_cons_of_mem record hmem)
            refine ⟨chunk, hchunk, (), ?_, ?_⟩
            · rw [PrivateObject.insert_of_put hput]
            · rw [PrivateObject.insert_of_put hput]
              exact ih.mpr ⟨hrest, whole', hfold, hobject⟩

/-- **Strict opening** assembles its records, every one of which has to authenticate. -/
theorem openRecords_eq_ok {records : List Bytes} {bytes : Bytes} :
    openRecords crypto root records = .ok bytes ↔
      (∀ record ∈ records, ∃ chunk, authenticatedChunk crypto root record = some chunk) ∧
        ∃ whole, objectScheme.assemble (authenticatedChunks crypto root records) = some whole ∧
          (PrivateObject.ofWhole whole).finish crypto = .ok bytes := by
  cases records with
  | nil =>
      constructor
      · intro h; cases h
      · rintro ⟨-, whole, hwhole, -⟩; cases hwhole
  | cons first rest =>
      simp only [openRecords, Except.bind_eq_ok, requiredChunk_eq_ok, PrivateObject.new_eq,
        openRest_eq_ok]
      constructor
      · rintro ⟨chunk, hchunk, object, ⟨hall, whole, hfold, rfl⟩, hfinish⟩
        refine ⟨?_, whole, ?_, hfinish⟩
        · intro record hmem
          rcases List.mem_cons.mp hmem with rfl | hmem
          · exact ⟨chunk, hchunk⟩
          · exact hall record hmem
        · rw [authenticatedChunks, List.filterMap_cons_some hchunk]
          exact hfold
      · rintro ⟨hall, whole, hwhole, hfinish⟩
        obtain ⟨chunk, hchunk⟩ := hall first List.mem_cons_self
        rw [authenticatedChunks, List.filterMap_cons_some hchunk] at hwhole
        have hrest := fun record hmem => hall record (List.mem_cons_of_mem first hmem)
        exact ⟨chunk, hchunk, _, ⟨hrest, whole, hwhole, rfl⟩, hfinish⟩

end Urma.Container
