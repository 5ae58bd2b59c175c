import Urma.Core.Framing
import Urma.Core.Reassembly

/-!
# Recovering an object from a container

The loop of `recover_container` keeps a map of objects and refuses to let it hold two. It follows
that the map is always the single object the authenticated chunks assemble to, and that a record
that does not authenticate moves a counter and nothing else.
-/

namespace Urma.Container

open Std Lib.Layout Lib.Assembly Format

variable {crypto : Crypto} {root : Bytes32}

/-! ## Opening a record never fails fatally -/

theorem tryInto_onlyRefuses {n : ℕ} {bytes : Bytes} (h : bytes.length = n) :
    OnlyRefuses (tryInto n bytes) := by
  obtain ⟨array, harray, _⟩ := tryInto_of_length h
  rw [harray]
  exact OnlyRefuses.ok array

theorem derive_onlyRefuses (hlawful : crypto.Lawful) {id : Bytes32} {purpose : Bytes} {n : ℕ}
    (h : n ≤ 255 * 32) : OnlyRefuses (derive crypto root id purpose n) := by
  obtain ⟨output, houtput⟩ := hlawful.hkdf_expands id.toList root.toList purpose n h
  rw [derive, houtput]
  exact OnlyRefuses.ok output

theorem inspectHeader_onlyRefuses (record : Bytes) : OnlyRefuses (inspectHeader record) := by
  apply OnlyRefuses.bind (OnlyRefuses.ensure _ _)
  intro _ hensure
  have hlength : record.length = privateRecordBytes := by simpa using hensure
  have hbytes : privateRecordBytes = 32928 := rfl
  apply OnlyRefuses.bind (RecordKind.parse_onlyRefuses record)
  intro kind _
  apply OnlyRefuses.bind (OnlyRefuses.ensure _ _)
  intro _ _
  apply OnlyRefuses.bind (tryInto_onlyRefuses (slice_length_of_le (by omega)))
  intro id _
  apply OnlyRefuses.bind (tryInto_onlyRefuses (slice_length_of_le (by omega)))
  intro tag _
  apply OnlyRefuses.bind (OnlyRefuses.ensure _ _)
  intro _ _
  exact OnlyRefuses.ok _

/-- The offset of a chunk never exceeds the length its count was computed from. -/
theorem openBody_onlyRefuses (hlawful : crypto.Lawful) {record : Bytes}
    {header : PrivateRecordHeader} (h : inspectHeader record = .ok header) :
    OnlyRefuses (openBody crypto root record header) := by
  obtain ⟨hlength, hindex⟩ := inspectHeader_bounds h
  have hkey : (32 : ℕ) ≤ 255 * 32 := by omega
  apply OnlyRefuses.bind
  · apply OnlyRefuses.bind (derive_onlyRefuses hlawful hkey)
    intro _ _
    exact OnlyRefuses.ok _
  intro _ _
  apply OnlyRefuses.bind (OnlyRefuses.ensure _ _)
  intro _ _
  apply OnlyRefuses.bind (OnlyRefuses.ensure _ _)
  intro _ _
  apply OnlyRefuses.bind
  · apply OnlyRefuses.bind (derive_onlyRefuses hlawful hkey)
    intro _ _
    exact OnlyRefuses.ok _
  intro body hbody
  have hbodyLength : body.length = bodyBytes := by
    simp only [applyKeystream, Except.bind_eq_ok] at hbody
    obtain ⟨key, _, hbody⟩ := hbody
    cases hbody
    rw [hlawful.ctr_length, slice_length_of_le (by rw [hlength]; decide)]
    rfl
  apply OnlyRefuses.bind (chunkCount_onlyRefuses _)
  intro count hcount
  apply OnlyRefuses.bind (OnlyRefuses.ensure _ _)
  intro _ hsame
  apply OnlyRefuses.bind (ContentType.fromCode_onlyRefuses _)
  intro contentType _
  apply OnlyRefuses.bind (OnlyRefuses.ensureSupported _ _)
  intro _ _
  have hcountEq : count = header.count := by simpa using hsame
  have hstart := chunk_start_lt hcount (hcountEq ▸ hindex)
  rw [checkedSub_eq_some.mpr ⟨Nat.le_of_lt hstart, rfl⟩, context_some, Except.ok_bind]
  apply OnlyRefuses.bind
  · apply tryInto_onlyRefuses
    rw [List.length_take, hbodyLength]
    rfl
  intro digest _
  exact OnlyRefuses.ok _

/-- **No record stops a recovery**: opening one succeeds or refuses it. -/
theorem openRecord_onlyRefuses (hlawful : crypto.Lawful) (record : Bytes) :
    OnlyRefuses (openRecord crypto root record) := by
  rw [openRecord]
  split
  · apply OnlyRefuses.bind (RecordKind.parse_onlyRefuses record)
    intro kind _
    split
    · apply OnlyRefuses.bind (inspectHeader_onlyRefuses record)
      intro header hheader
      apply OnlyRefuses.bind (derive_onlyRefuses hlawful (by omega))
      intro tag _
      split
      · exact openBody_onlyRefuses hlawful hheader
      · exact OnlyRefuses.ok _
    · exact OnlyRefuses.ok _
  · exact OnlyRefuses.ok _

/-! ## One entry -/

/-- A record that is passed over as unrelated. -/
def isUnrelated (crypto : Crypto) (root : Bytes32) (record : Bytes) : Bool :=
  match openRecord crypto root record with
  | .ok .unrelated => true
  | _ => false

/-- A record that is passed over as invalid. -/
def isRejected (crypto : Crypto) (root : Bytes32) (record : Bytes) : Bool :=
  match openRecord crypto root record with
  | .error _ => true
  | _ => false

/-- The map that holds one object. -/
def objectsOf (whole : Whole PrivateChunk ObjectHeader ℕ) :
    ExtTreeMap Bytes32 PrivateObject :=
  (∅ : ExtTreeMap Bytes32 PrivateObject).insert whole.header.id (.ofWhole whole)

variable {whole whole' : Whole PrivateChunk ObjectHeader ℕ} {chunk : PrivateChunk}

theorem objectsOf_size : (objectsOf whole).size = 1 := by
  rw [objectsOf, ExtTreeMap.size_insert, ExtTreeMap.contains_empty, ExtTreeMap.size_empty]
  rfl

/-- A chunk the object takes. -/
theorem insertChunk_of_put (h : objectScheme.put whole chunk = some whole') :
    insertChunk (objectsOf whole) chunk = .ok (objectsOf whole') := by
  obtain ⟨hheader', hheader⟩ := Scheme.put_header h
  have hid : chunk.id = whole.header.id := congrArg ObjectHeader.id hheader
  have hheld : (objectsOf whole)[chunk.id]? = some (.ofWhole whole) := by
    rw [objectsOf, hid, ExtTreeMap.getElem?_insert_self]
  rw [insertChunk, hheld]
  simp only [PrivateObject.insert_of_put h, Except.ok_bind]
  have hagain : (objectsOf whole).insert chunk.id (.ofWhole whole') = objectsOf whole' := by
    apply ExtTreeMap.ext_getElem?
    intro k
    rw [objectsOf, objectsOf, hheader', hid, ExtTreeMap.getElem?_insert,
      ExtTreeMap.getElem?_insert, ExtTreeMap.getElem?_insert]
    split
    · rfl
    · rfl
  rw [hagain]

/-- A chunk the object refuses: it is not inserted, or makes a second object. -/
theorem insertChunk_of_put_none (h : objectScheme.put whole chunk = none)
    {objects : ExtTreeMap Bytes32 PrivateObject}
    (hinsert : insertChunk (objectsOf whole) chunk = .ok objects) : objects.size ≠ 1 := by
  by_cases hid : whole.header.id = chunk.id
  · have hheld : (objectsOf whole)[chunk.id]? = some (.ofWhole whole) := by
      rw [objectsOf, hid, ExtTreeMap.getElem?_insert_self]
    obtain ⟨error, herror⟩ := PrivateObject.insert_of_put_none h
    rw [insertChunk, hheld] at hinsert
    simp only [herror, Except.error_bind] at hinsert
    cases hinsert
  · have hother : (objectsOf whole)[chunk.id]? = none := by
      rw [objectsOf, ExtTreeMap.getElem?_insert,
        if_neg (fun hc => hid (LawfulEqCmp.compare_eq_iff_eq.mp hc)), ExtTreeMap.getElem?_empty]
    have habsent : (objectsOf whole).contains chunk.id = false := by
      rw [ExtTreeMap.contains_eq_isSome_getElem?, hother]
      rfl
    rw [insertChunk, hother] at hinsert
    cases hinsert
    rw [ExtTreeMap.size_insert, habsent, objectsOf_size]
    decide

/-- A record that does not authenticate moves a counter. -/
theorem recoverEntry_unauthenticated (hlawful : crypto.Lawful) {state : Recovery} {entry : Bytes}
    (h : authenticatedChunk crypto root (entry.drop 4) = none) :
    recoverEntry crypto root state entry =
      .ok ⟨state.objects,
        state.skippedUnrelated + (if isUnrelated crypto root (entry.drop 4) then 1 else 0),
        state.rejectedRecords + (if isRejected crypto root (entry.drop 4) then 1 else 0)⟩ := by
  have hrefuses : OnlyRefuses (openRecord crypto root (entry.drop 4)) :=
    openRecord_onlyRefuses hlawful _
  rw [authenticatedChunk] at h
  rw [recoverEntry, recoveryRecord, isUnrelated, isRejected]
  cases hopen : openRecord crypto root (entry.drop 4) with
  | error error =>
      obtain ⟨reason, rfl | rfl⟩ := hrefuses error hopen
      · rfl
      · rfl
  | ok found =>
      cases found with
      | unrelated => rfl
      | authenticated chunk =>
          rw [hopen] at h
          cases h

/-- A record that authenticates is inserted, and moves no counter. -/
theorem recoverEntry_authenticated (state : Recovery) {entry : Bytes}
    (h : authenticatedChunk crypto root (entry.drop 4) = some chunk) :
    (recoverEntry crypto root state entry = do
      let objects ← insertChunk state.objects chunk
      ensure (objects.size == 1) "multiple authenticated objects"
      .ok { state with objects }) ∧
    isUnrelated crypto root (entry.drop 4) = false ∧
    isRejected crypto root (entry.drop 4) = false := by
  have hopen := authenticatedChunk_eq_some.mp h
  rw [recoverEntry, recoveryRecord, isUnrelated, isRejected, hopen]
  exact ⟨rfl, rfl, rfl⟩

/-! ## The loop -/

/-- The records of some entries, their length fields left out. -/
def entryRecords (entries : List Bytes) : List Bytes :=
  entries.map (List.drop 4)

/-- The loop, once it holds an object: the chunks are put into it one after another. -/
theorem recoverEntries_from (hlawful : crypto.Lawful) {entries : List Bytes}
    {skipped rejected : ℕ} {state : Recovery} :
    entries.foldlM (recoverEntry crypto root) ⟨objectsOf whole, skipped, rejected⟩ = .ok state ↔
      ∃ whole', (authenticatedChunks crypto root (entryRecords entries)).foldlM objectScheme.put
          whole = some whole' ∧
        state = ⟨objectsOf whole',
          skipped + (entryRecords entries).countP (isUnrelated crypto root),
          rejected + (entryRecords entries).countP (isRejected crypto root)⟩ := by
  induction entries generalizing whole skipped rejected with
  | nil =>
      constructor
      · intro h
        cases h
        exact ⟨whole, rfl, rfl⟩
      · rintro ⟨whole', hfold, rfl⟩
        cases hfold
        rfl
  | cons entry entries ih =>
      rw [List.foldlM_cons, entryRecords, List.map_cons, List.countP_cons, List.countP_cons]
      cases hchunk : authenticatedChunk crypto root (entry.drop 4) with
      | none =>
          rw [recoverEntry_unauthenticated hlawful hchunk, Except.ok_bind, ih, authenticatedChunks,
            authenticatedChunks, List.filterMap_cons_none hchunk]
          simp only [entryRecords, Nat.add_comm, Nat.add_left_comm]
      | some chunk =>
          obtain ⟨hentry, hunrelated, hrejected⟩ :=
            recoverEntry_authenticated ⟨objectsOf whole, skipped, rejected⟩ hchunk
          rw [hentry, hunrelated, hrejected, authenticatedChunks,
            List.filterMap_cons_some hchunk, List.foldlM_cons]
          cases hput : objectScheme.put whole chunk with
          | none =>
              constructor
              · intro h
                simp only [Except.bind_eq_ok, ensure_eq_ok, beq_iff_eq] at h
                obtain ⟨_, ⟨objects, hinsert, _, hsize, _⟩, _⟩ := h
                exact absurd hsize (insertChunk_of_put_none hput hinsert)
              · rintro ⟨whole', hfold, -⟩
                cases hfold
          | some next =>
              rw [insertChunk_of_put hput, Except.ok_bind, objectsOf_size]
              exact ih

/-- The loop from its start: nothing authenticates, or the chunks assemble. -/
theorem recoverEntries_eq_ok (hlawful : crypto.Lawful) {entries : List Bytes}
    {skipped rejected : ℕ} {state : Recovery} :
    entries.foldlM (recoverEntry crypto root) ⟨∅, skipped, rejected⟩ = .ok state ↔
      (authenticatedChunks crypto root (entryRecords entries) = [] ∧ state = ⟨∅,
        skipped + (entryRecords entries).countP (isUnrelated crypto root),
        rejected + (entryRecords entries).countP (isRejected crypto root)⟩) ∨
      ∃ whole, objectScheme.assemble (authenticatedChunks crypto root (entryRecords entries)) =
          some whole ∧
        state = ⟨objectsOf whole,
          skipped + (entryRecords entries).countP (isUnrelated crypto root),
          rejected + (entryRecords entries).countP (isRejected crypto root)⟩ := by
  induction entries generalizing skipped rejected with
  | nil =>
      constructor
      · intro h
        cases h
        exact Or.inl ⟨rfl, rfl⟩
      · rintro (⟨_, rfl⟩ | ⟨whole, hwhole, _⟩)
        · rfl
        · cases hwhole
  | cons entry entries ih =>
      rw [List.foldlM_cons, entryRecords, List.map_cons, List.countP_cons, List.countP_cons]
      cases hchunk : authenticatedChunk crypto root (entry.drop 4) with
      | none =>
          rw [recoverEntry_unauthenticated hlawful hchunk, Except.ok_bind, ih, authenticatedChunks,
            authenticatedChunks, List.filterMap_cons_none hchunk]
          simp only [entryRecords, Nat.add_comm, Nat.add_left_comm]
      | some chunk =>
          obtain ⟨hentry, hunrelated, hrejected⟩ :=
            recoverEntry_authenticated ⟨∅, skipped, rejected⟩ hchunk
          have hinsert : insertChunk ∅ chunk = .ok (objectsOf (objectScheme.start chunk)) := by
            rw [insertChunk, ExtTreeMap.getElem?_empty]
            rfl
          rw [hentry, hunrelated, hrejected, authenticatedChunks,
            List.filterMap_cons_some hchunk, hinsert, Except.ok_bind, objectsOf_size]
          constructor
          · intro h
            exact Or.inr ((recoverEntries_from hlawful).mp h)
          · rintro (⟨hnil, _⟩ | h)
            · cases hnil
            · exact (recoverEntries_from hlawful).mpr h

/-! ## The whole recovery -/

/-- What a recovery reports of the object it has put together. -/
def recoveryOf (crypto : Crypto) (root : Bytes32) (records : List Bytes)
    (whole : Whole PrivateChunk ObjectHeader ℕ) (bytes : Bytes) : ContainerRecovery where
  id := whole.header.id
  count := whole.header.count
  total := whole.header.total
  digest := whole.header.digest
  contentType := whole.header.contentType
  bytes := bytes
  skippedUnrelated := records.countP (isUnrelated crypto root)
  rejectedRecords := records.countP (isRejected crypto root)

theorem objectsOf_head :
    (objectsOf whole).toList.head? = some (whole.header.id, .ofWhole whole) := by
  have hmem : (whole.header.id, PrivateObject.ofWhole whole) ∈ (objectsOf whole).toList := by
    rw [ExtTreeMap.mem_toList_iff_getElem?_eq_some, objectsOf, ExtTreeMap.getElem?_insert_self]
  have hlength : (objectsOf whole).toList.length = 1 := by
    rw [ExtTreeMap.length_toList, objectsOf_size]
  obtain ⟨only, honly⟩ := List.length_eq_one_iff.mp hlength
  rw [honly] at hmem ⊢
  rw [List.mem_singleton.mp hmem]
  rfl

/-- **Recovering from a container** assembles the records that authenticate and counts the
others. -/
theorem recoverContainer_frame (hlawful : crypto.Lawful) {records : List Bytes}
    (hframable : Framable records) {report : ContainerRecovery} :
    recoverContainer crypto root (frame records) = .ok report ↔
      ∃ whole, objectScheme.assemble (authenticatedChunks crypto root records) = some whole ∧
        ∃ bytes, (PrivateObject.ofWhole whole).finish crypto = .ok bytes ∧
          report = recoveryOf crypto root records whole bytes := by
  have hentries : entryRecords (records.map entryOf) = records := by
    rw [entryRecords, List.map_map]
    calc records.map (List.drop 4 ∘ entryOf) = records.map id :=
          List.map_congr_left (fun record _ => drop_entryOf record)
      _ = records := List.map_id records
  have hvalid : ((records.map entryOf).forM fun entry => do
      let _ ← framedRecord entry) = (.ok () : Except Error Unit) := by
    rw [Except.forM_eq_ok]
    intro entry hmem
    obtain ⟨record, hrecord, rfl⟩ := List.mem_map.mp hmem
    rw [framedRecord_entryOf (hframable.length record hrecord)]
    rfl
  rw [recoverContainer, framedRecords_frame hframable, Except.ok_bind, hvalid, Except.ok_bind]
  constructor
  · intro h
    obtain ⟨state, hloop, hreport⟩ := Except.bind_eq_ok.mp h
    rw [recoverEntries_eq_ok hlawful, hentries] at hloop
    rcases hloop with ⟨_, rfl⟩ | ⟨whole, hwhole, rfl⟩
    · cases hreport
    · rw [objectsOf_head] at hreport
      obtain ⟨bytes, hfinish, hreport⟩ := Except.bind_eq_ok.mp hreport
      cases hreport
      refine ⟨whole, hwhole, bytes, hfinish, ?_⟩
      simp only [recoveryOf, PrivateObject.ofWhole, Nat.zero_add]
  · rintro ⟨whole, hwhole, bytes, hfinish, rfl⟩
    rw [Except.bind_eq_ok]
    refine ⟨_, (recoverEntries_eq_ok hlawful).mpr (Or.inr ⟨whole, ?_, rfl⟩), ?_⟩
    · rw [hentries]; exact hwhole
    · rw [objectsOf_head, hentries]
      apply Except.bind_eq_ok.mpr
      refine ⟨bytes, hfinish, ?_⟩
      simp only [recoveryOf, PrivateObject.ofWhole, Nat.zero_add]

/-- Only a container can be recovered from. -/
theorem recoverContainer_framable {bytes : Bytes} {report : ContainerRecovery}
    (h : recoverContainer crypto root bytes = .ok report) :
    ∃ records, Framable records ∧ bytes = frame records := by
  simp only [recoverContainer, Except.bind_eq_ok, Except.forM_eq_ok] at h
  obtain ⟨entries, hentries, _, hvalid, _⟩ := h
  refine ⟨entries.map (List.drop 4), eq_frame hentries ?_⟩
  intro entry hmem
  obtain ⟨record, hrecord, _⟩ := hvalid entry hmem
  exact ⟨record, hrecord⟩

end Urma.Container
