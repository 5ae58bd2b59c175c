import Urma.Core.RobustRecovery
import Urma.Runtime.Backend

/-!
# Recovering many objects does not depend on the order

Every object of a recovery is a fold over the chunks of its own id, and what `export` reports of it
is a function of the set of these chunks: the report of the whole they assemble to, or a conflict if
they do not assemble. The two drivers, the one that stops at the first conflict and the one that
keeps it, therefore agree wherever the first succeeds.
-/

namespace Urma.Runtime.Backend

open Std Lib.Assembly Container Format

variable {crypto : Crypto} {root : Bytes32} {records others : List Bytes}

/-! ## All the records -/

/-- The objects some chunks are collected into. -/
def gather (chunks : List PrivateChunk) (objects : Objects) : Objects :=
  chunks.foldl keep objects

theorem size_le_keep (objects : Objects) (chunk : PrivateChunk) :
    objects.size ≤ (keep objects chunk).size := by
  rw [keep]
  split
  · exact ExtTreeMap.size_le_size_insert
  · exact ExtTreeMap.size_le_size_insert

theorem size_le_gather (chunks : List PrivateChunk) (objects : Objects) :
    objects.size ≤ (gather chunks objects).size := by
  induction chunks generalizing objects with
  | nil => exact Nat.le_refl _
  | cons chunk chunks ih => exact Nat.le_trans (size_le_keep objects chunk) (ih _)

/-- A record that does not authenticate moves a counter at most. -/
theorem acceptRecord_of_none {record : Bytes} {objects : Objects}
    (h : authenticatedChunk crypto root record = none) :
    acceptRecord crypto root record objects =
      .ok (if isRejected crypto root record then 1 else 0, objects) := by
  rw [authenticatedChunk] at h
  rw [acceptRecord, isRejected]
  cases hopen : openRecord crypto root record with
  | error error => rfl
  | ok found =>
      cases found with
      | unrelated => rfl
      | authenticated chunk =>
          rw [hopen] at h
          cases h

/-- A record that authenticates is kept, if there is room. -/
theorem acceptRecord_of_some {record : Bytes} {objects : Objects} {chunk : PrivateChunk}
    (h : authenticatedChunk crypto root record = some chunk) :
    (acceptRecord crypto root record objects = do
      ensureService ((keep objects chunk).size ≤ maxObjects) "client object capacity exceeded"
      .ok (0, keep objects chunk)) ∧
    isRejected crypto root record = false := by
  rw [acceptRecord, isRejected, authenticatedChunk_eq_some.mp h]
  exact ⟨rfl, rfl⟩

/-- **The loop collects what authenticates and counts what is rejected**, and fails for want of room
only, as long as the counter is large enough. -/
theorem acceptAll_eq {rejected : ℕ} {objects : Objects} (hsize : objects.size ≤ maxObjects)
    (hcount : rejected + records.countP (isRejected crypto root) ≤ u64Max) :
    acceptAll crypto root records rejected objects =
      if (gather (authenticatedChunks crypto root records) objects).size ≤ maxObjects then
        .ok (rejected + records.countP (isRejected crypto root),
          gather (authenticatedChunks crypto root records) objects)
      else .error (.message "client object capacity exceeded") := by
  induction records generalizing rejected objects with
  | nil => exact (if_pos hsize).symm
  | cons record records ih =>
      rw [List.countP_cons] at hcount ⊢
      cases hchunk : authenticatedChunk crypto root record with
      | none =>
          have hone : countRejected rejected (if isRejected crypto root record then 1 else 0)
              "rejected record count overflow" =
                .ok (rejected + if isRejected crypto root record then 1 else 0) := by
            rw [countRejected, contextService_eq_ok, checkedAdd_eq_some]
            exact ⟨by omega, rfl⟩
          rw [acceptAll, acceptRecord_of_none hchunk, Except.ok_bind]
          simp only [hone, Except.ok_bind]
          rw [ih hsize (by omega), authenticatedChunks, authenticatedChunks,
            List.filterMap_cons_none hchunk, Nat.add_assoc, Nat.add_comm (List.countP _ records)]
      | some chunk =>
          obtain ⟨haccept, hrejected⟩ :=
            @acceptRecord_of_some crypto root record objects chunk hchunk
          have hnone : countRejected rejected 0 "rejected record count overflow" =
              .ok rejected := by
            rw [countRejected, contextService_eq_ok, checkedAdd_eq_some]
            exact ⟨by omega, rfl⟩
          rw [acceptAll, haccept, hrejected, authenticatedChunks,
            List.filterMap_cons_some hchunk]
          by_cases hroom : (keep objects chunk).size ≤ maxObjects
          · rw [hrejected] at hcount
            have hrest := @ih rejected _ hroom (by simpa using hcount)
            rw [decide_eq_true hroom]
            simp only [ensureService, if_true, Except.ok_bind, hnone]
            exact hrest
          · have hfull : ¬ (gather (chunk :: List.filterMap (authenticatedChunk crypto root)
                records) objects).size ≤ maxObjects := fun hle =>
              hroom (Nat.le_trans (size_le_gather _ _) hle)
            rw [if_neg hfull, decide_eq_false hroom]
            rfl

/-! ## One object -/

/-- What a chunk does to the object of its id. -/
def take (held : Option PrivateObject) (chunk : PrivateChunk) : Option PrivateObject :=
  match held with
  | some object => some (object.insert chunk).1
  | none => some (.new chunk)

theorem keep_getElem? (objects : Objects) (chunk : PrivateChunk) (id : Bytes32) :
    (keep objects chunk)[id]? =
      if chunk.id = id then take objects[id]? chunk else objects[id]? := by
  by_cases hid : chunk.id = id
  · rw [if_pos hid, ← hid, keep, take.eq_def]
    cases objects[chunk.id]? with
    | some object => exact ExtTreeMap.getElem?_insert_self
    | none => exact ExtTreeMap.getElem?_insert_self
  · rw [if_neg hid, keep]
    have hother : ∀ object : PrivateObject, (objects.insert chunk.id object)[id]? = objects[id]? := by
      intro object
      rw [ExtTreeMap.getElem?_insert, if_neg (fun h => hid (LawfulEqCmp.compare_eq_iff_eq.mp h))]
    cases objects[chunk.id]? with
    | some object => exact hother _
    | none => exact hother _

/-- The chunks of one object. -/
def chunksOf (id : Bytes32) (chunks : List PrivateChunk) : List PrivateChunk :=
  chunks.filter fun chunk => chunk.id = id

theorem mem_chunksOf {id : Bytes32} {chunks : List PrivateChunk} {chunk : PrivateChunk} :
    chunk ∈ chunksOf id chunks ↔ chunk ∈ chunks ∧ chunk.id = id := by
  rw [chunksOf, List.mem_filter, decide_eq_true_eq]

/-- **Objects do not touch each other**: each is the fold of its own chunks. -/
theorem gather_getElem? (chunks : List PrivateChunk) (objects : Objects) (id : Bytes32) :
    (gather chunks objects)[id]? = (chunksOf id chunks).foldl take objects[id]? := by
  induction chunks generalizing objects with
  | nil => rfl
  | cons chunk chunks ih =>
      have hstep : gather (chunk :: chunks) objects = gather chunks (keep objects chunk) := rfl
      rw [hstep, ih, keep_getElem?, chunksOf, chunksOf, List.filter_cons]
      by_cases hid : chunk.id = id
      · rw [if_pos hid, if_pos (decide_eq_true hid), List.foldl_cons]
      · rw [if_neg hid, if_neg (fun h => hid (of_decide_eq_true h))]

/-- An object keeps its id. -/
theorem insert_id (object : PrivateObject) (chunk : PrivateChunk) :
    (object.insert chunk).1.id = object.id := by
  rw [PrivateObject.insert]
  split
  · rfl
  · split
    · split
      · rfl
      · rfl
    · rfl

/-- A conflict stays. -/
theorem insert_conflict {object : PrivateObject} (h : object.conflict = true)
    (chunk : PrivateChunk) : (object.insert chunk).1.conflict = true := by
  rw [PrivateObject.insert]
  split
  · rfl
  · split
    · split
      · rfl
      · exact h
    · exact h

/-- A chunk the whole refuses leaves a conflict. -/
theorem insert_conflict_of_put_none {whole : Whole PrivateChunk ObjectHeader ℕ}
    {chunk : PrivateChunk} (h : objectScheme.put whole chunk = none) :
    ((PrivateObject.ofWhole whole).insert chunk).1.conflict = true := by
  rw [Scheme.put] at h
  split at h
  · next hheader =>
      have hsame : ¬ whole.header ≠ chunk.header := fun hne => hne hheader
      rw [PrivateObject.insert, if_neg (fun hne => hsame (PrivateObject.header_ne_iff.mp hne))]
      split at h
      · next held hheld =>
          split at h
          · cases h
          · next hdiffers =>
              have hheld : (PrivateObject.ofWhole whole).chunks[chunk.index]? = some held := hheld
              have hne : held.recordDigest ≠ chunk.recordDigest :=
                fun heq => hdiffers (beq_iff_eq.mpr heq)
              rw [hheld]
              simp only [if_pos hne]
      · cases h
  · next hheader =>
      rw [PrivateObject.insert, if_pos (PrivateObject.header_ne_iff.mpr hheader)]

theorem foldl_take_conflict {object : PrivateObject} (h : object.conflict = true)
    (chunks : List PrivateChunk) :
    ∃ object', chunks.foldl take (some object) = some object' ∧ object'.conflict = true := by
  induction chunks generalizing object with
  | nil => exact ⟨object, rfl, h⟩
  | cons chunk chunks ih => exact ih (insert_conflict h chunk)

/-- What is reported of an object, from the assembly of its chunks. -/
def reported (crypto : Crypto) (whole : Option (Whole PrivateChunk ObjectHeader ℕ)) :
    ObjectStatus :=
  match whole with
  | some whole => objectStatus crypto (.ofWhole whole)
  | none => .conflicted

theorem foldl_take_ofWhole (whole : Whole PrivateChunk ObjectHeader ℕ)
    (chunks : List PrivateChunk) :
    (chunks.foldl take (some (.ofWhole whole))).map (objectStatus crypto) =
      some (reported crypto (chunks.foldlM objectScheme.put whole)) := by
  induction chunks generalizing whole with
  | nil => rfl
  | cons chunk chunks ih =>
      rw [List.foldl_cons, List.foldlM_cons, take]
      cases hput : objectScheme.put whole chunk with
      | some next =>
          rw [PrivateObject.insert_of_put hput]
          exact ih next
      | none =>
          obtain ⟨object', hobject', hconflict⟩ :=
            foldl_take_conflict (insert_conflict_of_put_none hput) chunks
          rw [hobject', Option.map_some, objectStatus, if_pos hconflict]
          rfl

/-- What is reported of the object of some chunks, if there is one. -/
def settled (crypto : Crypto) (chunks : List PrivateChunk) : Option ObjectStatus :=
  if chunks = [] then none else some (reported crypto (objectScheme.assemble chunks))

/-- **The report of an object is that of its assembled chunks.** -/
theorem foldl_take_status (chunks : List PrivateChunk) :
    (chunks.foldl take none).map (objectStatus crypto) = settled crypto chunks := by
  cases chunks with
  | nil => rfl
  | cons chunk chunks =>
      rw [settled, if_neg (List.cons_ne_nil chunk chunks), List.foldl_cons]
      exact foldl_take_ofWhole (objectScheme.start chunk) chunks

theorem foldl_take_id {id : Bytes32} {chunks : List PrivateChunk}
    (hchunks : ∀ chunk ∈ chunks, chunk.id = id) {held : Option PrivateObject}
    (hheld : ∀ object, held = some object → object.id = id) :
    ∀ object, chunks.foldl take held = some object → object.id = id := by
  induction chunks generalizing held with
  | nil => exact hheld
  | cons chunk chunks ih =>
      apply ih (fun other hmem => hchunks other (List.mem_cons_of_mem chunk hmem))
      intro object hobject
      cases held with
      | none =>
          cases hobject
          exact hchunks chunk List.mem_cons_self
      | some before =>
          cases hobject
          rw [insert_id]
          exact hheld before rfl

/-! ## The report -/

/-- The line of a report for an object. -/
def line (crypto : Crypto) (object : PrivateObject) : Bytes32 × ObjectStatus :=
  (object.id, objectStatus crypto object)

/-- The line of the object with an id. -/
theorem gather_line (chunks : List PrivateChunk) (id : Bytes32) :
    (gather chunks ∅)[id]?.map (line crypto) =
      (settled crypto (chunksOf id chunks)).map fun status => (id, status) := by
  have hfold : (gather chunks ∅)[id]? = (chunksOf id chunks).foldl take none := by
    rw [gather_getElem?, ExtTreeMap.getElem?_empty]
  rw [← foldl_take_status, hfold]
  cases hobject : (chunksOf id chunks).foldl take none with
  | none => rfl
  | some object =>
      have hid : object.id = id := foldl_take_id (fun chunk hmem => (mem_chunksOf.mp hmem).2)
        (fun _ h => by cases h) object hobject
      rw [Option.map_some, Option.map_some, Option.map_some, line, hid]

/-- The lines of a report, by id. -/
def lines (crypto : Crypto) (chunks : List PrivateChunk) :
    ExtTreeMap Bytes32 (Bytes32 × ObjectStatus) :=
  (gather chunks ∅).map fun _ object => line crypto object

theorem lines_getElem? (chunks : List PrivateChunk) (id : Bytes32) :
    (lines crypto chunks)[id]? =
      (settled crypto (chunksOf id chunks)).map fun status => (id, status) := by
  rw [lines, ExtTreeMap.getElem?_map]
  exact gather_line chunks id

/-- What a recovery and its export come to: the report of every object, or the error. -/
def outcome (crypto : Crypto) (root : Bytes32) (records : List Bytes) (observation : Observation) :
    Except ServiceError (List (Bytes32 × ObjectStatus)) := do
  let recovery ← recover crypto ⟨records, .ok observation⟩ root
  .ok (exportReport crypto recovery).objects

/-- **The outcome is the lines of the chunks that authenticate**, if there is room for them. -/
theorem outcome_eq {observation : Observation}
    (hcount : records.countP (isRejected crypto root) ≤ u64Max) :
    outcome crypto root records observation =
      if (lines crypto (authenticatedChunks crypto root records)).size ≤ maxObjects then
        .ok ((lines crypto (authenticatedChunks crypto root records)).toList.map Prod.snd)
      else .error (.message "client object capacity exceeded") := by
  have hloop := @acceptAll_eq crypto root records 0 ∅ (Nat.zero_le _)
    (by rw [Nat.zero_add]; exact hcount)
  rw [outcome, recover, hloop, lines, ExtTreeMap.size_map, ExtTreeMap.toList_map, List.map_map]
  split
  · rfl
  · rfl

theorem mem_lines {chunks : List PrivateChunk} {id : Bytes32} {status : ObjectStatus} :
    (id, status) ∈ (lines crypto chunks).toList.map Prod.snd ↔
      settled crypto (chunksOf id chunks) = some status := by
  rw [List.mem_map]
  constructor
  · rintro ⟨⟨key, value⟩, hmem, hvalue⟩
    rw [ExtTreeMap.mem_toList_iff_getElem?_eq_some, lines_getElem?, Option.map_eq_some_iff] at hmem
    obtain ⟨found, hfound, hline⟩ := hmem
    have hsame : (key, found) = (id, status) := hline.trans hvalue
    cases hsame
    exact hfound
  · intro hstatus
    refine ⟨(id, (id, status)), ?_, rfl⟩
    rw [ExtTreeMap.mem_toList_iff_getElem?_eq_some, lines_getElem?, hstatus]
    rfl

/-! ## Sets of records -/

/-- The report of one object depends on the set of its chunks only. -/
theorem settled_congr {chunks chunks' : List PrivateChunk}
    (hdiscerning : objectScheme.Discerning chunks) (hset : ∀ a, a ∈ chunks' ↔ a ∈ chunks) :
    settled crypto chunks' = settled crypto chunks := by
  have hnil : chunks' = [] ↔ chunks = [] := by
    rw [List.eq_nil_iff_forall_not_mem, List.eq_nil_iff_forall_not_mem]
    exact forall_congr' fun a => not_congr (hset a)
  rw [settled, settled, Scheme.assemble_congr hdiscerning hset]
  simp only [hnil]

theorem chunksOf_discerning {chunks : List PrivateChunk} (id : Bytes32)
    (h : objectScheme.Discerning chunks) : objectScheme.Discerning (chunksOf id chunks) :=
  h.mono fun _ hmem => (mem_chunksOf.mp hmem).1

/-- The whole report depends on the set of the chunks only. -/
theorem lines_congr {chunks chunks' : List PrivateChunk}
    (hdiscerning : objectScheme.Discerning chunks) (hset : ∀ a, a ∈ chunks' ↔ a ∈ chunks) :
    lines crypto chunks' = lines crypto chunks := by
  apply ExtTreeMap.ext_getElem?
  intro id
  have hsame : ∀ a, a ∈ chunksOf id chunks' ↔ a ∈ chunksOf id chunks := by
    intro a
    rw [mem_chunksOf, mem_chunksOf, hset]
  rw [lines_getElem?, lines_getElem?, settled_congr (chunksOf_discerning id hdiscerning) hsame]

/-- **Records that conflict are reported**, whatever else there is. -/
theorem settled_conflicted (hdistinguished : Distinguished crypto root records) {id : Bytes32}
    {a b : Bytes} (ha : a ∈ records) (hb : b ∈ records) {x y : PrivateChunk}
    (hx : authenticatedChunk crypto root a = some x)
    (hy : authenticatedChunk crypto root b = some y) (hxid : x.id = id) (hyid : y.id = id)
    (hconflict : x.header ≠ y.header ∨ (x.index = y.index ∧ a ≠ b)) :
    settled crypto (chunksOf id (authenticatedChunks crypto root records)) = some .conflicted := by
  have hxmem : x ∈ chunksOf id (authenticatedChunks crypto root records) :=
    mem_chunksOf.mpr ⟨mem_authenticatedChunks.mpr ⟨a, ha, hx⟩, hxid⟩
  have hymem : y ∈ chunksOf id (authenticatedChunks crypto root records) :=
    mem_chunksOf.mpr ⟨mem_authenticatedChunks.mpr ⟨b, hb, hy⟩, hyid⟩
  have hnone : objectScheme.assemble
      (chunksOf id (authenticatedChunks crypto root records)) = none := by
    cases hwhole : objectScheme.assemble
        (chunksOf id (authenticatedChunks crypto root records)) with
    | none => rfl
    | some whole =>
        have hcoherent := (Scheme.assemble_gathered
          (chunksOf_discerning id hdistinguished.discerning) hwhole).coherent
        rcases hconflict with hheader | ⟨hindex, hne⟩
        · exact absurd (hcoherent.header x hxmem y hymem) hheader
        · have hsame : x = y := hcoherent.place x hxmem y hymem hindex
          have hdigest : crypto.sha256 a = crypto.sha256 b := by
            rw [← authenticatedChunk_recordDigest hx, ← authenticatedChunk_recordDigest hy, hsame]
          exact absurd (hdistinguished a ha b hb (by rw [hx]; rfl) (by rw [hy]; rfl) hdigest) hne
  rw [settled, if_neg (List.ne_nil_of_mem hxmem), hnone]
  rfl

/-! ## The container -/

/-- An object is reported complete exactly when it finishes. -/
theorem objectStatus_complete {whole : Whole PrivateChunk ObjectHeader ℕ} {bytes : Bytes} :
    (∃ contentType chunks digest, objectStatus crypto (.ofWhole whole) =
      .complete bytes contentType chunks digest) ↔
        (PrivateObject.ofWhole whole).finish crypto = .ok bytes := by
  rw [objectStatus, if_neg (show ¬ (PrivateObject.ofWhole whole).conflict = true by
    intro h; cases h)]
  constructor
  · rintro ⟨contentType, chunks, digest, hstatus⟩
    split at hstatus
    · cases hstatus
    · split at hstatus
      · cases hstatus
      · next found hfound =>
          cases hstatus
          exact hfound
  · intro hfinish
    have hsize : whole.parts.size = whole.header.count :=
      (PrivateObject.finish_eq_ok.mp hfinish).1.2
    have hcomplete : isComplete (.ofWhole whole) = true := by
      show (true && whole.parts.size == whole.header.count) = true
      rw [hsize, Bool.true_and, beq_self_eq_true]
    rw [hcomplete, hfinish]
    exact ⟨_, _, _, rfl⟩

/-- A report of one line. -/
theorem lines_eq_singleton {chunks : List PrivateChunk} {id : Bytes32} {status : ObjectStatus} :
    (lines crypto chunks).toList.map Prod.snd = [(id, status)] ↔
      (∀ chunk ∈ chunks, chunk.id = id) ∧ settled crypto chunks = some status := by
  have hall : (∀ chunk ∈ chunks, chunk.id = id) → chunksOf id chunks = chunks := by
    intro hids
    rw [chunksOf, List.filter_eq_self]
    intro chunk hmem
    exact decide_eq_true (hids chunk hmem)
  constructor
  · intro hlist
    have hids : ∀ chunk ∈ chunks, chunk.id = id := by
      intro chunk hmem
      have hne : chunksOf chunk.id chunks ≠ [] :=
        List.ne_nil_of_mem (mem_chunksOf.mpr ⟨hmem, rfl⟩)
      have hline := (@mem_lines crypto chunks chunk.id _).mpr (if_neg hne)
      rw [hlist, List.mem_singleton] at hline
      exact congrArg Prod.fst hline
    have hline : (id, status) ∈ (lines crypto chunks).toList.map Prod.snd := by
      rw [hlist]
      exact List.mem_singleton_self _
    rw [mem_lines, hall hids] at hline
    exact ⟨hids, hline⟩
  · rintro ⟨hids, hstatus⟩
    have hne : chunks ≠ [] := by
      intro hnil
      rw [settled, if_pos hnil] at hstatus
      cases hstatus
    have hkeys : ∀ key, key ∈ lines crypto chunks ↔ key ∈ [id] := by
      intro key
      rw [ExtTreeMap.mem_iff_isSome_getElem?, lines_getElem?, Option.isSome_map,
        List.mem_singleton, settled]
      constructor
      · intro h
        by_contra hother
        have hnil : chunksOf key chunks = [] := by
          rw [List.eq_nil_iff_forall_not_mem]
          intro chunk hmem
          obtain ⟨hchunk, hid⟩ := mem_chunksOf.mp hmem
          exact hother (hid.symm.trans (hids chunk hchunk))
        rw [if_pos hnil] at h
        cases h
      · rintro rfl
        rw [hall hids, if_neg hne]
        rfl
    have hsize : (lines crypto chunks).size = 1 :=
      size_eq_length (by simp) hkeys
    have hlength : ((lines crypto chunks).toList.map Prod.snd).length = 1 := by
      rw [List.length_map, ExtTreeMap.length_toList, hsize]
    have hmem : (id, status) ∈ (lines crypto chunks).toList.map Prod.snd := by
      rw [mem_lines, hall hids]
      exact hstatus
    obtain ⟨only, honly⟩ := List.length_eq_one_iff.mp hlength
    rw [honly] at hmem ⊢
    rw [List.mem_singleton.mp hmem]

/-- **The strict driver and the lenient one agree**: a container recovers exactly if the report is
one line, of a complete object with the same id and the same bytes. -/
theorem recoverContainer_iff_outcome (hlawful : crypto.Lawful) (hframable : Framable records)
    (observation : Observation) (id : Bytes32) (bytes : Bytes) :
    (∃ report, recoverContainer crypto root (frame records) = .ok report ∧ report.id = id ∧
      report.bytes = bytes) ↔
    ∃ contentType chunks digest, outcome crypto root records observation =
      .ok [(id, .complete bytes contentType chunks digest)] := by
  have hcount : records.countP (isRejected crypto root) ≤ u64Max := by
    have hle : records.countP (isRejected crypto root) ≤ records.length := List.countP_le_length
    have hlength : records.length ≤ u32Max := hframable.count
    have hmax : u32Max ≤ u64Max := by decide
    omega
  rw [outcome_eq hcount]
  constructor
  · rintro ⟨report, hreport, rfl, rfl⟩
    obtain ⟨whole, hwhole, bytes, hfinish, rfl⟩ :=
      (recoverContainer_frame hlawful hframable).mp hreport
    obtain ⟨contentType, chunks, digest, hstatus⟩ := objectStatus_complete.mpr hfinish
    refine ⟨contentType, chunks, digest, ?_⟩
    have hne : authenticatedChunks crypto root records ≠ [] := by
      intro hnil
      rw [hnil] at hwhole
      cases hwhole
    have hlines : (lines crypto (authenticatedChunks crypto root records)).toList.map Prod.snd =
        [(whole.header.id, .complete bytes contentType chunks digest)] := by
      rw [lines_eq_singleton, settled, if_neg hne, hwhole, ← hstatus]
      refine ⟨?_, rfl⟩
      intro chunk hmem
      exact congrArg ObjectHeader.id (Scheme.assemble_header hwhole chunk hmem)
    have hsize : (lines crypto (authenticatedChunks crypto root records)).size = 1 := by
      have hlength := congrArg List.length hlines
      rwa [List.length_map, ExtTreeMap.length_toList] at hlength
    rw [if_pos (by rw [hsize]; decide), hlines]
    rfl
  · rintro ⟨contentType, chunks, digest, houtcome⟩
    split at houtcome
    · obtain ⟨hids, hsettled⟩ := lines_eq_singleton.mp (Except.ok.inj houtcome)
      rw [settled] at hsettled
      split at hsettled
      · cases hsettled
      · next hne =>
          cases hwhole : objectScheme.assemble (authenticatedChunks crypto root records) with
          | none =>
              rw [hwhole] at hsettled
              cases hsettled
          | some whole =>
              rw [hwhole] at hsettled
              have hfinish := objectStatus_complete.mp
                ⟨contentType, chunks, digest, Option.some.inj hsettled⟩
              obtain ⟨chunk, hchunk⟩ := List.exists_mem_of_ne_nil _ hne
              refine ⟨_, (recoverContainer_frame hlawful hframable).mpr
                ⟨whole, hwhole, bytes, hfinish, rfl⟩, ?_, rfl⟩
              rw [← hids chunk hchunk]
              exact (congrArg ObjectHeader.id (Scheme.assemble_header hwhole chunk hchunk)).symm
    · cases houtcome

/-! ## Both drivers, every order -/

/-- There is room for the objects and a line for each of them, or the capacity error. -/
theorem outcome_lines (hcount : records.countP (isRejected crypto root) ≤ u64Max)
    (observation : Observation) :
    outcome crypto root records observation =
      .error (.message "client object capacity exceeded") ∨
    ∃ report, outcome crypto root records observation = .ok report ∧
      ∀ id, (∃ status, (id, status) ∈ report) ↔
        ∃ record ∈ records, ∃ chunk, authenticatedChunk crypto root record = some chunk ∧
          chunk.id = id := by
  rw [outcome_eq hcount]
  split
  · refine Or.inr ⟨_, rfl, ?_⟩
    intro id
    simp only [mem_lines]
    constructor
    · rintro ⟨status, hstatus⟩
      rw [settled] at hstatus
      split at hstatus
      · cases hstatus
      · next hne =>
          obtain ⟨chunk, hmem⟩ := List.exists_mem_of_ne_nil _ hne
          obtain ⟨hchunk, hid⟩ := mem_chunksOf.mp hmem
          obtain ⟨record, hrecord, hauthenticated⟩ := mem_authenticatedChunks.mp hchunk
          exact ⟨record, hrecord, chunk, hauthenticated, hid⟩
    · rintro ⟨record, hrecord, chunk, hauthenticated, hid⟩
      have hmem : chunk ∈ chunksOf id (authenticatedChunks crypto root records) :=
        mem_chunksOf.mpr ⟨mem_authenticatedChunks.mpr ⟨record, hrecord, hauthenticated⟩, hid⟩
      exact ⟨_, if_neg (List.ne_nil_of_mem hmem)⟩
  · exact Or.inl rfl

/-- **Recovery of many objects.** Unless the counter of rejected records overflows, the outcome is
the capacity error or one line for each object that authenticates. It depends on the set of the
records that authenticate, a line on those of its object, an object that has seen a conflict is
reported so, and a container recovers exactly if there is one line, of a complete object. -/
theorem recovery_independent (crypto : Crypto) (hlawful : crypto.Lawful) (root : Bytes32)
    (records others : List Bytes) (observation : Observation)
    (hdistinguished : Distinguished crypto root records)
    (hcount : records.countP (isRejected crypto root) ≤ u64Max)
    (hcount' : others.countP (isRejected crypto root) ≤ u64Max) :
    (outcome crypto root records observation =
        .error (.message "client object capacity exceeded") ∨
      ∃ report, outcome crypto root records observation = .ok report ∧
        ∀ id, (∃ status, (id, status) ∈ report) ↔
          ∃ record ∈ records, ∃ chunk, authenticatedChunk crypto root record = some chunk ∧
            chunk.id = id) ∧
    ((∀ record, (authenticatedChunk crypto root record).isSome →
        (record ∈ others ↔ record ∈ records)) →
      outcome crypto root others observation = outcome crypto root records observation) ∧
    (∀ id report report', outcome crypto root records observation = .ok report →
      outcome crypto root others observation = .ok report' →
      (∀ record chunk, authenticatedChunk crypto root record = some chunk → chunk.id = id →
        (record ∈ others ↔ record ∈ records)) →
      ∀ status, (id, status) ∈ report' ↔ (id, status) ∈ report) ∧
    (∀ id report, outcome crypto root records observation = .ok report →
      (∃ a ∈ records, ∃ b ∈ records, ∃ x y, authenticatedChunk crypto root a = some x ∧
        authenticatedChunk crypto root b = some y ∧ x.id = id ∧ y.id = id ∧
          (x.header ≠ y.header ∨ (x.index = y.index ∧ a ≠ b))) →
      ∀ status, (id, status) ∈ report ↔ status = .conflicted) ∧
    (Framable records → ∀ id bytes,
      ((∃ report, recoverContainer crypto root (frame records) = .ok report ∧ report.id = id ∧
        report.bytes = bytes) ↔
      ∃ contentType chunks digest, outcome crypto root records observation =
        .ok [(id, .complete bytes contentType chunks digest)])) := by
  have hdiscerning := hdistinguished.discerning
  have hreport : ∀ {list : List Bytes} {report}, list.countP (isRejected crypto root) ≤ u64Max →
      outcome crypto root list observation = .ok report →
        report = (lines crypto (authenticatedChunks crypto root list)).toList.map Prod.snd := by
    intro list report hlist h
    rw [outcome_eq hlist] at h
    split at h
    · exact (Except.ok.inj h).symm
    · cases h
  refine ⟨outcome_lines hcount observation, ?_, ?_, ?_,
    fun hframable id bytes => recoverContainer_iff_outcome hlawful hframable observation id bytes⟩
  · intro hsame
    have hset : ∀ chunk, chunk ∈ authenticatedChunks crypto root others ↔
        chunk ∈ authenticatedChunks crypto root records :=
      authenticatedChunks_congr fun record chunk hauth => hsame record (by rw [hauth]; rfl)
    rw [outcome_eq hcount, outcome_eq hcount', lines_congr hdiscerning hset]
  · intro id report report' hok hok' hsame status
    rw [hreport hcount hok, hreport hcount' hok', mem_lines, mem_lines]
    have hset : ∀ a, a ∈ chunksOf id (authenticatedChunks crypto root others) ↔
        a ∈ chunksOf id (authenticatedChunks crypto root records) := by
      intro a
      simp only [mem_chunksOf, mem_authenticatedChunks]
      constructor
      · rintro ⟨⟨record, hrecord, hauth⟩, hid⟩
        exact ⟨⟨record, (hsame record a hauth hid).mp hrecord, hauth⟩, hid⟩
      · rintro ⟨⟨record, hrecord, hauth⟩, hid⟩
        exact ⟨⟨record, (hsame record a hauth hid).mpr hrecord, hauth⟩, hid⟩
    rw [settled_congr (chunksOf_discerning id hdiscerning) hset]
  · rintro id report hok ⟨a, ha, b, hb, x, y, hx, hy, hxid, hyid, hconflict⟩ status
    rw [hreport hcount hok, mem_lines,
      settled_conflicted hdistinguished ha hb hx hy hxid hyid hconflict, Option.some.injEq]
    exact eq_comm

/-- What a source that reads a directory reports. -/
def sampleObservation : Observation :=
  ⟨.directory, .directory "records", .localBytes, 0⟩

/-- A note, and the same note twice. -/
theorem recovery_independent_note :
    outcome Crypto.standard Container.Sample.rootKey
      (Container.Sample.sealedRecords Container.Sample.note ++
        Container.Sample.sealedRecords Container.Sample.note) sampleObservation =
    outcome Crypto.standard Container.Sample.rootKey
      (Container.Sample.sealedRecords Container.Sample.note) sampleObservation := by
  have hseal : sealRecords Crypto.standard Container.Sample.rootKey Container.Sample.note .text
      Container.Sample.zeros () =
        .ok (Container.Sample.sealedRecords Container.Sample.note, ()) :=
    Container.Sample.sealedRecords_eq (by decide) (by decide)
  obtain ⟨sealing, hsealed⟩ := sealRecords_sealed hseal
  have hcount : sealing.count = 1 := by
    have hceil := (chunkCount_eq_ok.mp hsealed.sound.counted).2.2
    rw [hceil, hsealed.total]
    rfl
  obtain ⟨record, hrecord⟩ :
      ∃ record, Container.Sample.sealedRecords Container.Sample.note = [record] :=
    List.length_eq_one_iff.mp (by rw [hsealed.length, hcount])
  have hsmall : ∀ list : List Bytes, list.length ≤ 2 →
      list.countP (isRejected Crypto.standard Container.Sample.rootKey) ≤ u64Max :=
    fun list hlength => Nat.le_trans List.countP_le_length
      (Nat.le_trans hlength (by decide))
  rw [hrecord]
  refine (recovery_independent Crypto.standard Crypto.standard_lawful Container.Sample.rootKey
    [record] ([record] ++ [record]) sampleObservation ?_ (hsmall _ (by simp))
    (hsmall _ (by simp))).2.1 ?_
  · intro a ha b hb _ _ _
    rw [List.mem_singleton.mp ha, List.mem_singleton.mp hb]
  · intro other _
    rw [List.mem_append, or_self]

/-! ## The counter -/

/-- Rejected records exhaust the counter. -/
theorem acceptAll_overflow {record : Bytes} (hnone : authenticatedChunk crypto root record = none)
    (hrejected : isRejected crypto root record = true) {count rejected : ℕ} {objects : Objects}
    (h : u64Max < rejected + count) (hle : rejected ≤ u64Max) :
    ∃ error, acceptAll crypto root (List.replicate count record) rejected objects =
      .error error := by
  induction count generalizing rejected with
  | zero => omega
  | succ count ih =>
      rw [List.replicate_succ, acceptAll, acceptRecord_of_none hnone, hrejected, Except.ok_bind]
      by_cases hroom : rejected + 1 ≤ u64Max
      · have hone : countRejected rejected 1 "rejected record count overflow" =
            .ok (rejected + 1) := by
          rw [countRejected, contextService_eq_ok, checkedAdd_eq_some]
          exact ⟨hroom, rfl⟩
        simp only [if_true, hone, Except.ok_bind]
        exact ih (by omega) hroom
      · have hfull : checkedAdd rejected 1 = none := if_neg hroom
        simp only [if_true, countRejected, hfull]
        exact ⟨_, rfl⟩

/-- **Repeating a record may end a recovery**: `2 ^ 64` rejected records overflow their counter. -/
theorem not_recovery_independent :
    ¬ ∀ (crypto : Crypto) (root : Bytes32) (records others : List Bytes)
      (observation : Observation), crypto.Lawful → Distinguished crypto root records →
      (∀ record, record ∈ others ↔ record ∈ records) →
      outcome crypto root others observation = outcome crypto root records observation := by
  intro h
  have hrejected : isRejected Crypto.standard Container.Sample.rootKey magic = true := by decide
  have hnone : authenticatedChunk Crypto.standard Container.Sample.rootKey magic = none := by
    decide
  obtain ⟨error, herror⟩ := @acceptAll_overflow Crypto.standard Container.Sample.rootKey magic
    hnone hrejected (u64Max + 1) 0 ∅ (by omega) (Nat.zero_le _)
  have hsame := h Crypto.standard Container.Sample.rootKey [magic]
    (List.replicate (u64Max + 1) magic) sampleObservation Crypto.standard_lawful ?_ ?_
  · rw [outcome, recover, herror] at hsame
    cases hsame
  · intro a ha b hb _ _ _
    rw [List.mem_singleton.mp ha, List.mem_singleton.mp hb]
  · intro record
    rw [List.mem_replicate, List.mem_singleton]
    exact ⟨fun hmem => hmem.2, fun heq => ⟨Nat.succ_ne_zero _, heq⟩⟩

end Urma.Runtime.Backend
