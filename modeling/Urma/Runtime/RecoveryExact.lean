import Urma.Runtime.RecoveryParts

/-!
# Recovery is sound against any source and complete for an honest one

The runs of `reconstruct` against every environment: how often each record is asked for, what a
returned object is, and that a source that serves the records of an accepted publication gets the
published bytes back.
-/

namespace Urma.Runtime

variable {sha256 : Bytes → Bytes32}

/-- The payloads of a canonical publication are those of its data parts. -/
theorem CanonicalAs.payloads_eq {records data leaves : List Item} {count : ℕ} {last : Item}
    {manifest : RootManifest} {geometry : Geometry}
    (h : CanonicalAs sha256 records count data leaves last manifest geometry) :
    payloads records = payloads data := by
  have hleaves : payloads leaves = [] := by
    apply List.flatMap_eq_nil_iff.mpr
    intro item hitem
    obtain ⟨j, hj⟩ := List.mem_iff_getElem?.mp hitem
    rw [Item.payload, h.leaf j item hj]
  have hroot : payloads [last] = [] := by
    show last.payload ++ [] = []
    rw [Item.payload, h.rootRecord]
    rfl
  rw [h.layout, payloads_append, payloads_append, hleaves, hroot, List.append_nil, List.append_nil]

namespace Reconstruct

open Lib Lib.Layout Program ManifestInventory

variable {limits : RecoveryLimits} {root : VerifiedRecord sha256}

/-- As long as attempts are left before every fetch, there are no more fetches than attempts. -/
theorem fetchesOf_le {calls : Calls sha256}
    (hguard : ∀ before request answer after, calls = before ++ ⟨request, answer⟩ :: after →
      fetchGuard limits before request) (txid : Txid) :
    fetchesOf txid calls ≤ attemptsOf limits := by
  induction calls using List.reverseRecOn with
  | nil => exact Nat.zero_le _
  | append_singleton calls call ih =>
      obtain ⟨request, answer⟩ := call
      have hbefore := ih fun before request' answer' after hsplit =>
        hguard before request' answer' (after ++ [⟨request, answer⟩]) (by
          rw [hsplit, List.append_assoc]
          rfl)
      rw [fetchesOf_append]
      cases hasks : asksFor txid (⟨request, answer⟩ : Call Request (Answer sha256)) with
      | false =>
          have hnone : fetchesOf txid [(⟨request, answer⟩ : Call Request (Answer sha256))] = 0 := by
            rw [fetchesOf, List.countP_singleton, hasks]
            rfl
          omega
      | true =>
          have hone : fetchesOf txid [(⟨request, answer⟩ : Call Request (Answer sha256))] = 1 := by
            rw [fetchesOf, List.countP_singleton, hasks]
            rfl
          have hlast := hguard calls request answer [] rfl
          cases request with
          | fetch asked rejected =>
              have htxid : asked.reference.txid = txid := eq_of_beq hasks
              have hlt : fetchesOf asked.reference.txid calls < attemptsOf limits := hlast
              rw [htxid] at hlt
              omega
          | prefetch requests => cases hasks
          | expired => cases hasks
          | storage => cases hasks

theorem Honest.subset {items more : List Item} {author : XOnlyPublicKey} {calls : Calls sha256}
    (h : Honest limits more author calls) (hsubset : items ⊆ more) :
    Honest limits items author calls :=
  ⟨h.clock, h.storage, fun before reference rejected answer after hsplit item hitem =>
    h.serves before reference rejected answer after hsplit item (hsubset hitem)⟩

/-- An accepted publication whose root is asked for is an object to recover. -/
theorem CanonicalAs.expected {records data leaves : List Item} {count : ℕ} {last : Item}
    {manifest : RootManifest} {geometry : Geometry}
    (h : CanonicalAs sha256 records count data leaves last manifest geometry)
    (hdistinct : (records.map Prod.snd).Nodup) (hrecord : root.record = last.1)
    (htxid : root.txid = last.2) (hbytes : (payloads records).length ≤ limits.maxPayloadBytes)
    (hnodes : count ≤ limits.maxNodes) : Expected limits root data leaves manifest geometry := by
  have hlength := h.dataValid.2
  obtain ⟨_, hgeometry⟩ := Geometry.new_eq_ok.mp h.rootGeometry
  refine ⟨?_, h.rootGeometry, h.partCount, h.part, h.leafCount, h.leaf, h.payloadHash, hlength,
    h.entries, ?_, ?_, ?_⟩
  · rw [VerifiedRecord.decode, hrecord]
    exact h.rootRecord
  · rw [h.layout, List.map_append, List.map_append] at hdistinct
    have hperm : (data.map Prod.snd ++ (leaves.map Prod.snd ++ [last].map Prod.snd)).Perm
        (root.txid :: (leaves.map Prod.snd ++ data.map Prod.snd)) := by
      rw [htxid, ← List.append_assoc]
      have hswap : (data.map Prod.snd ++ leaves.map Prod.snd).Perm
          (leaves.map Prod.snd ++ data.map Prod.snd) := List.perm_append_comm
      exact List.perm_append_comm.trans (hswap.cons last.2)
    exact hperm.nodup hdistinct
  · rw [h.payloads_eq, hlength] at hbytes
    rw [hgeometry]
    exact hbytes
  · rw [← h.nodes]
    exact hnodes

/-- **Recovery is sound and complete.** Against every source, a record is asked for no more often
than the budget allows, and an object that is returned was recovered from records served under the
references that list them. A source that serves, within the attempts, the records of a publication
that was accepted gets its data back. -/
theorem recovery_exact (sha256 : Bytes → Bytes32) (root : VerifiedRecord sha256)
    (limits : RecoveryLimits)
    (environment : Calls sha256 → (request : Request) → Answer sha256 request) :
    (∀ txid, fetchesOf txid (run environment [] (reconstruct sha256 root limits)).1 ≤
      max 1 limits.attempts) ∧
    (∀ object, (run environment [] (reconstruct sha256 root limits)).2 = .ok object →
      ∃ geometry leaves parts, RecoveredFrom root
        (run environment [] (reconstruct sha256 root limits)).1 object geometry leaves parts) ∧
    ∀ (records : List Item) (count : ℕ) (last : Item),
      Order.publish sha256 records count = .ok () → Publication.CollisionFree sha256 records →
      (records.map Prod.snd).Nodup → records.getLast? = some last →
      root.record = last.1 → root.txid = last.2 →
      (payloads records).length ≤ limits.maxPayloadBytes → count ≤ limits.maxNodes →
      Honest limits records root.author
        (run environment [] (reconstruct sha256 root limits)).1 →
      ∃ object, (run environment [] (reconstruct sha256 root limits)).2 = .ok object ∧
        object.payload = payloads records := by
  have htrace := @run_trace Request (Answer sha256) RecoveryError RecoveredObject []
    (reconstruct sha256 root limits) environment
  have hholds := @reconstruct_recovers sha256 limits root
  have hfinished := htrace.finished hholds fun _ _ _ => trivial
  rw [List.nil_append] at hfinished
  refine ⟨?_, ?_, ?_⟩
  · intro txid
    have hguarded := htrace.guarded hholds fun _ _ _ => trivial
    simp only [List.nil_append] at hguarded
    rw [Nat.max_comm]
    exact fetchesOf_le hguarded txid
  · intro object hobject
    rw [hobject] at hfinished
    exact hfinished
  · intro records count last hpublish hfree hdistinct hlast hrecord htxid hbytes hnodes hhonest
    have hcanonical : ∃ data leaves root manifest geometry,
        CanonicalAs sha256 records count data leaves root manifest geometry := by
      rw [Order.publish, Except.bind_eq_ok] at hpublish
      obtain ⟨order, hrun, hfinish⟩ := hpublish
      obtain ⟨q, hitems, hq, rfl⟩ := (Publication.run_new_eq_ok hfree).mp hrun
      exact canonical_iff.mp ⟨q, hitems, hq, hfinish⟩
    obtain ⟨data, leaves, other, manifest, geometry, h⟩ := hcanonical
    have hother : other = last := by
      rw [h.layout, ← List.append_assoc, List.getLast?_concat] at hlast
      exact Option.some.inj hlast
    rw [hother] at h
    have hexpected := CanonicalAs.expected h hdistinct hrecord htxid hbytes hnodes
    have hserved : Honest limits (leaves ++ data) root.author
        (run environment [] (reconstruct sha256 root limits)).1 := by
      apply hhonest.subset
      intro item hitem
      rw [h.layout]
      rcases List.mem_append.mp hitem with hleaf | hdata
      · exact List.mem_append_right _ (List.mem_append_left _ hleaf)
      · exact List.mem_append_left _ hdata
    cases hresult : (run environment [] (reconstruct sha256 root limits)).2 with
    | error error =>
        rw [hresult] at hfinished
        exact absurd hserved (hfinished data leaves manifest geometry hexpected)
    | ok object =>
        rw [hresult] at hfinished
        obtain ⟨geometry', leaves', parts, hrecovered⟩ := hfinished
        obtain ⟨hsame, hgeometry⟩ := hexpected.manifest_eq hrecovered.decode
          hrecovered.rootGeometry
        rw [hsame, hgeometry] at hexpected
        refine ⟨object, rfl, ?_⟩
        have hjoined := hrecovered.assembled.joined_eq hrecovered.gathered hexpected hserved
        rw [hrecovered.payload, hjoined, hrecovered.partCount, ← hexpected.partCount,
          List.take_length, h.payloads_eq]

/-! ## A recovered object -/

end Reconstruct

namespace Sample

open Reconstruct Lib.Program

/-- The author of the published object. -/
def author : XOnlyPublicKey := ⟨Vector.replicate 32 7⟩

def verifiedOf (item : Item) : VerifiedRecord Lib.Sha256.hash :=
  ⟨item.2, author, Lib.Sha256.hash item.1, item.1, rfl⟩

/-- A source that knows the records of the object. -/
def served (txid : Txid) : Except FetchError (Candidate Lib.Sha256.hash) :=
  match object.find? fun item => item.2 == txid with
  | some item => .ok ⟨"node", verifiedOf item⟩
  | none => .error .unavailable

def objectSource (_ : Reconstruct.Calls Lib.Sha256.hash) :
    (request : Reconstruct.Request) → Reconstruct.Answer Lib.Sha256.hash request
  | .fetch request _ => served request.reference.txid
  | .prefetch _ => ()
  | .expired => false
  | .storage => .ok ()

def limits : RecoveryLimits := ⟨1000, 10, 2⟩

theorem served_object : ∀ item ∈ object, served item.2 = .ok ⟨"node", verifiedOf item⟩ := by
  intro item hitem
  simp only [object, List.mem_cons, List.not_mem_nil, or_false] at hitem
  rcases hitem with rfl | rfl | rfl
  · rfl
  · rfl
  · rfl

theorem objectSource_honest :
    Honest limits object author
      (run objectSource [] (reconstruct Lib.Sha256.hash (verifiedOf rootItem) limits)).1 := by
  have hanswers := @run_answers Reconstruct.Request (Reconstruct.Answer Lib.Sha256.hash) RecoveryError RecoveredObject []
    (reconstruct Lib.Sha256.hash (verifiedOf rootItem) limits) objectSource
  refine ⟨?_, ?_, ?_⟩
  · intro answer hmem
    obtain ⟨before, after, hsplit⟩ := List.append_of_mem hmem
    exact hanswers before .expired answer after hsplit
  · intro answer hmem
    obtain ⟨before, after, hsplit⟩ := List.append_of_mem hmem
    exact hanswers before .storage answer after hsplit
  · intro before reference rejected answer after hsplit item hitem hreference
    have hanswer : answer = served reference.txid :=
      hanswers before (.fetch ⟨reference⟩ rejected) answer after hsplit
    have hserves : Serves item author answer := by
      rw [hanswer, hreference]
      exact ⟨_, served_object item hitem, rfl, rfl, rfl⟩
    exact ⟨Or.inl hserves, fun _ => hserves⟩

end Sample

/-- The object of one part is recovered. -/
theorem Reconstruct.recovery_exact_object :
    ∃ object, (Lib.Program.run Sample.objectSource []
      (reconstruct Lib.Sha256.hash (Sample.verifiedOf Sample.rootItem) Sample.limits)).2 =
        .ok object ∧ object.payload = payloads Sample.object := by
  have haccepted : Order.publish Lib.Sha256.hash Sample.object 3 = .ok () := by decide +kernel
  have hdistinct : (Sample.object.map Prod.snd).Nodup := by decide +kernel
  have hbytes : (payloads Sample.object).length ≤ Sample.limits.maxPayloadBytes := by
    decide +kernel
  exact (Reconstruct.recovery_exact Lib.Sha256.hash (Sample.verifiedOf Sample.rootItem)
    Sample.limits Sample.objectSource).2.2 Sample.object 3 Sample.rootItem haccepted
      Sample.object_collisionFree hdistinct rfl rfl rfl hbytes (by decide)
      Sample.objectSource_honest

end Urma.Runtime
