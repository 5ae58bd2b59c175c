import Urma.Runtime.Canonical
import Urma.Runtime.Reconstruct

/-!
# The source of a recovery

How often a source is asked for a record, what it means that it serves an object, and what
fetching one record comes to: a record that was served under the reference asked for, or a failure
that an honest source does not cause.
-/

namespace Urma.Runtime.Reconstruct

open Lib Lib.Layout Program

variable {sha256 : Bytes → Bytes32}

/-! ## Asking -/

/-- Whether a call asks the source for a transaction. -/
def asksFor (txid : Txid) : Call Request (Answer sha256) → Bool
  | ⟨.fetch request _, _⟩ => request.reference.txid == txid
  | _ => false

/-- How often the source has been asked for a transaction. -/
def fetchesOf (txid : Txid) (calls : Calls sha256) : ℕ :=
  calls.countP (asksFor txid)

/-- The attempts of a budget. -/
def attemptsOf (limits : RecoveryLimits) : ℕ :=
  max limits.attempts 1

/-- Another fetch is made only while attempts are left. -/
def fetchGuard (limits : RecoveryLimits) (calls : Calls sha256) : Request → Prop
  | .fetch request _ => fetchesOf request.reference.txid calls < attemptsOf limits
  | _ => True

theorem fetchesOf_append (txid : Txid) (calls more : Calls sha256) :
    fetchesOf txid (calls ++ more) = fetchesOf txid calls + fetchesOf txid more :=
  List.countP_append

/-- The calls only grow, and none of those added asks for a transaction out of `asked`. -/
def Asks (asked : Txid → Prop) (calls calls' : Calls sha256) : Prop :=
  ∃ more, calls' = calls ++ more ∧ ∀ txid, ¬asked txid → fetchesOf txid more = 0

variable {calls calls' : Calls sha256} {asked : Txid → Prop}

theorem Asks.refl (calls : Calls sha256) : Asks asked calls calls :=
  ⟨[], (List.append_nil _).symm, fun _ _ => rfl⟩

theorem Asks.trans {a b c : Calls sha256} (h : Asks asked a b) (h' : Asks asked b c) :
    Asks asked a c := by
  obtain ⟨more, rfl, hmore⟩ := h
  obtain ⟨rest, rfl, hrest⟩ := h'
  refine ⟨more ++ rest, List.append_assoc _ _ _, ?_⟩
  intro txid htxid
  rw [fetchesOf_append, hmore txid htxid, hrest txid htxid]

theorem Asks.weaken {more : Txid → Prop} (h : Asks asked calls calls')
    (hmore : ∀ txid, asked txid → more txid) : Asks more calls calls' := by
  obtain ⟨rest, hrest, hasks⟩ := h
  exact ⟨rest, hrest, fun txid htxid => hasks txid fun hasked => htxid (hmore txid hasked)⟩

theorem Asks.fetchesOf_eq (h : Asks asked calls calls') {txid : Txid} (htxid : ¬asked txid) :
    fetchesOf txid calls' = fetchesOf txid calls := by
  obtain ⟨more, rfl, hmore⟩ := h
  rw [fetchesOf_append, hmore txid htxid, Nat.add_zero]

theorem Asks.subset (h : Asks asked calls calls') : calls ⊆ calls' := by
  obtain ⟨more, rfl, _⟩ := h
  exact List.subset_append_left _ _

/-- A call that is no fetch. -/
theorem asks_other {request : Request} {answer : Answer sha256 request}
    (h : ∀ txid, asksFor txid ⟨request, answer⟩ = false) :
    Asks asked calls (calls ++ [⟨request, answer⟩]) := by
  refine ⟨[⟨request, answer⟩], rfl, ?_⟩
  intro txid _
  rw [fetchesOf, List.countP_singleton, h txid]
  rfl

/-- A fetch. -/
theorem asks_fetch {reference : ChildReference} {rejected : List String}
    {answer : Answer sha256 (.fetch ⟨reference⟩ rejected)} :
    Asks (· = reference.txid) calls (calls ++ [⟨.fetch ⟨reference⟩ rejected, answer⟩]) := by
  refine ⟨[⟨.fetch ⟨reference⟩ rejected, answer⟩], rfl, ?_⟩
  intro txid htxid
  rw [fetchesOf, List.countP_singleton]
  have hne : (reference.txid == txid) = false := beq_false_of_ne (Ne.symm htxid)
  show (if (reference.txid == txid) = true then 1 else 0) = 0
  rw [hne]
  rfl

theorem fetchesOf_fetch {reference : ChildReference} {rejected : List String}
    {answer : Answer sha256 (.fetch ⟨reference⟩ rejected)} :
    fetchesOf reference.txid (calls ++ [⟨.fetch ⟨reference⟩ rejected, answer⟩]) =
      fetchesOf reference.txid calls + 1 := by
  have hone : asksFor reference.txid ⟨.fetch ⟨reference⟩ rejected, answer⟩ = true :=
    beq_self_eq_true reference.txid
  rw [fetchesOf_append]
  show _ + List.countP _ _ = _
  rw [List.countP_singleton, hone]
  rfl

/-! ## What is served -/

/-- The source has answered a fetch of the reference with the record. -/
def Served (calls : Calls sha256) (reference : ChildReference)
    (record : VerifiedRecord sha256) : Prop :=
  ∃ rejected origin, ⟨.fetch ⟨reference⟩ rejected, .ok ⟨origin, record⟩⟩ ∈ calls

/-- A record that may be used for a reference: it was served for it, has the transaction and the
hash the reference names, and is the author's. -/
structure Used (calls : Calls sha256) (author : XOnlyPublicKey) (reference : ChildReference)
    (record : VerifiedRecord sha256) : Prop where
  served : Served calls reference record
  reference : record.reference = reference
  author : record.author = author

theorem Used.grow {author : XOnlyPublicKey} {reference : ChildReference}
    {record : VerifiedRecord sha256} (h : Used calls author reference record)
    (hcalls : calls ⊆ calls') : Used calls' author reference record := by
  obtain ⟨⟨rejected, origin, hmem⟩, hreference, hauthor⟩ := h
  exact ⟨⟨rejected, origin, hcalls hmem⟩, hreference, hauthor⟩

/-- An answer that serves a published record. -/
def Serves (item : Item) (author : XOnlyPublicKey)
    (answer : Except FetchError (Candidate sha256)) : Prop :=
  ∃ candidate, answer = .ok candidate ∧ candidate.record.txid = item.2 ∧
    candidate.record.record = item.1 ∧ candidate.record.author = author

/-- An answer after which the source may be asked again: a failure, or a candidate that is
rejected, but not one of an origin that was rejected before. -/
def Retries (item : Item) (rejected : List String) :
    Except FetchError (Candidate sha256) → Prop
  | .ok candidate => candidate.record.txid ≠ item.2 ∧ candidate.origin ∉ rejected
  | .error (.rejected origin _) => origin ∉ rejected
  | .error (.source _) => True
  | .error .unavailable => False

/-- **A source that eventually serves some records within the attempts.** Each answer about one
of them serves it or lets the source be asked again, and the last attempt serves it at the latest;
the deadline does not pass and the storage works. -/
structure Honest (limits : RecoveryLimits) (items : List Item) (author : XOnlyPublicKey)
    (calls : Calls sha256) : Prop where
  clock : ∀ answer, ⟨.expired, answer⟩ ∈ calls → answer = false
  storage : ∀ answer, ⟨.storage, answer⟩ ∈ calls → answer = .ok ()
  serves : ∀ before reference rejected answer after,
    calls = before ++ ⟨.fetch ⟨reference⟩ rejected, answer⟩ :: after →
      ∀ item ∈ items, reference = item.reference sha256 →
        (Serves item author answer ∨ Retries item rejected answer) ∧
          (fetchesOf reference.txid before + 1 = attemptsOf limits → Serves item author answer)

variable {limits : RecoveryLimits} {items : List Item} {author : XOnlyPublicKey}
  {reference : ChildReference} {item : Item}

/-- Honesty is a matter of every call on its own. -/
theorem Honest.before (h : Honest limits items author calls') (hcalls : calls <+: calls') :
    Honest limits items author calls := by
  obtain ⟨more, rfl⟩ := hcalls
  refine ⟨?_, ?_, ?_⟩
  · intro answer hmem
    exact h.clock answer (List.mem_append_left _ hmem)
  · intro answer hmem
    exact h.storage answer (List.mem_append_left _ hmem)
  · intro before reference rejected answer after hsplit
    apply h.serves before reference rejected answer (after ++ more)
    rw [hsplit, List.append_assoc, List.cons_append]

/-- What an honest source serves under the reference of a record is the record. -/
theorem Honest.record_eq (h : Honest limits items author calls) (hitem : item ∈ items)
    (hreference : reference = item.reference sha256) {record : VerifiedRecord sha256}
    (hserved : Served calls reference record) (htxid : record.txid = reference.txid) :
    record.record = item.1 ∧ record.author = author := by
  obtain ⟨rejected, origin, hmem⟩ := hserved
  obtain ⟨before, after, hsplit⟩ := List.append_of_mem hmem
  obtain ⟨hanswer, _⟩ := h.serves before reference rejected _ after hsplit item hitem hreference
  rcases hanswer with ⟨candidate, hcandidate, _, hrecord, hauthor⟩ | ⟨hne, _⟩
  · cases hcandidate
    exact ⟨hrecord, hauthor⟩
  · rw [hreference] at htxid
    exact absurd htxid hne

/-! ## The object to recover -/

/-- The records of a published object under a root, and limits that admit it. -/
structure Expected (limits : RecoveryLimits) (root : VerifiedRecord sha256) (data leaves : List Item)
    (manifest : RootManifest) (geometry : Geometry) : Prop where
  decode : root.decode = .ok (.root manifest)
  rootGeometry : Geometry.new manifest.length = .ok geometry
  partCount : data.length = geometry.parts
  part : ∀ (i : ℕ) (item : Item), data[i]? = some item → ∃ payload,
    MultipartRecord.decode item.1 = .ok (.data ⟨i, payload⟩) ∧
      geometry.partLength i = .ok payload.length
  leafCount : leaves.length = geometry.leaves
  leaf : ∀ (j : ℕ) (item : Item), leaves[j]? = some item →
    MultipartRecord.decode item.1 = .ok (.leaf ⟨j,
      ((references sha256 data).drop (j * Geometry.fanout)).take Geometry.fanout⟩)
  payloadHash : manifest.payloadHash = sha256 (payloads data)
  length : (payloads data).length = manifest.length
  entries : manifest.entries = references sha256 leaves
  distinct : (root.txid :: (leaves.map Prod.snd ++ data.map Prod.snd)).Nodup
  bytes : geometry.length ≤ limits.maxPayloadBytes
  nodes : geometry.nodes ≤ limits.maxNodes

/-- The calls of a failed run: no honest source of the object below the root made them. -/
def Fault (limits : RecoveryLimits) (root : VerifiedRecord sha256) (calls : Calls sha256) : Prop :=
  ∀ data leaves manifest geometry, Expected limits root data leaves manifest geometry →
    ¬Honest limits (leaves ++ data) root.author calls

variable {root : VerifiedRecord sha256}

/-- The reference is one of a record of the object, as long as the source is honest. -/
def Refers (limits : RecoveryLimits) (root : VerifiedRecord sha256) (calls : Calls sha256)
    (reference : ChildReference) : Prop :=
  ∀ data leaves manifest geometry, Expected limits root data leaves manifest geometry →
    Honest limits (leaves ++ data) root.author calls →
      ∃ item ∈ leaves ++ data, reference = item.reference sha256

theorem Refers.after (h : Refers limits root calls reference) (hcalls : calls <+: calls') :
    Refers limits root calls' reference :=
  fun data leaves manifest geometry hexpected hhonest =>
    h data leaves manifest geometry hexpected (hhonest.before hcalls)

variable (limits root) in
/-- The program asks for a record only while attempts are left; what it returns satisfies `post`,
and where it fails the source was not honest. -/
abbrev Recovers {α : Type} (calls : Calls sha256) (p : Recovering sha256 α)
    (post : Calls sha256 → α → Prop) : Prop :=
  Holds (fun _ => True) (fetchGuard limits) calls p (outcome post (Fault limits root))

/-! ## One record -/

theorem storage_recovers :
    Recovers limits root calls (storage sha256) fun calls' _ =>
      Asks (fun _ => False) calls calls' := by
  rw [storage]
  apply holds_bind.mpr
  apply holds_call.mpr
  refine ⟨trivial, ?_⟩
  intro answer _
  cases answer with
  | ok value => exact asks_other fun _ => rfl
  | error message =>
      intro data leaves manifest geometry _ hhonest
      have hok := hhonest.storage (.error message) (List.mem_append_right _ List.mem_cons_self)
      cases hok

/-- **The attempts for one record.** While attempts are left the source is asked again; a record
that is returned was served under the reference and has its transaction. -/
theorem fetchCandidate_recovers {attempts : ℕ} {rejected : List String} {attempted : Attempted}
    (hattempts : fetchesOf reference.txid calls + attempts = attemptsOf limits)
    (hrefers : Refers limits root calls reference)
    (hnone : attempts = 0 → Fault limits root calls) :
    Recovers limits root calls (fetchCandidate sha256 ⟨reference⟩ attempts rejected attempted)
      fun calls' record => Served calls' reference record ∧ record.txid = reference.txid ∧
        Asks (· = reference.txid) calls calls' := by
  induction attempts generalizing calls rejected attempted with
  | zero => exact hnone rfl
  | succ attempts ih =>
      rw [fetchCandidate]
      apply holds_bind.mpr
      apply holds_call.mpr
      refine ⟨trivial, ?_⟩
      intro expired _
      show Recovers limits root _ _ _
      have hclock : Asks (· = reference.txid) calls (calls ++ [⟨.expired, expired⟩]) :=
        asks_other fun _ => rfl
      by_cases hexpired : expired = true
      · rw [if_pos hexpired]
        intro data leaves manifest geometry _ hhonest
        have hfalse := hhonest.clock expired (List.mem_append_right _ List.mem_cons_self)
        rw [hexpired] at hfalse
        cases hfalse
      · rw [if_neg hexpired]
        have hcount : fetchesOf reference.txid (calls ++ [⟨.expired, expired⟩]) =
            fetchesOf reference.txid calls := by
          rw [fetchesOf_append]
          rfl
        apply holds_bind.mpr
        apply holds_call.mpr
        constructor
        · show fetchesOf reference.txid _ < _
          rw [hcount]
          omega
        intro answer _
        show Recovers limits root _ _ _
        obtain ⟨asked, hasked⟩ : ∃ asked : Calls sha256,
            asked = calls ++ [⟨.expired, expired⟩] ++ [⟨.fetch ⟨reference⟩ rejected, answer⟩] :=
          ⟨_, rfl⟩
        have hgrown : Asks (· = reference.txid) calls asked := by
          rw [hasked]
          exact hclock.trans asks_fetch
        have hnext : fetchesOf reference.txid asked + attempts = attemptsOf limits := by
          rw [hasked, fetchesOf_fetch, hcount]
          omega
        have hmem : ⟨.fetch ⟨reference⟩ rejected, answer⟩ ∈ asked := by
          rw [hasked]
          exact List.mem_append_right _ List.mem_cons_self
        have hrefers' : Refers limits root asked reference := by
          apply hrefers.after
          rw [hasked, List.append_assoc]
          exact List.prefix_append _ _
        -- what an honest source answers
        have hanswer : ∀ data leaves manifest geometry,
            Expected limits root data leaves manifest geometry →
            Honest limits (leaves ++ data) root.author asked → ∃ item,
              (Serves item root.author answer ∨ Retries item rejected answer) ∧
                reference = item.reference sha256 ∧
                (attempts = 0 → Serves item root.author answer) := by
          intro data leaves manifest geometry hexpected hhonest
          obtain ⟨item, hitem, hreference⟩ := hrefers' data leaves manifest geometry hexpected hhonest
          obtain ⟨hone, hlast⟩ := hhonest.serves _ reference rejected answer [] hasked item hitem
            hreference
          refine ⟨item, hone, hreference, ?_⟩
          intro hzero
          apply hlast
          rw [hcount]
          omega
        rw [← hasked]
        -- the source is asked again
        have hagain : ∀ rejected' attempted',
            (∀ item, Serves item root.author answer → reference ≠ item.reference sha256) →
            Recovers limits root asked
              (fetchCandidate sha256 ⟨reference⟩ attempts rejected' attempted')
              fun calls' record => Served calls' reference record ∧
                record.txid = reference.txid ∧ Asks (· = reference.txid) calls calls' := by
          intro rejected' attempted' hnot
          apply (ih hnext hrefers' ?_).imp
          · rintro calls' record ⟨hserved, htxid, hrest⟩
            exact ⟨hserved, htxid, hgrown.trans hrest⟩
          · intro hzero data leaves manifest geometry hexpected hhonest
            obtain ⟨item, _, hreference, hlast⟩ := hanswer data leaves manifest geometry hexpected
              hhonest
            exact hnot item (hlast hzero) hreference
        -- a candidate is refused
        have hrefuse : ∀ origin cause,
            (∀ item, reference = item.reference sha256 → Retries item rejected answer →
              origin ∉ rejected) →
            (∀ item, Serves item root.author answer → reference ≠ item.reference sha256) →
            Recovers limits root asked
              (if rejected.contains origin then
                Program.fail (.invalidCandidate reference.txid cause)
              else fetchCandidate sha256 ⟨reference⟩ attempts (rejected ++ [origin])
                (.rejected cause))
              fun calls' record => Served calls' reference record ∧
                record.txid = reference.txid ∧ Asks (· = reference.txid) calls calls' := by
          intro origin cause hfresh hnot
          split
          · next hcontains =>
              intro data leaves manifest geometry hexpected hhonest
              obtain ⟨item, hone, hreference, _⟩ := hanswer data leaves manifest geometry hexpected
                hhonest
              rcases hone with hserves | hretries
              · exact hnot item hserves hreference
              · exact hfresh item hreference hretries (List.contains_iff_mem.mp hcontains)
          · exact hagain _ _ hnot
        cases answer with
        | ok candidate =>
            by_cases htxid : candidate.record.txid = reference.txid
            · show Recovers limits root asked (if _ then _ else _) _
              rw [if_pos htxid]
              exact ⟨⟨rejected, candidate.origin, hmem⟩, htxid, hgrown⟩
            · show Recovers limits root asked (if _ then _ else _) _
              rw [if_neg htxid]
              apply hrefuse
              · rintro item _ ⟨_, hfresh⟩
                exact hfresh
              · rintro item ⟨other, hother, hid, _⟩ hreference
                cases hother
                apply htxid
                rw [hid, hreference]
                rfl
        | error failure =>
            cases failure with
            | rejected origin cause =>
                apply hrefuse
                · intro item _ hfresh
                  exact hfresh
                · rintro item ⟨other, hother, _⟩
                  cases hother
            | source cause =>
                apply hagain
                rintro item ⟨other, hother, _⟩
                cases hother
            | unavailable =>
                intro data leaves manifest geometry hexpected hhonest
                obtain ⟨item, hone, _⟩ := hanswer data leaves manifest geometry hexpected hhonest
                rcases hone with ⟨other, hother, _⟩ | hretries
                · cases hother
                · exact hretries

/-- **One record** is served under its reference, with the hash the reference names and by the
author of the root. -/
theorem fetch_recovers (hfresh : fetchesOf reference.txid calls = 0)
    (hrefers : Refers limits root calls reference) :
    Recovers limits root calls (fetch sha256 reference root.author limits) fun calls' record =>
      Used calls' root.author reference record ∧ Asks (· = reference.txid) calls calls' := by
  rw [fetch]
  have hattempts : fetchesOf reference.txid calls + max limits.attempts 1 = attemptsOf limits := by
    rw [hfresh, Nat.zero_add]
    rfl
  apply Holds.andThen (fetchCandidate_recovers hattempts hrefers fun hzero => by omega).grows
  rintro asked record ⟨⟨hserved, htxid, hasks⟩, hgrown⟩
  apply holds_lift.mpr
  cases haccept : accept ⟨reference⟩ record root.author with
  | ok accepted =>
      simp only [accept, Except.bind_eq_ok, orInvalid_eq_ok, RecordRequest.checkHash,
        ensure_eq_ok, beq_iff_eq] at haccept
      obtain ⟨_, hhash, haccept⟩ := haccept
      split at haccept
      · cases haccept
      · next hauthor =>
          cases haccept
          refine ⟨⟨hserved, ?_, not_not.mp hauthor⟩, hasks⟩
          show ChildReference.mk record.txid record.recordHash = reference
          rw [htxid, hhash]
  | error error =>
      intro data leaves manifest geometry hexpected hhonest
      obtain ⟨item, hitem, hreference⟩ := hrefers.after hgrown data leaves manifest geometry
        hexpected hhonest
      obtain ⟨hrecord, hauthor⟩ := hhonest.record_eq hitem hreference hserved htxid
      have hhash : record.recordHash = reference.recordHash := by
        rw [record.recordHash_eq, hrecord, hreference]
        rfl
      have hok : accept ⟨reference⟩ record root.author = .ok record := by
        simp only [accept, Except.bind_eq_ok, orInvalid_eq_ok, RecordRequest.checkHash,
          ensure_eq_ok, beq_iff_eq]
        exact ⟨(), hhash, if_neg (not_not.mpr hauthor)⟩
      rw [hok] at haccept
      cases haccept

end Urma.Runtime.Reconstruct
