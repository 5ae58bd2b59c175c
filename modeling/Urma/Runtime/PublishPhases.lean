import Urma.Runtime.PublishWalk

/-!
# The phases of a walk

The order of a validated plan, the stock a walk takes of it, and the loop over its records: the
flags of the loop say of every record before the current one what its observation says.
-/

namespace Urma.Runtime

open Chain Lib Program

variable {crates : PublishCrates} {checks : PlanChecks} {node : Node} {plan : DiskPlan}

/-! ## The order of a plan -/

/-- What the order accepts of one record. -/
theorem Order.append_eq_ok_iff {sha256 : Bytes → Bytes32} {order order' : Order} {bytes : Bytes}
    {txid : Txid} (h : order.append sha256 bytes txid = .ok order') :
    order.root = false ∧ ∃ kind, RecordKind.parse bytes = .ok kind ∧
      (kind = .dataPart → order.leaves = false) ∧
      order'.leaves = (order.leaves || kind == .leafManifest) ∧
      order'.root = (kind == .rootManifest) := by
  simp only [Order.append, Except.bind_eq_ok, ensure_eq_ok] at h
  obtain ⟨_, hroot, kind, hkind, _, hposition, _, _, horder⟩ := h
  cases horder
  refine ⟨by simpa using hroot, kind, hkind, ?_, rfl, rfl⟩
  rintro rfl
  simpa using hposition

theorem decodeBounded_eq_ok {raw : String} {limit : ℕ} {transaction : Transaction}
    (h : decodeBounded crates raw limit = .ok transaction) :
    crates.decodeHex raw = .ok transaction := by
  simp only [decodeBounded, Except.bind_eq_ok] at h
  obtain ⟨_, _, h⟩ := h
  exact h

/-- The record of a pair that verifies. -/
theorem pairRole_eq_some {pair : PublicPlan} {role : Role}
    (h : pairRole crates checks pair = some role) :
    ∃ record commit reveal parsed, role = roleOf record ∧
      crates.decodeHex pair.commit = .ok commit ∧ crates.decodeHex pair.reveal = .ok reveal ∧
      Envelope.verifyRecordProof crates.reveal reveal commit = .ok parsed ∧
      RecordKind.parse parsed.record = .ok record.kind := by
  rw [pairRole] at h
  split at h
  · next record hrecord =>
      simp only [recordOf, Except.bind_eq_ok, protocol_eq_ok] at hrecord
      obtain ⟨commit, hcommit, reveal, hreveal, verified, hverified, hdecode⟩ := hrecord
      obtain ⟨_, _, parsed, hparsed, _, hbytes⟩ := VerifiedRecord.verify_eq_ok hverified
      refine ⟨record, commit, reveal, parsed, (Option.some.inj h).symm,
        decodeBounded_eq_ok hcommit, decodeBounded_eq_ok hreveal, hparsed, ?_⟩
      rw [← hbytes]
      exact (MultipartRecord.decode_eq_ok hdecode).2.1
  · cases h

/-- One record of a validated plan. -/
theorem validateRecords_cons {before pairs : List PublicPlan} {pair : PublicPlan}
    {order final : Order}
    (h : plan.validateRecords crates checks before (pair :: pairs) order = .ok final) :
    ∃ order', plan.validateRecords crates checks (before ++ [pair]) pairs order' = .ok final ∧
      order.root = false ∧
      (pairRole crates checks pair = some .data → order.leaves = false) ∧
      (order.leaves = true → order'.leaves = true) ∧
      (pairRole crates checks pair = some .leaf → order'.leaves = true) ∧
      (pairRole crates checks pair = some .root → order'.root = true) := by
  simp only [DiskPlan.validateRecords, Except.bind_eq_ok, protocol_eq_ok] at h
  obtain ⟨_, _, commit, hcommit, reveal, hreveal, parsed, hparsed, order', happend, hrest⟩ := h
  obtain ⟨hroot, kind, hkind, hdata, hleaves, hfinal⟩ := Order.append_eq_ok_iff happend
  have hrole : ∀ role, pairRole crates checks pair = some role → ∃ record,
      role = roleOf record ∧ kind = record.kind := by
    intro role hsome
    obtain ⟨record, commit', reveal', parsed', hrole, hcommit', hreveal', hparsed', hparse⟩ :=
      pairRole_eq_some hsome
    cases (decodeBounded_eq_ok hcommit).symm.trans hcommit'
    cases (decodeBounded_eq_ok hreveal).symm.trans hreveal'
    cases (Envelope.verifyReveal_eq_ok crates.reveal hparsed).symm.trans hparsed'
    cases hkind.symm.trans hparse
    exact ⟨record, hrole, rfl⟩
  refine ⟨order', hrest, hroot, ?_, ?_, ?_, ?_⟩
  · intro hsome
    obtain ⟨record, hdataRole, rfl⟩ := hrole _ hsome
    cases record with
    | data part => exact hdata rfl
    | leaf manifest => cases hdataRole
    | root manifest => cases hdataRole
  · intro htrue
    rw [hleaves, htrue, Bool.true_or]
  · intro hsome
    obtain ⟨record, hleafRole, rfl⟩ := hrole _ hsome
    cases record with
    | data part => cases hleafRole
    | leaf manifest => rw [hleaves]; exact Bool.or_true _
    | root manifest => cases hleafRole
  · intro hsome
    obtain ⟨record, hrootRole, rfl⟩ := hrole _ hsome
    cases record with
    | data part => cases hrootRole
    | leaf manifest => cases hrootRole
    | root manifest => exact hfinal

/-- After a leaf there is no data part. -/
theorem no_data_after_leaf {before pairs : List PublicPlan} {order final : Order}
    (h : plan.validateRecords crates checks before pairs order = .ok final)
    (hleaves : order.leaves = true) :
    ∀ pair ∈ pairs, pairRole crates checks pair ≠ some .data := by
  induction pairs generalizing before order with
  | nil =>
      intro pair hmem
      cases hmem
  | cons pair pairs ih =>
      obtain ⟨order', hrest, _, hdata, hkeep, _⟩ := validateRecords_cons h
      intro other hmem hrole
      rcases List.mem_cons.mp hmem with rfl | hmem
      · rw [hdata hrole] at hleaves
        cases hleaves
      · exact ih hrest (hkeep hleaves) other hmem hrole

/-- **The order of a validated plan**: data parts stand before leaves, and both before the root. -/
theorem validateRecords_order {before pairs : List PublicPlan} {order final : Order}
    (h : plan.validateRecords crates checks before pairs order = .ok final)
    {i j : ℕ} {pair other : PublicPlan} (hpair : pairs[i]? = some pair)
    (hother : pairs[j]? = some other) :
    (pairRole crates checks pair = some .leaf → pairRole crates checks other = some .data →
      j < i) ∧
    (pairRole crates checks pair = some .root →
      pairRole crates checks other = some .data ∨ pairRole crates checks other = some .leaf →
        j < i) := by
  induction pairs generalizing before order i j with
  | nil => cases hpair
  | cons first pairs ih =>
      obtain ⟨order', hrest, _, _, _, hleaf, hroot⟩ := validateRecords_cons h
      cases i with
      | zero =>
          cases hpair
          cases j with
          | zero =>
              cases hother
              constructor
              · intro hrole hrole'
                cases hrole.symm.trans hrole'
              · rintro hrole (hrole' | hrole') <;> cases hrole.symm.trans hrole'
          | succ j =>
              have hmem : other ∈ pairs := List.mem_of_getElem? hother
              constructor
              · intro hrole hrole'
                exact absurd hrole' (no_data_after_leaf hrest (hleaf hrole) other hmem)
              · intro hrole _
                -- nothing follows the root
                cases pairs with
                | nil => cases hmem
                | cons next pairs =>
                    obtain ⟨_, _, hfalse, _⟩ := validateRecords_cons hrest
                    rw [hroot hrole] at hfalse
                    cases hfalse
      | succ i =>
          cases j with
          | zero => exact ⟨fun _ _ => Nat.succ_pos i, fun _ _ => Nat.succ_pos i⟩
          | succ j =>
              obtain ⟨hleafLt, hrootLt⟩ := ih hrest hpair hother
              exact ⟨fun hrole hrole' => Nat.succ_lt_succ (hleafLt hrole hrole'),
                fun hrole hrole' => Nat.succ_lt_succ (hrootLt hrole hrole')⟩

/-! ## Positions -/

theorem raws_getElem? {records : List PublicPlan} {index : ℕ} {pair : PublicPlan}
    (h : records[index]? = some pair) :
    (records.flatMap fun pair => [pair.commit, pair.reveal])[index * 2]? = some pair.commit ∧
      (records.flatMap fun pair => [pair.commit, pair.reveal])[index * 2 + 1]? =
        some pair.reveal := by
  induction records generalizing index with
  | nil => cases h
  | cons first records ih =>
      cases index with
      | zero =>
          cases h
          exact ⟨rfl, rfl⟩
      | succ index =>
          have htwo : (index + 1) * 2 = index * 2 + 2 := by omega
          rw [List.flatMap_cons, htwo]
          exact ih h

theorem DiskPlan.raws_length (plan : DiskPlan) : plan.raws.length = plan.records.length * 2 := by
  rw [DiskPlan.raws, List.length_flatMap]
  show (plan.records.map fun _ => 2).sum = _
  rw [List.map_const', List.sum_replicate_nat]

/-- Transactions at different positions have different ids. -/
theorem Distinct.ne (h : plan.Distinct crates) {k offset : ℕ} {raw other : String}
    (hraw : plan.raws[k]? = some raw) (hother : plan.raws[offset]? = some other)
    (hne : k ≠ offset) : txidOf crates raw ≠ txidOf crates other := by
  intro heq
  have hk : (plan.raws.map (txidOf crates))[k]? = some (txidOf crates raw) := by
    rw [List.getElem?_map, hraw, Option.map_some]
  have hoffset : (plan.raws.map (txidOf crates))[offset]? = some (txidOf crates raw) := by
    rw [List.getElem?_map, hother, Option.map_some, heq]
  obtain ⟨hlt, _⟩ := List.getElem?_eq_some_iff.mp hk
  exact hne ((List.getElem?_inj hlt h).mp (hk.trans hoffset.symm))

/-! ## Taking stock -/

variable {calls calls' : Calls} {session session' : Session} {raw : String} {offset : ℕ}

/-- The rows of a session say what has been observed of the transactions at their positions. -/
def Stocked (crates : PublishCrates) (plan : DiskPlan) (calls : Calls) (session : Session) : Prop :=
  ∀ (offset : ℕ) (raw : String) (row : Observation), plan.raws[offset]? = some raw →
    session.progress.observations[offset]? = some row →
      Recorded crates plan calls raw row.state

theorem Recorded.still {seen : State} (h : Recorded crates plan calls raw seen)
    (hstill : Still calls calls') : Recorded crates plan calls' raw seen := by
  have hkeep : ∀ good, Observed crates plan good calls raw →
      Observed crates plan good calls' raw := by
    rintro good ⟨txid, htxid, hseen, hlast⟩
    refine ⟨txid, htxid, ?_, ?_⟩
    · rw [hstill.observations_eq]
      exact hseen
    · rw [hstill.observations_eq]
      exact hlast
  exact ⟨fun h' => hkeep _ (h.available h'), fun h' => hkeep _ (h.confirmed h')⟩

theorem Stocked.still (h : Stocked crates plan calls session) (hstill : Still calls calls') :
    Stocked crates plan calls' session :=
  fun offset raw row hraw hrow => (h offset raw row hraw hrow).still hstill

/-- The rows at other positions keep saying what they say. -/
theorem Stocked.other {txid : Txid} (h : Stocked crates plan calls session)
    (hextends : Extends txid calls calls') (htxid : txidOf crates raw = some txid)
    (hraw : plan.raws[offset]? = some raw) {k : ℕ} {other : String} {row : Observation}
    (hother : plan.raws[k]? = some other) (hrow : session.progress.observations[k]? = some row)
    (hne : k ≠ offset) : Recorded crates plan calls' other row.state := by
  apply (h k other row hother hrow).extend hextends
  intro hdistinct heq
  exact Distinct.ne hdistinct hother hraw hne (heq.trans htxid.symm)

/-- A transaction more. -/
theorem Stocked.push {role : Role} {eligible : Bool} {seen : State}
    (h : Stocked crates plan calls session)
    (hlength : session.progress.observations.length = offset)
    (hraw : plan.raws[offset]? = some raw)
    (htransacted : Transacted crates node plan calls session raw role eligible calls' seen
      session') : Stocked crates plan calls' session' := by
  obtain ⟨txid, htxid, hextends, hrows⟩ := htransacted.txid
  intro k other row hother hrow
  rw [hrows] at hrow
  by_cases hk : k = offset
  · subst hk
    rw [← hlength, List.getElem?_concat_length] at hrow
    cases hrow
    cases hraw.symm.trans hother
    exact htransacted.recorded
  · have hlt : k < session.progress.observations.length := by
      have hbound := (List.getElem?_eq_some_iff.mp hrow).1
      rw [List.length_append, List.length_singleton] at hbound
      omega
    rw [List.getElem?_append_left hlt] at hrow
    exact h.other hextends htxid hraw hother hrow hk

/-- The walk has taken stock of the first `count` records, and nothing blocks it. -/
structure Inventoried (crates : PublishCrates) (checks : PlanChecks) (node : Node)
    (plan : DiskPlan) (calls : Calls) (pairs : List BufferedPair) (session : Session)
    (count : ℕ) : Prop where
  clear : Clear crates node calls
  isOpen : session.isOpen
  stocked : Stocked crates plan calls session
  rows : session.progress.observations.length = count * 2
  length : pairs.length = count
  roles : ∀ (index : ℕ) (pair : PublicPlan) (buffered : BufferedPair), plan.records[index]? = some pair →
    pairs[index]? = some buffered → pairRole crates checks pair = some buffered.role

theorem Inventoried.quiet {pairs : List BufferedPair} {count : ℕ}
    (h : Inventoried crates checks node plan calls pairs session count)
    (hquiet : Quiet crates node calls calls') :
    Inventoried crates checks node plan calls' pairs session count :=
  ⟨hquiet.clear _ h.clear, h.isOpen, h.stocked.still hquiet.still, h.rows, h.length, h.roles⟩

theorem record_eq_ok {index : ℕ} {pair : PublicPlan} (h : plan.record index = .ok pair) :
    plan.records[index]? = some pair := by
  simp only [DiskPlan.record, Except.bind_eq_ok, contextService_eq_ok] at h
  obtain ⟨_, _, h⟩ := h
  exact h

/-- A step of a fallible function. -/
theorem safe_lift {α β : Type} {result : Except ServiceError α} {next : α → Publishing β}
    {post : Calls → β → Prop}
    (h : ∀ a, result = .ok a → Safe crates checks node plan calls (next a) post) :
    Safe crates checks node plan calls ((liftM result : Publishing α) >>= next) post := by
  apply Holds.cut (fun calls' a => calls = calls' ∧ result = .ok a)
  · exact holds_lift_returning.mpr fun _ hresult => ⟨rfl, hresult⟩
  · rintro _ a ⟨rfl, hresult⟩
    exact h a hresult

/-- **The inventory**, record by record. -/
theorem inventoryFrom_safe {count index : ℕ} {pairs : List BufferedPair}
    (h : Inventoried crates checks node plan calls pairs session index) :
    Safe crates checks node plan calls
      (session.inventoryFrom crates checks node plan count index pairs)
      fun calls' result => result.2.submit = session.submit ∧
        (result.2.progress.retryable →
          Inventoried crates checks node plan calls' result.1 result.2 (index + count)) := by
  induction count generalizing calls index pairs session with
  | zero => exact ⟨rfl, fun _ => h⟩
  | succ count ih =>
      rw [Session.inventoryFrom]
      apply Holds.andThen (safe_ask rfl fun calls' _ hquiet => h.quiet hquiet)
      intro noted _ hnoted
      apply safe_lift
      intro pair hpair
      apply safe_lift
      intro record hrecord
      apply safe_lift
      intro commit _
      apply safe_lift
      intro reveal _
      have hindex := record_eq_ok hpair
      obtain ⟨hrawCommit, hrawReveal⟩ := raws_getElem? hindex
      have hrole : pairRole crates checks pair = some (roleOf record) := by rw [pairRole, hrecord]
      apply Holds.andThen (transaction_safe hnoted.clear fun hfalse => by cases hfalse)
      rintro first ⟨seen, session₁⟩ hcommit
      obtain ⟨txid, _, _, hrows⟩ := hcommit.txid
      have hrows₁ : session₁.progress.observations.length = index * 2 + 1 := by
        rw [hrows, List.length_append, hnoted.rows, List.length_singleton]
      have hstocked₁ := hnoted.stocked.push hnoted.rows hrawCommit hcommit
      dsimp only
      by_cases hretry₁ : session₁.progress.retryable = true
      · rw [if_neg (by rw [hretry₁]; decide)]
        have hopen₁ := hcommit.retryable rfl hnoted.isOpen hretry₁
        apply Holds.andThen (transaction_safe (hcommit.clear hopen₁) fun hfalse => by cases hfalse)
        rintro second ⟨seen', session₂⟩ hreveal
        obtain ⟨txid', _, _, hrows'⟩ := hreveal.txid
        have hstocked₂ := hstocked₁.push hrows₁ hrawReveal hreveal
        dsimp only
        by_cases hretry₂ : session₂.progress.retryable = true
        · rw [if_neg (by rw [hretry₂]; decide)]
          have hopen₂ := hreveal.retryable rfl hopen₁ hretry₂
          have hnext : Inventoried crates checks node plan second
              (pairs ++ [⟨roleOf record, crates.weight commit, crates.weight reveal⟩]) session₂
              (index + 1) := by
            refine ⟨hreveal.clear hopen₂, hopen₂, hstocked₂, ?_, ?_, ?_⟩
            · rw [hrows', List.length_append, hrows₁, List.length_singleton]
              omega
            · rw [List.length_append, hnoted.length, List.length_singleton]
            · intro k other buffered hother hbuffered
              by_cases hk : k = index
              · subst hk
                rw [← hnoted.length, List.getElem?_concat_length] at hbuffered
                cases hbuffered
                cases hindex.symm.trans hother
                exact hrole
              · have hbound := (List.getElem?_eq_some_iff.mp hbuffered).1
                rw [List.length_append, List.length_singleton, hnoted.length] at hbound
                rw [List.getElem?_append_left (by rw [hnoted.length]; omega)] at hbuffered
                exact hnoted.roles k other buffered hother hbuffered
          apply (ih hnext).imp
          rintro calls' result ⟨hsubmit, hresult⟩
          refine ⟨hsubmit.trans (hreveal.submit.trans hcommit.submit), ?_⟩
          have hsum : index + (count + 1) = index + 1 + count := by omega
          rw [hsum]
          exact hresult
        · rw [if_pos (by rw [Bool.eq_false_iff.mpr hretry₂]; decide)]
          exact ⟨hreveal.submit.trans hcommit.submit, fun htrue => absurd htrue hretry₂⟩
      · rw [if_pos (by rw [Bool.eq_false_iff.mpr hretry₁]; decide)]
        exact ⟨hcommit.submit, fun htrue => absurd htrue hretry₁⟩

end Urma.Runtime
